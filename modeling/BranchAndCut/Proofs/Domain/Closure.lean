import BranchAndCut.Proofs.Domain.Additions
import BranchAndCut.Proofs.Domain.Enclosure

/-! # Closing domains under implications

A binary variable that is fixed in a domain has its fixed value at every point of
it. So every bound that the implication graph adds is one that all points keeping
the implications satisfy, whatever fixings are put on the stack in between. -/

namespace BranchAndCut

variable [Rooted ℚ]

/-- A point gives a variable the value 1, or 0. -/
def Point.HasValue (p : Point) (v : VarId) (value : Bool) : Prop :=
  p.coord v = if value then 1 else 0

namespace ImplicationGraph

/-- A point keeps all implications, and where a member of a clique is 1 no other
member is positive. -/
structure Holds (g : ImplicationGraph (Exact ℚ)) (p : Point) : Prop where
  implications : ∀ e ∈ g.implications, p.HasValue e.1.1 e.1.2 →
    e.2.kind.Admits e.2.value (p.coord e.2.var)
  cliques : ∀ members ∈ g.cliques, ∀ v ∈ members, ∀ w ∈ members, w ≠ v →
    p.coord v = 1 → p.coord w ≤ 0

theorem Holds.implied {g : ImplicationGraph (Exact ℚ)} {p : Point} (h : g.Holds p) {v : VarId}
    {value : Bool} (hv : p.HasValue v value) :
    ∀ i ∈ g.implied v value, i.kind.Admits i.value (p.coord i.var) := by
  intro i hi
  rcases implied_cases hi with ⟨e, he, htrigger, rfl⟩ | ⟨rfl, members, hclique, hmem, w, hw, hne, rfl⟩
  · refine h.implications e he ?_
    rw [htrigger]
    exact hv
  · have hle := h.cliques members hclique v hmem w hw hne hv
    change Exact.fin (p.coord w) ≤ 0
    rw [Exact.zero_def]
    exact hle

end ImplicationGraph

namespace Deduction

variable {g : ImplicationGraph (Exact ℚ)} {P : Set Point} {p : Point}

/-- Points that a store and an implication graph allow. -/
structure Candidates (g : ImplicationGraph (Exact ℚ)) (P : Set Point)
    (d : Domains (Exact ℚ)) : Prop where
  tol : 0 ≤ d.tol
  encloses : ∀ p ∈ P, d.Encloses p
  globally : ∀ p ∈ P, ∀ v, d.isIntegral v = true → d.EnclosesGlobally p v
  implications : ∀ p ∈ P, g.Holds p

theorem Candidates.tightens {d e : Domains (Exact ℚ)} (hP : Candidates g P d)
    (h : d.Tightens P e) : Candidates g P e where
  tol := h.tol ▸ hP.tol
  encloses p hp := h.encloses hP.tol hp (hP.encloses p hp)
  globally p hp v hv :=
    h.enclosesGlobally hP.tol hp (hP.encloses p hp) (hP.globally p hp v (h.isIntegral v ▸ hv))
  implications := hP.implications

/-- Deductions that lose no point: all bounds are satisfied by all points, and
infeasibility is only found where there are none. -/
structure Follows (P : Set Point) (a b : Deduction (Exact ℚ)) : Prop where
  domains : a.domains.Tightens P b.domains
  infeasible : b.infeasible = true → a.infeasible = true ∨ P = ∅

theorem Follows.refl (a : Deduction (Exact ℚ)) : Follows P a a := ⟨.refl, .inl⟩

theorem Follows.trans {a b c : Deduction (Exact ℚ)} (hab : Follows P a b) (hbc : Follows P b c) :
    Follows P a c where
  domains := hab.domains.trans hbc.domains
  infeasible h := (hbc.infeasible h).elim hab.infeasible .inr

theorem Follows.of_domains {d : Deduction (Exact ℚ)} {domains : Domains (Exact ℚ)}
    (h : d.domains.Tightens P domains) (reductions : Nat) :
    Follows P d { d with domains, reductions } := ⟨h, .inl⟩

/-- One request for a bound that all candidates satisfy. -/
theorem Candidates.request {d : Domains (Exact ℚ)} (hP : Candidates g P d) {v : VarId}
    {kind : BoundKind} {value : Exact ℚ} (reason : Reason)
    (hvalue : ∀ p ∈ P, kind.Admits value (p.coord v)) :
    d.Tightens P (d.tighten v kind value reason).2 ∧
      ((d.tighten v kind value reason).1 = .infeasible → P = ∅) := by
  refine ⟨.request reason .refl hvalue, fun h => Set.eq_empty_iff_forall_notMem.mpr fun p hp => ?_⟩
  exact Domains.tighten_ne_infeasible (hP.encloses p hp) hP.tol (hvalue p hp) reason h

/-- A variable that counts as fixed has its fixed value at every candidate. -/
theorem Candidates.binaryFixing {d : Domains (Exact ℚ)} (hP : Candidates g P d) {v : VarId}
    {value : Bool} (h : binaryFixing? d v = some value) : ∀ p ∈ P, p.HasValue v value := by
  intro p hp
  unfold binaryFixing? at h
  rw [Exact.zero_def, Exact.one_def, Exact.scientific_def] at h
  split_ifs at h with hbinary hup hdown
  all_goals
    obtain rfl := Option.some.inj h
    simp only [Bool.or_eq_true, Bool.not_eq_true', decide_eq_true_eq, not_or,
      Bool.not_eq_false] at hbinary
    obtain ⟨⟨hint, hlb⟩, hub⟩ := hbinary
    obtain ⟨z, hz⟩ := (hP.encloses p hp).integral v hint
    obtain ⟨hglb, hgub⟩ := hP.globally p hp v hint
    unfold Point.HasValue
  · have hhalf := Exact.lt_of_lt_of_le' hup ((hP.encloses p hp).lower v)
    have hone := Exact.le_trans' hgub
      (Exact.le_of_not_lt (Exact.ne_nan_of_le hgub).2 (Exact.fin_ne_nan 1) hub)
    rw [hz, Exact.fin_lt] at hhalf
    rw [hz, Exact.fin_le] at hone
    have hpos : 0 < z := by exact_mod_cast (by norm_num : (0 : ℚ) < 0.5).trans hhalf
    have hle : z ≤ 1 := by exact_mod_cast hone
    rw [hz, if_pos rfl]
    exact_mod_cast le_antisymm hle hpos
  · have hhalf := Exact.lt_of_le_of_lt' ((hP.encloses p hp).upper v) hdown
    have hzero := Exact.le_trans'
      (Exact.le_of_not_lt (Exact.fin_ne_nan 0) (Exact.ne_nan_of_le hglb).1 hlb) hglb
    rw [hz, Exact.fin_lt] at hhalf
    rw [hz, Exact.fin_le] at hzero
    have hlt : z < 1 := by exact_mod_cast hhalf.trans (by norm_num : (0.5 : ℚ) < 1)
    have hge : 0 ≤ z := by exact_mod_cast hzero
    rw [hz, if_neg Bool.false_ne_true]
    exact_mod_cast le_antisymm (Int.lt_add_one_iff.mp hlt) hge

/-! ## The closure -/

/-- A variable that has become fixed goes on the stack. -/
theorem Candidates.push {d : Domains (Exact ℚ)} (hP : Candidates g P d) {stack : List (VarId × Bool)}
    (hstack : ∀ e ∈ stack, ∀ p ∈ P, p.HasValue e.1 e.2) (v : VarId) :
    ∀ e ∈ (match binaryFixing? d v with
      | some value => (v, value) :: stack
      | none => stack), ∀ p ∈ P, p.HasValue e.1 e.2 := by
  cases hfix : binaryFixing? d v with
  | none => exact hstack
  | some value =>
    intro e he
    rcases List.mem_cons.mp he with rfl | he
    · exact hP.binaryFixing hfix
    · exact hstack e he

theorem applyImplied_follows {d : Deduction (Exact ℚ)} {stack : List (VarId × Bool)}
    {is : List (Implication (Exact ℚ))} (hP : Candidates g P d.domains)
    (hstack : ∀ e ∈ stack, ∀ p ∈ P, p.HasValue e.1 e.2)
    (his : ∀ i ∈ is, ∀ p ∈ P, i.kind.Admits i.value (p.coord i.var)) :
    Follows P d (d.applyImplied stack is).2.1 ∧
      ((d.applyImplied stack is).1 = false → P = ∅) ∧
      ∀ e ∈ (d.applyImplied stack is).2.2, ∀ p ∈ P, p.HasValue e.1 e.2 := by
  induction is generalizing d stack with
  | nil => exact ⟨.refl d, nofun, hstack⟩
  | cons i is ih =>
    obtain ⟨htightens, hempty⟩ := hP.request .implication (his i (by simp))
    have hrest : ∀ j ∈ is, ∀ p ∈ P, j.kind.Admits j.value (p.coord j.var) :=
      fun j hj => his j (by simp [hj])
    unfold applyImplied
    cases ht : d.domains.tighten i.var i.kind i.value .implication with
    | mk outcome domains =>
      rw [ht] at htightens hempty
      have hnext := hP.tightens htightens
      cases outcome with
      | applied =>
        obtain ⟨hfollows, hrest⟩ := ih (d := { d with domains, reductions := d.reductions + 1 }) hnext
          (hnext.push hstack i.var) hrest
        exact ⟨(Follows.of_domains htightens (d.reductions + 1)).trans hfollows, hrest⟩
      | redundant =>
        obtain ⟨hfollows, hrest⟩ := ih (d := { d with domains }) hnext hstack hrest
        exact ⟨(Follows.of_domains htightens d.reductions).trans hfollows, hrest⟩
      | infeasible => exact ⟨⟨htightens, fun _ => .inr (hempty rfl)⟩, fun _ => hempty rfl, hstack⟩

theorem closeStack_follows {d : Deduction (Exact ℚ)} {stack : List (VarId × Bool)}
    (hP : Candidates g P d.domains) (hstack : ∀ e ∈ stack, ∀ p ∈ P, p.HasValue e.1 e.2)
    (fuel : Nat) :
    Follows P d (d.closeStack g stack fuel).2 ∧
      ((d.closeStack g stack fuel).1 = false → P = ∅) := by
  induction fuel generalizing d stack with
  | zero => exact ⟨⟨.refl, .inl⟩, nofun⟩
  | succ fuel ih =>
    cases stack with
    | nil => exact ⟨.refl d, nofun⟩
    | cons e stack =>
      obtain ⟨v, value⟩ := e
      obtain ⟨hfollows, hempty, hstack'⟩ := applyImplied_follows hP
        (fun e (he : e ∈ stack) => hstack e (by simp [he]))
        (fun i (hi : i ∈ g.implied v value) p hp =>
          (hP.implications p hp).implied (hstack (v, value) (by simp) p hp) i hi)
      unfold closeStack
      dsimp only
      cases ha : d.applyImplied stack (g.implied v value) with
      | mk feasible rest =>
        rw [ha] at hfollows hempty hstack'
        cases feasible with
        | true =>
          obtain ⟨hfollows', hempty'⟩ := ih (hP.tightens hfollows.domains) hstack'
          exact ⟨hfollows.trans hfollows', hempty'⟩
        | false => exact ⟨hfollows, hempty⟩

theorem closeImplications_follows {d : Deduction (Exact ℚ)} (hP : Candidates g P d.domains)
    (v : VarId) :
    Follows P d (closeImplications g d v).2 ∧ ((closeImplications g d v).1 = false → P = ∅) := by
  unfold closeImplications
  split
  · exact ⟨.refl d, nofun⟩
  · cases hfix : binaryFixing? d.domains v with
    | none => exact ⟨.refl d, nofun⟩
    | some value =>
      refine closeStack_follows hP (fun e he => ?_) _
      rw [List.mem_singleton.mp he]
      exact hP.binaryFixing hfix

/-- **A request and its closure lose no point** that satisfies the requested
bound and keeps the implications. -/
theorem tighten_follows {d : Deduction (Exact ℚ)} (hP : Candidates g P d.domains)
    (reason : Reason) {v : VarId} {kind : BoundKind} {value : Exact ℚ}
    (hvalue : ∀ p ∈ P, kind.Admits value (p.coord v)) :
    Follows P d (tighten g reason d v kind value).2 ∧
      ((tighten g reason d v kind value).1 = .infeasible → P = ∅) := by
  obtain ⟨htightens, hempty⟩ := hP.request reason hvalue
  unfold tighten
  cases ht : d.domains.tighten v kind value reason with
  | mk outcome domains =>
    rw [ht] at htightens hempty
    cases outcome with
    | infeasible => exact ⟨⟨htightens, fun _ => .inr (hempty rfl)⟩, fun _ => hempty rfl⟩
    | redundant => exact ⟨⟨htightens, .inl⟩, nofun⟩
    | applied =>
      obtain ⟨hfollows, hfalse⟩ := closeImplications_follows
        (d := { d with domains, reductions := d.reductions + 1 }) (hP.tightens htightens) v
      have hstep := (Follows.of_domains htightens (d.reductions + 1)).trans hfollows
      dsimp only
      cases hc : closeImplications g { d with domains, reductions := d.reductions + 1 } v with
      | mk feasible d' =>
        rw [hc] at hstep hfalse
        cases feasible with
        | true => exact ⟨hstep, nofun⟩
        | false => exact ⟨hstep, fun _ => hfalse rfl⟩

end Deduction

end BranchAndCut
