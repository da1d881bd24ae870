import BranchAndCut.Branching.Decision
import BranchAndCut.Proofs.Constraint.Sos1
import BranchAndCut.Proofs.Domain.Whole
import BranchAndCut.Proofs.Domain.Width
import BranchAndCut.Proofs.Program

/-! # The children of a branching leave no gap

A fractional variable is split at its value, an integer variable whose relaxation
value does not help is split at a clamped guess, and a special ordered set is split
between two of its nonzero members. Each time, what the parent allows is allowed by
one of the children as well. -/

namespace BranchAndCut

/-! ## Choosing a candidate -/

namespace Brancher

variable {K σ : Type} [Scalar K]

theorem candidate?_var {t : K} {x : Array K} {v : VarId} {c : Candidate K} (h : candidate? t x v = some c) :
    c.var = v := by
  unfold candidate? at h
  simp only [] at h
  split at h
  · cases h
    rfl
  · cases h

theorem best?_mem {l : List (Candidate K × K)} {c : Candidate K} (h : best? l = some c) :
    ∃ score, (c, score) ∈ l := by
  cases l with
  | nil => cases h
  | cons first rest =>
    have hfold : ∀ (rest : List (Candidate K × K)) (first : Candidate K × K),
        rest.foldl (fun best next => if best.2 < next.2 then next else best) first ∈ first :: rest := by
      intro rest
      induction rest with
      | nil => simp
      | cons next rest ih =>
        intro first
        rw [List.foldl_cons]
        refine List.mem_cons.mpr ((List.mem_cons.mp (ih (if first.2 < next.2 then next else first))).elim ?_ ?_)
        · intro heq
          rw [heq]
          split
          · exact .inr List.mem_cons_self
          · exact .inl rfl
        · exact fun hmem => .inr (List.mem_cons_of_mem _ hmem)
    cases h
    exact ⟨_, hfold rest first⟩

theorem best?_isSome {l : List (Candidate K × K)} (h : l ≠ []) : (best? l).isSome := by
  cases l with
  | nil => exact (h rfl).elim
  | cons first rest => rfl

/-- There is one score per candidate, or the supplied rule is at fault. -/
theorem scores_spec (b : Brancher K σ) (cs : List (Candidate K)) (n : Nat) (m : σ) :
    Ensures (b.scores cs n) m (fun scores _ => scores.length = cs.length)
      fun e _ => ∃ rule scores, b.custom = some rule ∧ e = .plugin rule.name (.scoreCount scores cs.length) := by
  unfold scores
  cases hrule : b.custom with
  | none => exact .pure (List.length_map ..)
  | some rule =>
    refine .bind (.modifyGet ?_)
    split
    · exact .throw ⟨rule, _, rfl, rfl⟩
    · next hif =>
      simp only [ne_eq, Bool.or_eq_true, decide_eq_true_eq, not_or, not_not] at hif
      exact .pure hif.1

end Brancher

/-! ## Dividing a domain -/

section

variable [Rooted ℚ] {d : Domains (Exact ℚ)} {v : VarId} {p : Point}

/-- A point satisfies all changes of a list. -/
def Meets (changes : List (BoundChange (Exact ℚ))) (p : Point) : Prop := ∀ c ∈ changes, c.Admits p

namespace Domains

/-- The value of a variable is an integer between its bounds. -/
def Allows (d : Domains (Exact ℚ)) (v : VarId) (p : Point) : Prop :=
  p.IsInt v ∧ d.lb v ≤ .fin (p.coord v) ∧ .fin (p.coord v) ≤ d.ub v

/-- A point is between the bounds. -/
def Contains (d : Domains (Exact ℚ)) (p : Point) : Prop :=
  ∀ v, d.lb v ≤ .fin (p.coord v) ∧ .fin (p.coord v) ≤ d.ub v

/-- Two lists of changes divide the integers in the domain of a variable among them. -/
def Divides (d : Domains (Exact ℚ)) (v : VarId) (left right : List (BoundChange (Exact ℚ))) : Prop :=
  ∀ p : Point, d.Allows v p → Xor (Meets left p) (Meets right p)

/-- Some integer in the domain of a variable is left by the changes. -/
def Leaves (d : Domains (Exact ℚ)) (v : VarId) (changes : List (BoundChange (Exact ℚ))) : Prop :=
  ∃ p : Point, d.Allows v p ∧ Meets changes p

end Domains

@[simp] theorem meets_singleton {c : BoundChange (Exact ℚ)} : Meets [c] p ↔ c.Admits p := by
  simp [Meets]

omit [Rooted ℚ] in
/-- A variable takes every value at some point. -/
theorem Point.exists_coord (v : VarId) (q : ℚ) : ∃ p : Point, p.coord v = q :=
  ⟨Array.replicate (v + 1) q, by simp [Point.coord]⟩

theorem BoundChange.admits_upper {old : Exact ℚ} {s : ℤ} :
    (BoundChange.upper v old (.fin s)).Admits p ↔ p.coord v ≤ s := Iff.rfl

theorem BoundChange.admits_lower {old : Exact ℚ} {s : ℤ} :
    (BoundChange.lower v old (.fin s)).Admits p ↔ (s : ℚ) ≤ p.coord v := Iff.rfl

/-- An integer is at most `s` or at least `s + 1`, and not both. -/
theorem Domains.divides_at (d : Domains (Exact ℚ)) (v : VarId) (oldUpper oldLower : Exact ℚ) (s : ℤ) :
    d.Divides v [.upper v oldUpper (.fin s)] [.lower v oldLower (.fin ((s + 1 : ℤ) : ℚ))] := by
  rintro p ⟨⟨z, hz⟩, -⟩
  rw [meets_singleton, meets_singleton, BoundChange.admits_upper, BoundChange.admits_lower, hz,
    Int.cast_le, Int.cast_le]
  rcases le_or_gt z s with h | h
  · exact .inl ⟨h, by omega⟩
  · exact .inr ⟨by omega, by omega⟩

/-! ## Splitting at a fractional value -/

namespace Brancher

variable {σ : Type}

/-- A value is farther than the tolerance from the integers below and above it. -/
def Fractional (t : Exact ℚ) (q : ℚ) : Prop := t < .fin (Int.fract q) ∧ .fin (Int.fract q) < 1 - t

instance (t : Exact ℚ) (q : ℚ) : Decidable (Fractional t q) :=
  inferInstanceAs (Decidable (t < .fin (Int.fract q) ∧ .fin (Int.fract q) < 1 - t))

theorem candidate?_vector (t : Exact ℚ) (x : Point) (v : VarId) :
    candidate? t x.vector v =
      if Fractional t (x.coord v) then
        some { var := v, value := .fin (x.coord v), frac := .fin (Int.fract (x.coord v)) }
      else none := by
  have hfrac : Scalar.frac (Exact.fin (x.coord v)) = .fin (Int.fract (x.coord v)) := by
    unfold Scalar.frac
    rw [Exact.floor_fin, Exact.fin_sub, Int.self_sub_floor]
  unfold candidate? Fractional
  simp only [Array.getD_eq_getD_getElem?, Point.vector_getD, hfrac, Bool.and_eq_true, decide_eq_true_eq]
  congr

theorem candidate?_eq_some {t : Exact ℚ} {x : Point} {c : Candidate (Exact ℚ)}
    (h : candidate? t x.vector v = some c) : c.value = .fin (x.coord v) ∧ Fractional t (x.coord v) := by
  rw [candidate?_vector] at h
  split at h
  · next hfrac =>
    cases h
    exact ⟨rfl, hfrac⟩
  · cases h

theorem Fractional.pos {t : Exact ℚ} {q : ℚ} (h : Fractional t q) (hpos : 0 < t) : 0 < Int.fract q := by
  have hlt := Exact.lt_of_lt_of_le' hpos (Exact.le_of_lt h.1)
  rwa [Exact.zero_def, Exact.fin_lt] at hlt

omit [Rooted ℚ] in
theorem ceil_eq_floor_add_one {q : ℚ} (h : 0 < Int.fract q) : ⌈q⌉ = ⌊q⌋ + 1 := by
  rw [Int.ceil_eq_iff]
  push_cast
  have hq := Int.floor_add_fract q
  have hlt := Int.fract_lt_one q
  constructor <;> linarith

theorem mem_candidates {b : Brancher (Exact ℚ) σ} {vars : List VarId} {x : Array (Exact ℚ)}
    {c : Candidate (Exact ℚ)} :
    c ∈ b.candidates vars x ↔ ∃ v ∈ vars, candidate? b.intTol x v = some c := by
  unfold candidates
  rw [List.mem_mergeSort, List.mem_filterMap]

/-- The decision splits a fractional variable of the list at its value. -/
def SplitsValue (t : Exact ℚ) (vars : List VarId) (x : Point) (d : Domains (Exact ℚ))
    (decision : BranchingDecision (Exact ℚ)) : Prop :=
  ∃ c ∈ decision.var, c.var ∈ vars ∧ candidate? t x.vector c.var = some c ∧
    decision.children.map ChildSpec.changes =
      [[.down c.var (d.ub c.var) c.value], [.up c.var (d.lb c.var) c.value]]

/-- A fractional variable is split whenever there is one, unless a supplied rule
does not score the candidates. -/
theorem select_spec (b : Brancher (Exact ℚ) σ) (nodeBound : Exact ℚ) (vars : List VarId) (x : Point)
    (d : Domains (Exact ℚ)) (n : Nat) (m : σ) :
    Ensures (b.select nodeBound vars x.vector d n) m
      (fun decision _ =>
        (decision = none ∧ ∀ v ∈ vars, ¬ Fractional b.intTol (x.coord v)) ∨
          ∃ chosen, decision = some chosen ∧ SplitsValue b.intTol vars x d chosen)
      fun e _ => ∃ rule scores count, b.custom = some rule ∧ e = .plugin rule.name (.scoreCount scores count) := by
  unfold select
  simp only []
  split
  · next hempty =>
    refine .pure (.inl ⟨rfl, fun v hv hfrac => ?_⟩)
    rw [List.isEmpty_iff] at hempty
    have hcand := candidate?_vector b.intTol x v
    rw [if_pos hfrac] at hcand
    exact List.not_mem_nil (hempty ▸ mem_candidates.mpr ⟨v, hv, hcand⟩)
  · next hne =>
    refine .bind_mono ((b.scores_spec _ n m).mono (fun _ _ => id) ?_) fun scores _ hlen => .pure (.inr ?_)
    · rintro e t ⟨rule, scores, hrule, he⟩
      exact ⟨rule, scores, _, hrule, he⟩
    have hzip : (b.candidates vars x.vector).zip scores ≠ [] := by
      rw [ne_eq, ← List.length_eq_zero_iff, List.length_zip, hlen, min_self, List.length_eq_zero_iff]
      simpa using hne
    obtain ⟨c, hc⟩ := Option.isSome_iff_exists.mp (best?_isSome hzip)
    obtain ⟨score, hmem⟩ := best?_mem hc
    obtain ⟨v, hv, hcand⟩ := mem_candidates.mp (List.of_mem_zip hmem).1
    rw [hc]
    refine ⟨_, rfl, c, rfl, ?_⟩
    obtain rfl := candidate?_var hcand
    exact ⟨hv, hcand, rfl⟩

/-- **The children of a fractional variable divide the integers of its domain.** -/
theorem SplitsValue.divides {t : Exact ℚ} (hpos : 0 < t) {vars : List VarId} {x : Point}
    {decision : BranchingDecision (Exact ℚ)} (h : SplitsValue t vars x d decision) :
    ∃ v ∈ vars, Fractional t (x.coord v) ∧ ∃ left right,
      decision.children.map ChildSpec.changes = [left, right] ∧ d.Divides v left right := by
  obtain ⟨c, -, hmem, hcand, hchildren⟩ := h
  obtain ⟨hvalue, hfrac⟩ := candidate?_eq_some hcand
  refine ⟨c.var, hmem, hfrac, _, _, hchildren, ?_⟩
  rw [hvalue]
  unfold BoundChange.down BoundChange.up
  rw [Exact.floor_fin, Exact.ceil_fin, ceil_eq_floor_add_one (hfrac.pos hpos)]
  exact d.divides_at c.var _ _ _

/-! ## Splitting a domain -/

/-- A value clamped to a range with a whole lower end, and rounded down, is in the range. -/
theorem floor_clamp {lo hi : Exact ℚ} (hlo : Scalar.Whole lo) (h : lo ≤ hi) (hlt : lo ≠ .posInf)
    (hgt : hi ≠ .negInf) (q : ℚ) :
    ∃ s : ℤ, Scalar.floor (clamp (.fin q) lo hi) = .fin s ∧ lo ≤ .fin s ∧ .fin s ≤ hi := by
  have hclamped : ∃ a : ℚ, clamp (.fin q) lo hi = .fin a ∧ lo ≤ .fin a ∧ .fin a ≤ hi := by
    unfold clamp
    split_ifs with hbelow habove
    · cases lo with
      | fin a => exact ⟨a, rfl, le_refl a, h⟩
      | posInf => exact (hlt rfl).elim
      | _ => exact hbelow.elim
    · cases hi with
      | fin a => exact ⟨a, rfl, h, le_refl a⟩
      | negInf => exact (hgt rfl).elim
      | _ => exact habove.elim
    · obtain ⟨hlo, hhi⟩ := Exact.ne_nan_of_le h
      exact ⟨q, rfl, Exact.le_of_not_lt hlo (Exact.fin_ne_nan q) hbelow,
        Exact.le_of_not_lt (Exact.fin_ne_nan q) hhi habove⟩
  obtain ⟨a, ha, hloa, hahi⟩ := hclamped
  refine ⟨⌊a⌋, by rw [ha, Exact.floor_fin], ?_, Exact.le_trans' (Int.floor_le a) hahi⟩
  cases lo with
  | fin l =>
    obtain ⟨z, rfl⟩ := Exact.exists_int_of_whole hlo
    exact Exact.intCast_le_floor hloa
  | negInf => trivial
  | _ => exact hloa.elim

/-- Whole bounds that are at least `1 - t` apart are at least 1 apart, with room for a number between. -/
theorem room_of_wide {t : ℚ} (ht : t < 2⁻¹) {lb ub : Exact ℚ} (hlb : Scalar.Whole lb) (hub : Scalar.Whole ub)
    (hwide : 1 - Exact.fin t ≤ ub - lb) : lb ≤ ub - 1 ∧ lb ≠ .posInf ∧ ub - 1 ≠ .negInf := by
  rw [Exact.one_def, Exact.fin_sub] at hwide
  rw [Exact.one_def]
  cases lb <;> cases ub <;> first | exact hwide.elim | exact ⟨trivial, nofun, nofun⟩ | skip
  next l u =>
  obtain ⟨y, rfl⟩ := Exact.exists_int_of_whole hlb
  obtain ⟨z, rfl⟩ := Exact.exists_int_of_whole hub
  rw [Exact.fin_sub, Exact.fin_le] at hwide
  have hlt : y < z := by
    rw [← Int.cast_lt (R := ℚ)]
    linarith
  rw [Exact.fin_sub, Exact.fin_le]
  refine ⟨?_, nofun, nofun⟩
  rw [le_sub_iff_add_le]
  exact_mod_cast hlt

theorem le_of_le_sub_one {a u : Exact ℚ} (h : a ≤ u - 1) : a ≤ u := by
  refine Exact.le_trans' h ?_
  rw [Exact.one_def] at h ⊢
  cases u with
  | fin u =>
    rw [Exact.fin_sub, Exact.fin_le]
    linarith
  | nan => cases a <;> exact h.elim
  | _ => trivial

theorem add_one_le {a : ℚ} {u : Exact ℚ} (h : Exact.fin a ≤ u - 1) : Exact.fin (a + 1) ≤ u := by
  rw [Exact.one_def] at h
  cases u with
  | fin u =>
    rw [Exact.fin_sub, Exact.fin_le] at h
    rw [Exact.fin_le]
    linarith
  | posInf => trivial
  | _ => exact h.elim

theorem splitGuess_eq (v : VarId) (x : Option Point) (lb ub : Exact ℚ) :
    ∃ q : ℚ, splitGuess v (x.map Point.vector) lb ub = .fin q := by
  cases x with
  | some x => exact ⟨x.coord v, by simp [splitGuess]⟩
  | none =>
    unfold splitGuess
    simp only [Option.map_none]
    split_ifs with hboth hlb hub
    · obtain ⟨hlb, hub⟩ := Bool.and_eq_true_iff.mp hboth
      obtain ⟨l, rfl⟩ := Exact.isFinite_iff.mp hlb
      obtain ⟨u, rfl⟩ := Exact.isFinite_iff.mp hub
      exact ⟨2⁻¹ * (l + u), by rw [Exact.half_def, Exact.fin_add, Exact.fin_mul]⟩
    · exact Exact.isFinite_iff.mp hlb
    · exact Exact.isFinite_iff.mp hub
    · exact ⟨0, Exact.zero_def⟩

/-- The decision splits the domain of a variable of the list above an integer that
has a neighbour in it. -/
def SplitsDomain (vars : List VarId) (d : Domains (Exact ℚ)) (decision : BranchingDecision (Exact ℚ)) : Prop :=
  decision.var = none ∧ ∃ v ∈ vars, ∃ s : ℤ, d.lb v ≤ .fin s ∧ .fin s ≤ d.ub v - 1 ∧
    decision.children.map ChildSpec.changes =
      [[.upper v (d.ub v) (.fin s)], [.lower v (d.lb v) (.fin ((s + 1 : ℤ) : ℚ))]]

/-- The domain of a variable whose bounds are whole holds at most one integer unless they are 1 apart. -/
theorem unique_of_narrow {t : ℚ} (ht : 0 < t) (hnarrow : ¬ 1 - Exact.fin t ≤ d.ub v - d.lb v) {q : Point}
    (hp : d.Allows v p) (hq : d.Allows v q) : p.coord v = q.coord v := by
  obtain ⟨⟨y, hy⟩, hply, hpuy⟩ := hp
  obtain ⟨⟨z, hz⟩, hqlz, hquz⟩ := hq
  rw [Exact.one_def, Exact.fin_sub] at hnarrow
  cases hlb : d.lb v <;> cases hub : d.ub v <;> rw [hlb, hub] at hnarrow <;> rw [hlb] at hply hqlz <;>
    rw [hub] at hpuy hquz <;>
    first | exact hply.elim | exact hpuy.elim | exact (hnarrow trivial).elim | skip
  next l u =>
  rw [Exact.fin_sub, Exact.fin_le, not_le] at hnarrow
  rw [Exact.fin_le] at hply hpuy hqlz hquz
  have hyz : y < z + 1 := by
    rw [← Int.cast_lt (R := ℚ)]
    push_cast
    linarith
  have hzy : z < y + 1 := by
    rw [← Int.cast_lt (R := ℚ)]
    push_cast
    linarith
  rw [hy, hz, show y = z by omega]

/-- The domain of an integer variable is split unless every variable has at most one value left. -/
theorem halve_spec (b : Brancher (Exact ℚ) σ) (hpos : 0 < b.intTol) (hhalf : b.intTol < 0.5)
    (nodeBound : Exact ℚ) {vars : List VarId} (x : Option Point)
    (hwhole : ∀ v ∈ vars, Scalar.Whole (d.lb v) ∧ Scalar.Whole (d.ub v)) :
    (b.halve nodeBound vars (x.map Point.vector) d = .ok none ∧
        ∀ v ∈ vars, ∀ p q : Point, d.Allows v p → d.Allows v q → p.coord v = q.coord v) ∨
      ∃ decision, b.halve nodeBound vars (x.map Point.vector) d = .ok (some decision) ∧
        SplitsDomain vars d decision := by
  obtain ⟨t, htol, ht, hlt⟩ := Exact.exists_fin_of_tolerance hpos hhalf
  unfold halve
  simp only [htol]
  cases hfind : (vars.mergeSort fun v w => decide (v ≤ w)).find?
      fun v => decide (1 - Exact.fin t ≤ d.ub v - d.lb v) with
  | none =>
    refine .inl ⟨rfl, fun v hv p q hp hq => ?_⟩
    have hnarrow := List.find?_eq_none.mp hfind v (List.mem_mergeSort.mpr hv)
    exact unique_of_narrow ht (by simpa using hnarrow) hp hq
  | some v =>
    have hmem := List.mem_mergeSort.mp (List.mem_of_find?_eq_some hfind)
    have hwide : 1 - Exact.fin t ≤ d.ub v - d.lb v := by simpa using List.find?_some hfind
    obtain ⟨hlb, hub⟩ := hwhole v hmem
    obtain ⟨hroom, hnotInf, hnotNeg⟩ := room_of_wide hlt hlb hub hwide
    obtain ⟨q, hq⟩ := splitGuess_eq v x (d.lb v) (d.ub v)
    obtain ⟨s, hs, hls, hsu⟩ := floor_clamp hlb hroom hnotInf hnotNeg q
    simp only [if_pos hroom, hq, hs]
    refine .inr ⟨_, rfl, rfl, v, hmem, s, hls, hsu, ?_⟩
    rw [Exact.one_def, Exact.fin_add]
    simp

/-- **The two halves of a domain divide its integers, and neither is empty.** -/
theorem SplitsDomain.divides {vars : List VarId} {decision : BranchingDecision (Exact ℚ)}
    (h : SplitsDomain vars d decision) :
    ∃ v ∈ vars, ∃ left right, decision.children.map ChildSpec.changes = [left, right] ∧
      d.Divides v left right ∧ d.Leaves v left ∧ d.Leaves v right := by
  obtain ⟨-, v, hmem, s, hls, hsu, hchildren⟩ := h
  refine ⟨v, hmem, _, _, hchildren, d.divides_at v _ _ _, ?_, ?_⟩
  · obtain ⟨p, hp⟩ := Point.exists_coord v s
    have hub : Exact.fin (p.coord v) ≤ d.ub v := by
      rw [hp]
      exact le_of_le_sub_one hsu
    refine ⟨p, ⟨⟨s, hp⟩, hp ▸ hls, hub⟩, ?_⟩
    rw [meets_singleton, BoundChange.admits_upper, hp]
  · obtain ⟨p, hp⟩ := Point.exists_coord v ((s + 1 : ℤ) : ℚ)
    have hlb : d.lb v ≤ .fin (p.coord v) := by
      rw [hp]
      exact Exact.le_trans' hls ((Exact.fin_le _ _).mpr (Int.cast_le.mpr (Int.le_add_one le_rfl)))
    refine ⟨p, ⟨⟨s + 1, hp⟩, hlb, ?_⟩, ?_⟩
    · rw [hp]
      push_cast
      exact add_one_le hsu
    · rw [meets_singleton, BoundChange.admits_lower, hp]

end Brancher

/-! ## Splitting a set -/

namespace Sos1Family

/-- The split keeps every point of the set, and cuts the given one off in both children. -/
def SplitsSet (d : Domains (Exact ℚ)) (x : Point) (vars : List VarId) (o : ConsBranching (Exact ℚ)) : Prop :=
  ∃ left right, o.children = [left, right] ∧
    (∀ p : Point, d.Contains p → Sos1Constraint.Holds vars p → Meets left p ∨ Meets right p) ∧
    ¬ Meets left x ∧ ¬ Meets right x

theorem meets_zeroAll {part : List VarId} (h : ∀ v ∈ part, p.coord v = 0) : Meets (zeroAll d part) p := by
  intro c hc
  obtain ⟨v, hv, rfl⟩ := List.mem_map.mp hc
  show Exact.fin (p.coord v) ≤ 0
  rw [h v (List.mem_filter.mp hv).1, Exact.zero_def, Exact.fin_le]

theorem not_meets_zeroAll {part : List VarId} (hp : d.Contains p) (hv : v ∈ part) (h : 0 < p.coord v) :
    ¬ Meets (zeroAll d part) p := by
  intro hmeets
  have hub : (0 : Exact ℚ) < d.ub v := Exact.lt_of_lt_of_le' (by rwa [Exact.zero_def, Exact.fin_lt]) (hp v).2
  have hle : Exact.fin (p.coord v) ≤ 0 :=
    hmeets _ (List.mem_map.mpr ⟨v, List.mem_filter.mpr ⟨hv, by simpa using hub⟩, rfl⟩)
  rw [Exact.zero_def, Exact.fin_le] at hle
  linarith

/-- The positions of the members that count as nonzero. -/
def nonzero (x : Array (Exact ℚ)) (vars : List VarId) : List (VarId × Nat) :=
  vars.zipIdx.filter fun (v, _) => decide ((1e-9 : Exact ℚ) < Scalar.abs (x.getD v 0))

/-- A member is above the threshold at which it counts as nonzero. -/
def Above (x : Point) (v : VarId) : Prop := 1e-9 < x.coord v

instance (x : Point) : DecidablePred (Above x) := fun v => inferInstanceAs (Decidable (1e-9 < x.coord v))

theorem length_nonzero {x : Point} {vars : List VarId} (hx : ∀ v ∈ vars, 0 ≤ x.coord v) :
    (nonzero x.vector vars).length = vars.countP fun v => decide (Above x v) := by
  have hfst : vars.countP (fun v => decide ((1e-9 : Exact ℚ) < Scalar.abs (x.vector.getD v 0))) =
      (nonzero x.vector vars).length := by
    conv_lhs => rw [← List.zipIdx_map_fst 0 vars, List.countP_map]
    exact List.countP_eq_length_filter ..
  rw [← hfst]
  refine List.countP_congr fun v hv => ?_
  rw [Array.getD_eq_getD_getElem?, Point.vector_getD, Exact.abs_fin, abs_of_nonneg (hx v hv),
    Exact.scientific_def, decide_eq_true_eq, decide_eq_true_eq]
  exact Exact.fin_lt _ _

theorem mem_nonzero {x : Point} {vars : List VarId} (hx : ∀ v ∈ vars, 0 ≤ x.coord v) {v : VarId} {i : Nat}
    (h : (v, i) ∈ nonzero x.vector vars) : vars[i]? = some v ∧ 0 < x.coord v := by
  obtain ⟨hmem, habs⟩ := List.mem_filter.mp h
  have hget := List.mem_zipIdx_iff_getElem?.mp hmem
  refine ⟨hget, ?_⟩
  rw [decide_eq_true_eq, Array.getD_eq_getD_getElem?, Point.vector_getD, Exact.abs_fin,
    abs_of_nonneg (hx v (List.mem_of_getElem? hget)), Exact.scientific_def, Exact.fin_lt] at habs
  exact lt_trans (by norm_num) habs

omit [Rooted ℚ] in
/-- Of two parts of a set, one is zero at the points of the set. -/
theorem zero_of_holds {left right : List VarId} (h : Sos1Constraint.Holds (left ++ right) p) :
    (∀ v ∈ left, p.coord v = 0) ∨ ∀ v ∈ right, p.coord v = 0 := by
  by_contra hboth
  push Not at hboth
  obtain ⟨⟨v, hv, hvne⟩, w, hw, hwne⟩ := hboth
  rcases (List.pairwise_append.mp h).2.2 v hv w hw with hzero | hzero
  · exact hvne hzero
  · exact hwne hzero

/-- The positions increase. -/
theorem nonzero_sorted (x : Array (Exact ℚ)) (vars : List VarId) :
    (nonzero x vars).Pairwise fun a b => a.2 < b.2 := by
  refine List.Pairwise.filter _ (List.pairwise_iff_getElem.mpr fun i j hi hj hij => ?_)
  rw [List.getElem_zipIdx, List.getElem_zipIdx]
  omega

/-- **A set with two nonzero members is split between them.** -/
theorem split?_spec {x : Point} {vars : List VarId} (hx : d.Contains x) (hnonneg : ∀ v ∈ vars, 0 ≤ d.lb v) :
    (split? d x.vector vars = none ∧ vars.countP (fun v => decide (Above x v)) < 2) ∨
      ∃ o, split? d x.vector vars = some o ∧ SplitsSet d x vars o := by
  have hcoord : ∀ v ∈ vars, 0 ≤ x.coord v := fun v hv =>
    Exact.zero_le_fin.mp (Exact.le_trans' (hnonneg v hv) (hx v).1)
  rw [← length_nonzero hcoord]
  have heq : split? d x.vector vars =
      if (nonzero x.vector vars).length < 2 then none
      else
        let middle := ((nonzero x.vector vars)[(nonzero x.vector vars).length / 2]?.map Prod.snd).getD 0
        some {
          score := Scalar.sum ((nonzero x.vector vars).map fun (v, _) => Scalar.abs (x.vector.getD v 0))
          children := [zeroAll d (vars.take middle), zeroAll d (vars.drop middle)] } := rfl
  rw [heq]
  split
  · next hlt => exact .inl ⟨rfl, hlt⟩
  · next hlen =>
    have hmid : (nonzero x.vector vars).length / 2 < (nonzero x.vector vars).length := by omega
    have hfirst : 0 < (nonzero x.vector vars).length / 2 := by omega
    obtain ⟨⟨v, i⟩, hv⟩ : ∃ a, (nonzero x.vector vars)[0] = a := ⟨_, rfl⟩
    obtain ⟨⟨w, j⟩, hw⟩ : ∃ a, (nonzero x.vector vars)[(nonzero x.vector vars).length / 2] = a := ⟨_, rfl⟩
    have hij : i < j := by
      have hlt := List.pairwise_iff_getElem.mp (nonzero_sorted x.vector vars) _ _ (by omega) hmid hfirst
      rwa [hv, hw] at hlt
    obtain ⟨hgetv, hposv⟩ := mem_nonzero hcoord (hv ▸ List.getElem_mem _)
    obtain ⟨hgetw, hposw⟩ := mem_nonzero hcoord (hw ▸ List.getElem_mem _)
    simp only [List.getElem?_eq_getElem hmid, hw, Option.map_some, Option.getD_some]
    refine .inr ⟨_, rfl, _, _, rfl, fun p _ hholds => ?_, ?_, ?_⟩
    · have hparts : Sos1Constraint.Holds (vars.take j ++ vars.drop j) p := by
        rwa [List.take_append_drop]
      exact (zero_of_holds hparts).imp meets_zeroAll meets_zeroAll
    · have hleft : v ∈ vars.take j :=
        List.mem_of_getElem? ((List.getElem?_take_of_lt hij).trans hgetv)
      exact not_meets_zeroAll hx hleft hposv
    · have hright : w ∈ vars.drop j :=
        List.mem_of_getElem? (List.getElem?_drop.trans (by rwa [Nat.add_zero]) : (vars.drop j)[0]? = some w)
      exact not_meets_zeroAll hx hright hposw

/-- **The splits that the family offers** are sound for their sets, and every set
with two nonzero members has one. -/
theorem branchings_spec {f : Sos1Family} {conss : List Nat} {x : Point} (hx : d.Contains x)
    (hnonneg : ∀ c ∈ conss, ∀ v ∈ f.members c, 0 ≤ d.lb v) :
    (∀ o ∈ f.branchings conss x.vector d, ∃ c ∈ conss, SplitsSet d x (f.members c) o) ∧
      ∀ c ∈ conss, 2 ≤ (f.members c).countP (fun v => decide (Above x v)) →
        ∃ o ∈ f.branchings conss x.vector d, SplitsSet d x (f.members c) o := by
  refine ⟨fun o ho => ?_, fun c hc htwo => ?_⟩
  · obtain ⟨c, hc, hsplit⟩ := List.mem_filterMap.mp ho
    rcases split?_spec hx (hnonneg c hc) with ⟨hnone, -⟩ | ⟨o', ho', hsplits⟩
    · rw [hnone] at hsplit
      cases hsplit
    · obtain rfl : o' = o := Option.some.inj (ho'.symm.trans hsplit)
      exact ⟨c, hc, hsplits⟩
  · rcases split?_spec hx (hnonneg c hc) with ⟨-, hlt⟩ | ⟨o, ho, hsplits⟩
    · omega
    · exact ⟨o, List.mem_filterMap.mpr ⟨c, hc, ho⟩, hsplits⟩

end Sos1Family

/-! ## All three -/

/-- **Every branching covers its parent.** With a tolerance below one half, splitting
at a fractional value and splitting the domain of an integer variable divide the
integers of that domain, the latter without a failure and into two parts that are not
empty. Splitting a set keeps every point with at most one nonzero member, and cuts off
the relaxation solution. -/
theorem Brancher.children_cover {σ : Type} (b : Brancher (Exact ℚ) σ) (hpos : 0 < b.intTol) (hhalf : b.intTol < 0.5)
    (d : Domains (Exact ℚ)) (hwhole : ∀ v, d.isIntegral v = true → Scalar.Whole (d.lb v) ∧ Scalar.Whole (d.ub v)) :
    (∀ nodeBound vars (x : Point) n m, Ensures (b.select nodeBound vars x.vector d n) m
      (fun decision _ => (decision = none → ∀ v ∈ vars, ¬ Fractional b.intTol (x.coord v)) ∧
        ∀ chosen ∈ decision, ∃ v ∈ vars, Fractional b.intTol (x.coord v) ∧ ∃ left right,
          chosen.children.map ChildSpec.changes = [left, right] ∧ d.Divides v left right)
      fun e _ => ∃ rule scores count, b.custom = some rule ∧ e = .plugin rule.name (.scoreCount scores count)) ∧
    (∀ nodeBound vars (x : Option Point), (∀ v ∈ vars, d.isIntegral v = true) →
      ∃ decision, b.halve nodeBound vars (x.map Point.vector) d = .ok decision ∧
        (decision = none → ∀ v ∈ vars, ∀ p q : Point, d.Allows v p → d.Allows v q → p.coord v = q.coord v) ∧
        ∀ chosen ∈ decision, ∃ v ∈ vars, ∃ left right,
          chosen.children.map ChildSpec.changes = [left, right] ∧ d.Divides v left right ∧
            d.Leaves v left ∧ d.Leaves v right) ∧
    ∀ (f : Sos1Family) conss (x : Point), d.Contains x → (∀ c ∈ conss, ∀ v ∈ f.members c, 0 ≤ d.lb v) →
      (∀ o ∈ f.branchings conss x.vector d, ∃ c ∈ conss, Sos1Family.SplitsSet d x (f.members c) o) ∧
        ∀ c ∈ conss, 2 ≤ (f.members c).countP (fun v => decide (Sos1Family.Above x v)) →
          ∃ o ∈ f.branchings conss x.vector d, Sos1Family.SplitsSet d x (f.members c) o := by
  refine ⟨fun nodeBound vars x n m => ?_, fun nodeBound vars x hvars => ?_, fun f conss x => Sos1Family.branchings_spec⟩
  · refine (b.select_spec nodeBound vars x d n m).mono ?_ fun _ _ => id
    rintro decision t (⟨rfl, hnone⟩ | ⟨chosen, rfl, hsplits⟩)
    · exact ⟨fun _ => hnone, nofun⟩
    · refine ⟨nofun, fun chosen' hchosen => ?_⟩
      cases hchosen
      exact hsplits.divides hpos
  · rcases b.halve_spec hpos hhalf nodeBound x fun v hv => hwhole v (hvars v hv) with
      ⟨hnone, hall⟩ | ⟨decision, hsome, hsplits⟩
    · exact ⟨none, hnone, fun _ => hall, nofun⟩
    · refine ⟨some decision, hsome, nofun, fun chosen hchosen => ?_⟩
      cases hchosen
      exact hsplits.divides

end

instance (a : Exact ℚ) : Decidable (Scalar.Whole a) := inferInstanceAs (Decidable (Scalar.floor a = a))

/-- An integer variable from 0 to 3, and one without an upper bound. -/
def Domains.halvable : Domains (Exact ℚ) := .new #[0, 1] #[3, .posInf] #[true, true] 1e-6

theorem Brancher.children_cover_halvable :
    (0 : Exact ℚ) < 1e-6 ∧ (1e-6 : Exact ℚ) < 0.5 ∧
      (∀ v, Domains.halvable.isIntegral v = true →
        Scalar.Whole (Domains.halvable.lb v) ∧ Scalar.Whole (Domains.halvable.ub v)) ∧
      ∃ chosen, (Brancher.new (σ := Unit) .mostFractional 2 1e-6).halve 0 [1] none Domains.halvable = .ok (some chosen) ∧
        ∃ left right, chosen.children.map ChildSpec.changes = [left, right] ∧
          Domains.halvable.Divides 1 left right ∧ Domains.halvable.Leaves 1 left ∧ Domains.halvable.Leaves 1 right := by
  have hpos : (0 : Exact ℚ) < 1e-6 := by decide +kernel
  have hhalf : (1e-6 : Exact ℚ) < 0.5 := by decide +kernel
  have hwhole : ∀ v, Domains.halvable.isIntegral v = true →
      Scalar.Whole (Domains.halvable.lb v) ∧ Scalar.Whole (Domains.halvable.ub v) := by
    intro v hv
    match v, hv with
    | 0, _ => exact ⟨by decide +kernel, by decide +kernel⟩
    | 1, _ => exact ⟨by decide +kernel, by decide +kernel⟩
  obtain ⟨decision, hok, hnone, hsome⟩ :=
    (Brancher.children_cover (Brancher.new (σ := Unit) .mostFractional 2 1e-6) hpos hhalf Domains.halvable hwhole).2.1
      0 [1] none (by decide)
  cases decision with
  | none =>
    have hallows : ∀ z : ℤ, 1 ≤ z → Domains.halvable.Allows 1 #[0, (z : ℚ)] := by
      intro z hz
      refine ⟨⟨z, rfl⟩, ?_, trivial⟩
      show Exact.fin ((1 : ℕ) : ℚ) ≤ Exact.fin (z : ℚ)
      exact_mod_cast (Exact.fin_le _ _).mpr (Int.cast_le (R := ℚ).mpr hz)
    exact absurd (hnone rfl 1 (by decide) _ _ (hallows 1 le_rfl) (hallows 2 (by decide))) (by decide +kernel)
  | some chosen =>
    obtain ⟨v, hv, left, right, hchildren, hdivides, hleft, hright⟩ := hsome chosen rfl
    obtain rfl := List.mem_singleton.mp hv
    exact ⟨hpos, hhalf, hwhole, chosen, hok, left, right, hchildren, hdivides, hleft, hright⟩

end BranchAndCut

/-! ## Branchings that leave values on both sides

A split at a fractional value, or of a domain wider than one, changes one bound of one
variable for each child, and each change leaves out at least one of its values. -/

namespace BranchAndCut

open Domains

variable [Rooted ℚ] {σ : Type} {t : Exact ℚ} {Z : VarId → Prop} {L : Finset VarId} {W : ℚ} {d : Domains (Exact ℚ)}
  {v : VarId}

namespace Domains

/-- There are two children, with one change each, which leaves values on both sides. -/
def Narrows (d : Domains (Exact ℚ)) (L : Finset VarId) (chosen : BranchingDecision (Exact ℚ)) : Prop :=
  chosen.children.length = 2 ∧ ∀ child ∈ chosen.children, ∃ c, child.changes = [c] ∧ d.Cuts L c

/-- A split above an integer that has a neighbour in the domain. -/
theorem cuts_at (hv : v ∈ L) {a b z : ℤ} (ha : d.lb v = .fin a) (hb : d.ub v = .fin b) (hlow : a ≤ z) (hhigh : z + 1 ≤ b) :
    (∀ old, d.Cuts L (.upper v old (.fin z))) ∧ ∀ old, d.Cuts L (.lower v old (.fin ((z + 1 : ℤ) : ℚ))) := by
  refine ⟨fun old => ⟨hv, ⟨z, rfl⟩, ?_⟩, fun old => ⟨hv, ⟨z + 1, rfl⟩, ?_⟩⟩
  · change d.lb v ≤ .fin (z : ℚ) ∧ .fin (z : ℚ) + 1 ≤ d.ub v
    rw [ha, hb, Exact.one_def, Exact.fin_add, Exact.fin_le, Exact.fin_le]
    exact ⟨Int.cast_le.mpr hlow, by exact_mod_cast hhigh⟩
  · change d.lb v + 1 ≤ .fin ((z + 1 : ℤ) : ℚ) ∧ .fin ((z + 1 : ℤ) : ℚ) ≤ d.ub v
    rw [ha, hb, Exact.one_def, Exact.fin_add, Exact.fin_le, Exact.fin_le]
    exact ⟨by exact_mod_cast Int.add_le_add_right hlow 1, Int.cast_le.mpr hhigh⟩

/-- The values of the variables are between their bounds. -/
def Confines (d : Domains (Exact ℚ)) (L : Finset VarId) (x : Array (Exact ℚ)) : Prop :=
  ∀ v ∈ L, d.lb v ≤ x.getD v 0 ∧ x.getD v 0 ≤ d.ub v

end Domains

namespace Brancher

variable {b : Brancher (Exact ℚ) σ} {vars : List VarId} {nodeBound : Exact ℚ} (hd : Sound t Z d) (hroom : d.Roomy L W)
  (hvars : ∀ v ∈ vars, v ∈ L)

include hd hroom hvars

/-- **A split at a fractional value.** -/
theorem narrows_dichotomy (hpos : 0 < b.intTol) {x : Array (Exact ℚ)} (hx : d.Confines L x) {c : Candidate (Exact ℚ)}
    (hc : c ∈ b.candidates vars x) : d.Narrows L (b.dichotomy nodeBound c d) := by
  unfold candidates at hc
  rw [List.mem_mergeSort, List.mem_filterMap] at hc
  obtain ⟨v, hv, hc⟩ := hc
  have hv := hvars v hv
  obtain ⟨a, z, ha, hz, -⟩ := hroom.bounds hd hv
  obtain ⟨hlow, hhigh⟩ := hx v hv
  obtain ⟨_, _, q, -, -, hq, -⟩ := (hroom.small v hv).between hlow hhigh
  rw [hq, ha, Exact.fin_le] at hlow
  rw [hq, hz, Exact.fin_le] at hhigh
  have hfrac : Scalar.frac (Exact.fin q) = .fin (Int.fract q) := by
    unfold Scalar.frac
    rw [Exact.floor_fin, Exact.fin_sub, Int.self_sub_floor]
  unfold candidate? at hc
  simp only [hq, hfrac] at hc
  split at hc
  · next hfractional =>
    cases hc
    have hfract : 0 < Int.fract q := by
      have hlt := Exact.lt_of_lt_of_le' hpos (Exact.le_of_lt (of_decide_eq_true (Bool.and_eq_true_iff.mp hfractional).1))
      rwa [Exact.zero_def, Exact.fin_lt] at hlt
    have hfloor : a ≤ ⌊q⌋ := Int.le_floor.mpr hlow
    have hceil : ⌊q⌋ + 1 ≤ z := by
      rw [← ceil_eq_floor_add_one hfract]
      exact Int.ceil_le.mpr hhigh
    obtain ⟨hdown, hup⟩ := d.cuts_at hv ha hz hfloor hceil
    refine ⟨rfl, fun child hchild => ?_⟩
    simp only [dichotomy, List.mem_cons, List.not_mem_nil, or_false] at hchild
    rcases hchild with rfl | rfl
    · exact ⟨_, rfl, by rw [BoundChange.down, Exact.floor_fin]; exact hdown _⟩
    · exact ⟨_, rfl, by rw [BoundChange.up, Exact.ceil_fin, ceil_eq_floor_add_one hfract]; exact hup _⟩
  · cases hc

omit hd hroom hvars in
/-- The guess where to split is a number. -/
theorem splitGuess_fin {x : Option (Array (Exact ℚ))} {lb ub : ℚ} (hx : ∀ y ∈ x, ∃ q : ℚ, y.getD v 0 = .fin q) :
    ∃ q : ℚ, splitGuess v x (.fin lb) (.fin ub) = .fin q := by
  cases x with
  | some y =>
    obtain ⟨q, hq⟩ := hx y rfl
    exact ⟨q, hq⟩
  | none => exact ⟨2⁻¹ * (lb + ub), by simp [splitGuess, Exact.half_def]⟩

/-- **A split of a domain.** -/
theorem narrows_halve (hpos : 0 < b.intTol) (hhalf : b.intTol < 0.5) {x : Option (Array (Exact ℚ))}
    (hx : ∀ y ∈ x, d.Confines L y) {chosen : BranchingDecision (Exact ℚ)}
    (hchosen : b.halve nodeBound vars x d = .ok (some chosen)) : d.Narrows L chosen := by
  obtain ⟨t, htol, -, hlt⟩ := Exact.exists_fin_of_tolerance hpos hhalf
  unfold halve at hchosen
  simp only [htol] at hchosen
  cases hfind : (vars.mergeSort fun v w => decide (v ≤ w)).find?
      fun v => decide (1 - Exact.fin t ≤ d.ub v - d.lb v) with
  | none =>
    rw [hfind] at hchosen
    cases hchosen
  | some v =>
    rw [hfind] at hchosen
    have hv := hvars v (List.mem_mergeSort.mp (List.mem_of_find?_eq_some hfind))
    have hwide : 1 - Exact.fin t ≤ d.ub v - d.lb v := by simpa using List.find?_some hfind
    obtain ⟨a, z, ha, hz, -⟩ := hroom.bounds hd hv
    have hlb : Scalar.Whole (d.lb v) := ha ▸ Exact.whole_intCast a
    obtain ⟨hle, hnotInf, hnotNeg⟩ := room_of_wide hlt hlb (hz ▸ Exact.whole_intCast z) hwide
    have hguess : ∀ y ∈ x, ∃ q : ℚ, y.getD v 0 = .fin q := fun y hy => by
      obtain ⟨hlow, hhigh⟩ := hx y hy v hv
      obtain ⟨_, _, q, -, -, hq, -⟩ := (hroom.small v hv).between hlow hhigh
      exact ⟨q, hq⟩
    obtain ⟨q, hq⟩ : ∃ q : ℚ, splitGuess v x (.fin (a : ℚ)) (.fin (z : ℚ)) = .fin q := splitGuess_fin hguess
    obtain ⟨s, hs, hls, hsu⟩ := floor_clamp hlb hle hnotInf hnotNeg q
    rw [← ha, ← hz] at hq
    simp only [if_pos hle, hq, hs] at hchosen
    cases hchosen
    have hhigh := add_one_le hsu
    rw [ha, Exact.fin_le, Int.cast_le] at hls
    rw [hz, Exact.fin_le] at hhigh
    obtain ⟨hdown, hup⟩ := d.cuts_at hv ha hz hls (by exact_mod_cast hhigh)
    refine ⟨rfl, fun child hchild => ?_⟩
    simp only [List.mem_cons, List.not_mem_nil, or_false] at hchild
    rcases hchild with rfl | rfl
    · exact ⟨_, rfl, hdown _⟩
    · refine ⟨_, rfl, ?_⟩
      rw [Exact.one_def, Exact.fin_add, ← Int.cast_one, ← Int.cast_add]
      exact hup _

end Brancher

end BranchAndCut
