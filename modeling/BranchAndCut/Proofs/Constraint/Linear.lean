import BranchAndCut.Constraint.Linear
import BranchAndCut.Proofs.Domain.Closure

/-! # Propagation of linear rows

The activity of a row is computed once, before its first term is propagated.
Later terms are taken out of it with the bounds of that moment, which may have
moved inwards in between. A residual is then at most too small, never too large:
it stays a lower estimate of what the other terms contribute. -/

namespace BranchAndCut

/-- Sums of estimates without one of them. The terms that are not estimated count
as zero; either there are none, or the one left out is the only one. -/
theorem sum_sub_le_sum_sub {α : Type} {l : List α} {b t : α → ℚ} {inf : α → Bool}
    (hb : ∀ i ∈ l, inf i = false → b i ≤ t i) {j : α} (hj : j ∈ l)
    (hcount : l.countP inf = (inf j).toNat) :
    (l.map b).sum - b j ≤ (l.map t).sum - t j := by
  have hall : ∀ l' : List α, (∀ i ∈ l', inf i = false → b i ≤ t i) → l'.countP inf = 0 →
      (l'.map b).sum ≤ (l'.map t).sum := fun l' hb' hzero =>
    List.sum_le_sum fun i hi => hb' i hi (by simpa using List.countP_eq_zero.mp hzero i hi)
  induction l with
  | nil => cases hj
  | cons a l ih =>
    have hrest : ∀ i ∈ l, inf i = false → b i ≤ t i := fun i hi => hb i (by simp [hi])
    rw [List.countP_cons] at hcount
    simp only [List.map_cons, List.sum_cons]
    rcases List.mem_cons.mp hj with rfl | hmem
    · have hzero : l.countP inf = 0 := by cases hinf : inf j <;> simp_all
      linarith [hall l hrest hzero]
    · have ha : inf a = false := by
        by_contra hne
        rw [Bool.not_eq_false] at hne
        have hpos : (inf j).toNat ≤ l.countP inf := by
          cases hinf : inf j with
          | false => simp
          | true => exact List.countP_pos_iff.mpr ⟨j, hmem, hinf⟩
        simp only [hne, if_true] at hcount
        omega
      simp only [ha, Bool.false_eq_true, if_false, add_zero] at hcount
      linarith [ih hrest hmem hcount, hb a (by simp) ha]

namespace LinearFamily

variable [Rooted ℚ] {g : ImplicationGraph (Exact ℚ)} {P : Set Point} {p : Point}
  {row : Row (Exact ℚ)}

/-! ## The activity -/

theorem addRange_eq (m n : ℚ) (a b : Nat) (range : Exact ℚ × Exact ℚ) :
    addRange { min := .fin m, minInf := a, max := .fin n, maxInf := b } range =
      { min := .fin (m + range.1.toField), minInf := a + (!Scalar.isFinite range.1).toNat
        max := .fin (n + range.2.toField), maxInf := b + (!Scalar.isFinite range.2).toNat } := by
  obtain ⟨x, y⟩ := range
  cases x <;> cases y <;> simp [addRange, Exact.toField]

theorem foldl_addRange (d : Deduction (Exact ℚ)) (coefs : List (VarId × Exact ℚ)) (m n : ℚ)
    (a b : Nat) :
    coefs.foldl (fun act (v, c) => addRange act (termRange d v c))
        { min := .fin m, minInf := a, max := .fin n, maxInf := b } =
      { min := .fin (m + (coefs.map fun c => (termRange d c.1 c.2).1.toField).sum)
        minInf := a + coefs.countP fun c => !Scalar.isFinite (termRange d c.1 c.2).1
        max := .fin (n + (coefs.map fun c => (termRange d c.1 c.2).2.toField).sum)
        maxInf := b + coefs.countP fun c => !Scalar.isFinite (termRange d c.1 c.2).2 } := by
  induction coefs generalizing m n a b with
  | nil => simp
  | cons c coefs ih =>
    obtain ⟨v, a'⟩ := c
    rw [List.foldl_cons]
    dsimp only
    rw [addRange_eq, ih]
    simp only [List.map_cons, List.sum_cons, List.countP_cons, Activity.mk.injEq, Exact.fin.injEq]
    refine ⟨by ring, ?_, by ring, ?_⟩
    · cases Scalar.isFinite (termRange d v a').1 <;> simp [Nat.add_assoc, Nat.add_comm]
    · cases Scalar.isFinite (termRange d v a').2 <;> simp [Nat.add_assoc, Nat.add_comm]

/-- The activity adds the finite estimates and counts the infinite ones. -/
theorem activity_eq (row : Row (Exact ℚ)) (d : Deduction (Exact ℚ)) :
    activity row d =
      { min := .fin (row.coefs.map fun c => (termRange d c.1 c.2).1.toField).sum
        minInf := row.coefs.countP fun c => !Scalar.isFinite (termRange d c.1 c.2).1
        max := .fin (row.coefs.map fun c => (termRange d c.1 c.2).2.toField).sum
        maxInf := row.coefs.countP fun c => !Scalar.isFinite (termRange d c.1 c.2).2 } := by
  unfold activity
  rw [Exact.zero_def, foldl_addRange]
  simp only [zero_add]

theorem termRange_pos {d : Deduction (Exact ℚ)} {v : VarId} {a : ℚ} (ha : 0 < a) :
    termRange d v (.fin a) = (.fin a * d.lb v, .fin a * d.ub v) :=
  if_pos (Exact.zero_def (F := ℚ) ▸ ha)

theorem termRange_neg {d : Deduction (Exact ℚ)} {v : VarId} {a : ℚ} (ha : a < 0) :
    termRange d v (.fin a) = (.fin a * d.ub v, .fin a * d.lb v) :=
  if_neg (Exact.zero_def (F := ℚ) ▸ not_lt.mpr ha.le)

theorem termRange_within {d : Deduction (Exact ℚ)} (hp : d.domains.Encloses p) {v : VarId} {a : ℚ}
    (ha : a ≠ 0) : (termRange d v (.fin a)).1 ≤ .fin (a * p.coord v) ∧
      .fin (a * p.coord v) ≤ (termRange d v (.fin a)).2 := by
  rcases lt_or_gt_of_ne ha with hneg | hpos
  · rw [termRange_neg hneg]
    exact ⟨Exact.mul_le_mul_fin_of_neg hneg (hp.upper v),
      Exact.mul_le_mul_fin_of_neg hneg (hp.lower v)⟩
  · rw [termRange_pos hpos]
    exact ⟨Exact.mul_le_mul_fin hpos (hp.lower v), Exact.mul_le_mul_fin hpos (hp.upper v)⟩

/-- Ranges of terms shrink while bounds move inwards. -/
theorem termRange_mono {d e : Deduction (Exact ℚ)} {v : VarId} {a : ℚ} (ha : a ≠ 0)
    (h : ∀ k : BoundKind, k.Inward (d.domains.bound v k) (e.domains.bound v k)) :
    (termRange d v (.fin a)).1 ≤ (termRange e v (.fin a)).1 ∧
      (termRange e v (.fin a)).2 ≤ (termRange d v (.fin a)).2 := by
  rcases lt_or_gt_of_ne ha with hneg | hpos
  · rw [termRange_neg hneg, termRange_neg hneg]
    exact ⟨Exact.mul_le_mul_fin_of_neg hneg (h .upper),
      Exact.mul_le_mul_fin_of_neg hneg (h .lower)⟩
  · rw [termRange_pos hpos, termRange_pos hpos]
    exact ⟨Exact.mul_le_mul_fin hpos (h .lower), Exact.mul_le_mul_fin hpos (h .upper)⟩

/-! ## Residuals -/

section Residual

variable {l : List (VarId × Exact ℚ)} {est : VarId × Exact ℚ → Exact ℚ}
  {t : VarId × Exact ℚ → ℚ} {c : VarId × Exact ℚ} {now res : Exact ℚ}

theorem residual_eq (hc : c ∈ l) (hnow : Scalar.isFinite now = true ∨ now = est c)
    (hres : residual? (.fin (l.map fun c => (est c).toField).sum)
      (l.countP fun c => !Scalar.isFinite (est c)) now = some res) :
    l.countP (fun c => !Scalar.isFinite (est c)) = (!Scalar.isFinite (est c)).toNat ∧
      Scalar.isFinite (est c) = Scalar.isFinite now ∧
      res = .fin ((l.map fun c => (est c).toField).sum - now.toField) := by
  unfold residual? at hres
  split_ifs at hres with hfin hzero hone
  · obtain ⟨a, rfl⟩ := Exact.isFinite_iff.mp hfin
    have hest : Scalar.isFinite (est c) = true := by
      simpa using List.countP_eq_zero.mp hzero c hc
    rw [hzero, hest]
    exact ⟨rfl, rfl, (Option.some.inj hres).symm.trans (Exact.fin_sub _ _)⟩
  · obtain rfl := hnow.resolve_left hfin
    have hzero : (est c).toField = 0 := by
      cases h : est c <;> simp_all [Exact.toField]
    rw [hone, hzero, sub_zero]
    exact ⟨by simp [hfin], rfl, (Option.some.inj hres).symm⟩

/-- The least activity without a term, whose bounds may have moved since, is at
most what the other terms come to. -/
theorem residual_min (hest : ∀ c ∈ l, est c ≤ .fin (t c)) (hc : c ∈ l) (hmoved : est c ≤ now)
    (hterm : now ≤ .fin (t c))
    (hres : residual? (.fin (l.map fun c => (est c).toField).sum)
      (l.countP fun c => !Scalar.isFinite (est c)) now = some res) :
    ∃ r, res = .fin r ∧ r ≤ (l.map t).sum - t c := by
  have hb : ∀ c ∈ l, (!Scalar.isFinite (est c)) = false → (est c).toField ≤ t c := by
    intro c hc hfin
    obtain ⟨a, ha⟩ := Exact.isFinite_iff.mp (by simpa using hfin)
    have := hest c hc
    rw [ha] at this ⊢
    exact this
  have hnow : Scalar.isFinite now = true ∨ now = est c := by
    cases now <;> cases h : est c <;> rw [h] at hmoved <;>
      first | exact .inl rfl | exact .inr rfl | exact hmoved.elim | exact hterm.elim
  obtain ⟨hcount, hsame, rfl⟩ := residual_eq hc hnow hres
  have hstep : (est c).toField ≤ now.toField := by
    cases now <;> cases h : est c <;> rw [h] at hmoved hsame <;>
      first | exact hmoved | exact hmoved.elim | exact le_refl _ | cases hsame
  exact ⟨_, rfl, by linarith [sum_sub_le_sum_sub hb hc hcount]⟩

/-- The greatest activity without a term is at least what the other terms come to. -/
theorem residual_max (hest : ∀ c ∈ l, .fin (t c) ≤ est c) (hc : c ∈ l) (hmoved : now ≤ est c)
    (hterm : .fin (t c) ≤ now)
    (hres : residual? (.fin (l.map fun c => (est c).toField).sum)
      (l.countP fun c => !Scalar.isFinite (est c)) now = some res) :
    ∃ r, res = .fin r ∧ (l.map t).sum - t c ≤ r := by
  have hb : ∀ c ∈ l, (!Scalar.isFinite (est c)) = false → -(est c).toField ≤ -t c := by
    intro c hc hfin
    obtain ⟨a, ha⟩ := Exact.isFinite_iff.mp (by simpa using hfin)
    have := hest c hc
    rw [ha] at this ⊢
    exact neg_le_neg this
  have hnow : Scalar.isFinite now = true ∨ now = est c := by
    cases now <;> cases h : est c <;> rw [h] at hmoved <;>
      first | exact .inl rfl | exact .inr rfl | exact hmoved.elim | exact hterm.elim
  obtain ⟨hcount, hsame, rfl⟩ := residual_eq hc hnow hres
  have hstep : now.toField ≤ (est c).toField := by
    cases now <;> cases h : est c <;> rw [h] at hmoved hsame <;>
      first | exact hmoved | exact hmoved.elim | exact le_refl _ | cases hsame
  have hneg : ∀ f : VarId × Exact ℚ → ℚ, (l.map fun c => -f c).sum = -(l.map f).sum := by
    intro f
    rw [List.sum_neg, List.map_map]
    rfl
  have hsum := sum_sub_le_sum_sub hb hc hcount
  rw [hneg, hneg] at hsum
  exact ⟨_, rfl, by linarith⟩

end Residual

/-! ## One term -/

variable {d e : Deduction (Exact ℚ)} {reason : Reason} {v : VarId} {a : ℚ}

theorem tightenUpper_follows (hP : Deduction.Candidates g P d.domains) {bound : Exact ℚ}
    (hbound : ∀ p ∈ P, BoundKind.upper.Admits bound (p.coord v)) :
    Deduction.Follows P d (tightenUpper g reason d v bound).2 ∧
      ((tightenUpper g reason d v bound).1 = .infeasible → P = ∅) := by
  unfold tightenUpper
  split
  · exact ⟨.refl d, nofun⟩
  · exact Deduction.tighten_follows hP reason hbound

theorem tightenLower_follows (hP : Deduction.Candidates g P d.domains) {bound : Exact ℚ}
    (hbound : ∀ p ∈ P, BoundKind.lower.Admits bound (p.coord v)) :
    Deduction.Follows P d (tightenLower g reason d v bound).2 ∧
      ((tightenLower g reason d v bound).1 = .infeasible → P = ∅) := by
  unfold tightenLower
  split
  · exact ⟨.refl d, nofun⟩
  · exact Deduction.tighten_follows hP reason hbound

/-- The situation in which a term is propagated: the activity was computed for an
earlier store, and everything since then follows. -/
structure Midway (g : ImplicationGraph (Exact ℚ)) (P : Set Point) (row : Row (Exact ℚ))
    (start now : Deduction (Exact ℚ)) : Prop where
  proper : row.Proper
  holds : ∀ p ∈ P, row.Holds p
  candidates : Deduction.Candidates g P start.domains
  follows : Deduction.Follows P start now

theorem Midway.now (h : Midway g P row d e) : Deduction.Candidates g P e.domains :=
  h.candidates.tightens h.follows.domains

theorem Midway.next {f : Deduction (Exact ℚ)} (h : Midway g P row d e)
    (hstep : Deduction.Follows P e f) : Midway g P row d f :=
  { h with follows := h.follows.trans hstep }

/-- The activity at a candidate, as a rational. -/
theorem Midway.sides (h : Midway g P row d e) (hp : p ∈ P) :
    row.lhs ≤ .fin (row.coefs.map (Row.termAt p)).sum ∧
      .fin (row.coefs.map (Row.termAt p)).sum ≤ row.rhs := by
  rw [← Row.activity_eq h.proper.finite]
  exact h.holds p hp

theorem Midway.nonzero (h : Midway g P row d e) (hc : (v, .fin a) ∈ row.coefs) : a ≠ 0 := by
  obtain ⟨b, hb, heq⟩ := h.proper _ hc
  rwa [Exact.fin.inj heq]

theorem Midway.term_within (h : Midway g P row d e) (hp : p ∈ P) :
    ∀ c ∈ row.coefs, (termRange d c.1 c.2).1 ≤ .fin (Row.termAt p c) ∧
      .fin (Row.termAt p c) ≤ (termRange d c.1 c.2).2 := by
  intro ⟨v, x⟩ hc
  obtain ⟨b, hb, rfl⟩ := h.proper _ hc
  exact termRange_within (h.candidates.encloses p hp) hb

theorem Midway.moved (h : Midway g P row d e) (hp : p ∈ P) (hc : (v, .fin a) ∈ row.coefs) :
    (termRange d v (.fin a)).1 ≤ (termRange e v (.fin a)).1 ∧
      (termRange e v (.fin a)).2 ≤ (termRange d v (.fin a)).2 :=
  termRange_mono (h.nonzero hc) fun k =>
    h.follows.domains.inward h.candidates.tol hp (h.candidates.encloses p hp) v k

theorem Midway.residual_rhs (h : Midway g P row d e) (hp : p ∈ P) (hc : (v, .fin a) ∈ row.coefs)
    {res : Exact ℚ}
    (hres : residual? (activity row d).min (activity row d).minInf (termRange e v (.fin a)).1 =
      some res) :
    ∃ r, res = .fin r ∧ r ≤ (row.coefs.map (Row.termAt p)).sum - a * p.coord v := by
  rw [activity_eq] at hres
  exact residual_min (fun c hc => (h.term_within hp c hc).1)
    hc (h.moved hp hc).1 (termRange_within (h.now.encloses p hp) (h.nonzero hc)).1 hres

theorem Midway.residual_lhs (h : Midway g P row d e) (hp : p ∈ P) (hc : (v, .fin a) ∈ row.coefs)
    {res : Exact ℚ}
    (hres : residual? (activity row d).max (activity row d).maxInf (termRange e v (.fin a)).2 =
      some res) :
    ∃ r, res = .fin r ∧ (row.coefs.map (Row.termAt p)).sum - a * p.coord v ≤ r := by
  rw [activity_eq] at hres
  exact residual_max (fun c hc => (h.term_within hp c hc).2)
    hc (h.moved hp hc).2 (termRange_within (h.now.encloses p hp) (h.nonzero hc)).2 hres

/-- A quotient that bounds a term bounds its variable, on the side of the sign. -/
theorem follows_of_le (hP : Deduction.Candidates g P e.domains) (ha : a ≠ 0) {bound : Exact ℚ}
    (hbound : ∀ p ∈ P, ∃ b, bound = .fin (b / a) ∧ a * p.coord v ≤ b) :
    let out := if (0 : Exact ℚ) < .fin a then tightenUpper g reason e v bound
      else tightenLower g reason e v bound
    Deduction.Follows P e out.2 ∧ (out.1 = .infeasible → P = ∅) := by
  intro out
  rcases lt_or_gt_of_ne ha with hneg | hpos
  · have hout : out = tightenLower g reason e v bound :=
      if_neg (Exact.zero_def (F := ℚ) ▸ not_lt.mpr hneg.le)
    rw [hout]
    refine tightenLower_follows hP fun p hp => ?_
    obtain ⟨b, rfl, hb⟩ := hbound p hp
    exact (div_le_iff_of_neg' hneg).mpr hb
  · have hout : out = tightenUpper g reason e v bound := if_pos (Exact.zero_def (F := ℚ) ▸ hpos)
    rw [hout]
    refine tightenUpper_follows hP fun p hp => ?_
    obtain ⟨b, rfl, hb⟩ := hbound p hp
    exact (le_div_iff₀' hpos).mpr hb

theorem follows_of_ge (hP : Deduction.Candidates g P e.domains) (ha : a ≠ 0) {bound : Exact ℚ}
    (hbound : ∀ p ∈ P, ∃ b, bound = .fin (b / a) ∧ b ≤ a * p.coord v) :
    let out := if (0 : Exact ℚ) < .fin a then tightenLower g reason e v bound
      else tightenUpper g reason e v bound
    Deduction.Follows P e out.2 ∧ (out.1 = .infeasible → P = ∅) := by
  intro out
  rcases lt_or_gt_of_ne ha with hneg | hpos
  · have hout : out = tightenUpper g reason e v bound :=
      if_neg (Exact.zero_def (F := ℚ) ▸ not_lt.mpr hneg.le)
    rw [hout]
    refine tightenUpper_follows hP fun p hp => ?_
    obtain ⟨b, rfl, hb⟩ := hbound p hp
    exact (le_div_iff_of_neg' hneg).mpr hb
  · have hout : out = tightenLower g reason e v bound := if_pos (Exact.zero_def (F := ℚ) ▸ hpos)
    rw [hout]
    refine tightenLower_follows hP fun p hp => ?_
    obtain ⟨b, rfl, hb⟩ := hbound p hp
    exact (div_le_iff₀' hpos).mpr hb

variable (reason) in
theorem propagateRhs_follows (h : Midway g P row d e) (hc : (v, .fin a) ∈ row.coefs) :
    let out := propagateRhs g reason row (activity row d) e v (.fin a) (termRange e v (.fin a)).1
    Deduction.Follows P e out.2 ∧ (out.1 = .infeasible → P = ∅) := by
  have ha := h.nonzero hc
  unfold propagateRhs
  split
  · next hfin =>
    obtain ⟨R, hR⟩ := Exact.isFinite_iff.mp hfin
    split
    · next res hres =>
      refine follows_of_le h.now ha fun p hp => ?_
      obtain ⟨r, rfl, hr⟩ := h.residual_rhs hp hc hres
      have hside := (h.sides hp).2
      rw [hR, Exact.fin_le] at hside
      exact ⟨R - r, by rw [hR, Exact.fin_sub, Exact.fin_div ha], by linarith⟩
    · exact ⟨.refl e, nofun⟩
  · exact ⟨.refl e, nofun⟩

variable (reason) in
/-- The range of the term is that before the right-hand side was used. -/
theorem propagateLhs_follows {f : Deduction (Exact ℚ)} (h : Midway g P row d e)
    (hstep : Deduction.Follows P e f) (hc : (v, .fin a) ∈ row.coefs) :
    let out := propagateLhs g reason row (activity row d) f v (.fin a) (termRange e v (.fin a)).2
    Deduction.Follows P f out.2 ∧ (out.1 = .infeasible → P = ∅) := by
  have ha := h.nonzero hc
  unfold propagateLhs
  split
  · next hfin =>
    obtain ⟨L, hL⟩ := Exact.isFinite_iff.mp hfin
    split
    · next res hres =>
      refine follows_of_ge (h.next hstep).now ha fun p hp => ?_
      obtain ⟨r, rfl, hr⟩ := h.residual_lhs hp hc hres
      have hside := (h.sides hp).1
      rw [hL, Exact.fin_le] at hside
      exact ⟨L - r, by rw [hL, Exact.fin_sub, Exact.fin_div ha], by linarith⟩
    · exact ⟨.refl f, nofun⟩
  · exact ⟨.refl f, nofun⟩

/-! ## Whole rows -/

theorem propagateTerms_follows (h : Midway g P row d e) {rest : List (VarId × Exact ℚ)}
    (hrest : ∀ c ∈ rest, c ∈ row.coefs) :
    Deduction.Follows P e (propagateTerms g reason row (activity row d) e rest).2 ∧
      ((propagateTerms g reason row (activity row d) e rest).1 = false → P = ∅) := by
  induction rest generalizing e with
  | nil => exact ⟨.refl e, nofun⟩
  | cons c rest ih =>
    obtain ⟨v, x⟩ := c
    have hc : (v, x) ∈ row.coefs := hrest (v, x) (by simp)
    obtain ⟨a, -, rfl⟩ := h.proper _ hc
    obtain ⟨hrhs, hrhsEmpty⟩ := propagateRhs_follows reason h hc
    unfold propagateTerms
    dsimp only
    cases hr : propagateRhs g reason row (activity row d) e v (.fin a)
        (termRange e v (.fin a)).1 with
    | mk outcome f =>
      rw [hr] at hrhs hrhsEmpty
      obtain ⟨hlhs, hlhsEmpty⟩ := propagateLhs_follows reason h hrhs hc
      cases outcome with
      | infeasible => exact ⟨hrhs, fun _ => hrhsEmpty rfl⟩
      | _ =>
        dsimp only at hlhs hlhsEmpty ⊢
        cases hl : propagateLhs g reason row (activity row d) f v (.fin a)
            (termRange e v (.fin a)).2 with
        | mk outcome' f' =>
          rw [hl] at hlhs hlhsEmpty
          have hboth := hrhs.trans hlhs
          cases outcome' with
          | infeasible => exact ⟨hboth, fun _ => hlhsEmpty rfl⟩
          | _ =>
            obtain ⟨hfollows, hempty⟩ := ih (h.next hboth) fun c hc => hrest c (by simp [hc])
            exact ⟨hboth.trans hfollows, hempty⟩

theorem sideTol_nonneg {side : Exact ℚ} (h : side ≠ .nan) {t : ℚ} (ht : 0 < t) :
    0 ≤ sideTol (.fin t) side := by
  have habs : (0 : Exact ℚ) ≤ Scalar.abs side := by
    rw [Exact.zero_def]
    cases side with
    | nan => exact (h rfl).elim
    | fin a => exact abs_nonneg a
    | negInf => trivial
    | posInf => trivial
  have hmul := Exact.mul_le_mul_fin ht (Exact.le_max_of_le (y := 1) habs)
  rwa [Exact.zero_def, Exact.fin_mul, mul_zero, ← Exact.zero_def] at hmul

/-- Without infinite terms the activity encloses that of every candidate. -/
theorem Midway.min_le (h : Midway g P row d e) (hp : p ∈ P) (hzero : (activity row d).minInf = 0) :
    (activity row d).min ≤ .fin (row.coefs.map (Row.termAt p)).sum := by
  rw [activity_eq] at hzero ⊢
  refine (Exact.fin_le _ _).mpr (List.sum_le_sum fun c hc => ?_)
  have hfin := List.countP_eq_zero.mp hzero c hc
  obtain ⟨a, ha⟩ := Exact.isFinite_iff.mp (by simpa using hfin)
  have := (h.term_within hp c hc).1
  rw [ha] at this ⊢
  exact this

theorem Midway.le_max (h : Midway g P row d e) (hp : p ∈ P) (hzero : (activity row d).maxInf = 0) :
    .fin (row.coefs.map (Row.termAt p)).sum ≤ (activity row d).max := by
  rw [activity_eq] at hzero ⊢
  refine (Exact.fin_le _ _).mpr (List.sum_le_sum fun c hc => ?_)
  have hfin := List.countP_eq_zero.mp hzero c hc
  obtain ⟨a, ha⟩ := Exact.isFinite_iff.mp (by simpa using hfin)
  have := (h.term_within hp c hc).2
  rw [ha] at this ⊢
  exact this

/-- **Propagating a row loses no point that satisfies it.** -/
theorem propagateRow_follows (hP : Deduction.Candidates g P d.domains) (hproper : row.Proper)
    (hholds : ∀ p ∈ P, row.Holds p) (reason : Reason) :
    Deduction.Follows P d (propagateRow g reason row d).2 ∧
      ((propagateRow g reason row d).1 = false → P = ∅) := by
  have h : Midway g P row d d := ⟨hproper, hholds, hP, .refl d⟩
  have htol : (0 : ℚ) < 1e-9 := by norm_num
  unfold propagateRow
  dsimp only
  split
  · next hmin =>
    refine ⟨.refl d, fun _ => Set.eq_empty_iff_forall_notMem.mpr fun p hp => ?_⟩
    rw [Bool.and_eq_true, decide_eq_true_eq, decide_eq_true_eq] at hmin
    have hside := (h.sides hp).2
    refine Exact.not_lt_of_le (Exact.le_trans' (h.min_le hp hmin.1) ?_) hmin.2
    exact Exact.fin_le_add (sideTol_nonneg (Exact.ne_nan_of_le hside).2 htol) hside
  · split
    · next hmax =>
      refine ⟨.refl d, fun _ => Set.eq_empty_iff_forall_notMem.mpr fun p hp => ?_⟩
      rw [Bool.and_eq_true, decide_eq_true_eq, decide_eq_true_eq] at hmax
      have hside := (h.sides hp).1
      refine Exact.not_lt_of_le (Exact.le_trans' ?_ (h.le_max hp hmax.1)) hmax.2
      exact Exact.sub_le_fin (sideTol_nonneg (Exact.ne_nan_of_le hside).1 htol) hside
    · exact propagateTerms_follows h fun c hc => hc

/-! ## The family -/

/-- All rows of the family are proper. -/
def Proper (f : LinearFamily (Exact ℚ)) : Prop := ∀ cons ∈ f.conss, cons.row.Proper

/-- A point satisfies a constraint that is neither deleted nor open to new columns. -/
def Holds (f : LinearFamily (Exact ℚ)) (c : Nat) (p : Point) : Prop :=
  ∀ cons, f.conss[c]? = some cons → cons.deleted = false → cons.modifiable = false →
    cons.row.Holds p

theorem propagateAll_follows {f : LinearFamily (Exact ℚ)} (hproper : f.Proper)
    (hP : Deduction.Candidates g P d.domains) (reason : Reason) {conss : List Nat}
    (hholds : ∀ c ∈ conss, ∀ p ∈ P, f.Holds c p) :
    Deduction.Follows P d (f.propagateAll g reason d conss).2 ∧
      ((f.propagateAll g reason d conss).1 = false → P = ∅) := by
  induction conss generalizing d with
  | nil => exact ⟨.refl d, nofun⟩
  | cons c rest ih =>
    have hrest : ∀ c ∈ rest, ∀ p ∈ P, f.Holds c p := fun c hc => hholds c (by simp [hc])
    unfold propagateAll
    cases hc : f.conss[c]? with
    | none => exact ih hP hrest
    | some cons =>
      dsimp only
      split
      · exact ih hP hrest
      · next hactive =>
        simp only [Bool.or_eq_true, not_or, Bool.not_eq_true] at hactive
        obtain ⟨hfollows, hempty⟩ := propagateRow_follows hP
          (hproper cons (Array.mem_of_getElem? hc))
          (fun p hp => hholds c (by simp) p hp cons hc hactive.1 hactive.2) reason
        cases hr : propagateRow g reason cons.row d with
        | mk feasible e =>
          rw [hr] at hfollows hempty
          cases feasible with
          | false => exact ⟨hfollows, hempty⟩
          | true =>
            obtain ⟨hfollows', hempty'⟩ := ih (hP.tightens hfollows.domains) hrest
            exact ⟨hfollows.trans hfollows', hempty'⟩

theorem propagate_follows {f : LinearFamily (Exact ℚ)} (hproper : f.Proper)
    (hP : Deduction.Candidates g P d.domains) (reason : Reason) {conss : List Nat}
    (hholds : ∀ c ∈ conss, ∀ p ∈ P, f.Holds c p) :
    Deduction.Follows P d (f.propagate g reason d conss).2 ∧
      ((f.propagate g reason d conss).1 = .cutoff → P = ∅) := by
  obtain ⟨hfollows, hempty⟩ := propagateAll_follows hproper hP reason hholds
  unfold propagate
  cases hr : f.propagateAll g reason d conss with
  | mk feasible e =>
    rw [hr] at hfollows hempty
    cases feasible with
    | false => exact ⟨hfollows, fun _ => hempty rfl⟩
    | true => exact ⟨hfollows, fun h => (Deduction.verdict_ne_cutoff d e h).elim⟩

end LinearFamily

end BranchAndCut
