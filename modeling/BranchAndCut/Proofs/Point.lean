import BranchAndCut.Proofs.Exact
import BranchAndCut.Domain.Bound

/-! # Points

A point gives every variable a rational value. Rows and bounds are judged at a
point by the arithmetic of the solver itself; for points this arithmetic is that
of the rationals, since nothing infinite enters it. -/

namespace BranchAndCut

/-- The values of the variables; variables past the end have the value zero. -/
abbrev Point := Array ℚ

namespace Point

def coord (p : Point) (v : VarId) : ℚ := p.getD v 0

theorem coord_of_size_le {p : Point} {v : VarId} (h : p.size ≤ v) : p.coord v = 0 := by
  simp [coord, Nat.not_lt.mpr h]

/-- The point as the solver sees it. -/
def vector (p : Point) : Array (Exact ℚ) := p.map Exact.fin

/-- Whether the value of a variable is an integer. -/
def IsInt (p : Point) (v : VarId) : Prop := ∃ z : ℤ, p.coord v = z

variable [Rooted ℚ]

@[simp] theorem vector_getD (p : Point) (v : VarId) :
    p.vector[v]?.getD 0 = .fin (p.coord v) := by
  unfold vector coord
  by_cases h : v < p.size
  · simp [h]
  · simp [h, Exact.zero_def]

end Point

/-! ## Bounds -/

variable [Rooted ℚ]

/-- Whether a value lies on the inner side of a bound. -/
def BoundKind.Admits (kind : BoundKind) (bound : Exact ℚ) (q : ℚ) : Prop :=
  match kind with
  | .lower => bound ≤ .fin q
  | .upper => .fin q ≤ bound

/-- Whether a bound is at least as tight as another. -/
def BoundKind.Inward (kind : BoundKind) (old new : Exact ℚ) : Prop :=
  match kind with
  | .lower => old ≤ new
  | .upper => new ≤ old

theorem BoundKind.Inward.refl {kind : BoundKind} {a : Exact ℚ} (ha : a ≠ .nan) : kind.Inward a a := by
  cases kind <;> exact Exact.le_refl' ha

theorem BoundKind.Inward.trans {kind : BoundKind} {a b c : Exact ℚ} (hab : kind.Inward a b)
    (hbc : kind.Inward b c) : kind.Inward a c := by
  cases kind with
  | lower => exact Exact.le_trans' hab hbc
  | upper => exact Exact.le_trans' hbc hab

/-- Whether a point satisfies a bound change. -/
def BoundChange.Admits (c : BoundChange (Exact ℚ)) (p : Point) : Prop :=
  c.kind.Admits c.new (p.coord c.var)

/-! ## Rows -/

section Sums

omit [Rooted ℚ]

variable {F : Type} [Field F] [LinearOrder F] [FloorRing F] [Rooted F]

theorem sum_fin (l : List F) : Scalar.sum (l.map Exact.fin) = .fin l.sum := by
  have hfold : ∀ a : F, (l.map Exact.fin).foldl (· + ·) (.fin a) = .fin (a + l.sum) := by
    induction l with
    | nil => simp
    | cons b l ih =>
      intro a
      simp only [List.map_cons, List.foldl_cons, List.sum_cons, Exact.fin_add]
      rw [ih, add_assoc]
  have hzero : -(0 : Exact F) = .fin 0 := by rw [Exact.zero_def, Exact.fin_neg, neg_zero]
  unfold Scalar.sum
  rw [hzero, hfold, zero_add]

theorem sum_map_fin {α : Type} {l : List α} {f : α → Exact F} {g : α → F} (h : ∀ e ∈ l, f e = .fin (g e)) :
    Scalar.sum (l.map f) = .fin (l.map g).sum := by
  rw [← sum_fin, List.map_map]
  exact congrArg _ (List.map_congr_left h)

end Sums

theorem finite_of_foldl_add {l : List (Exact ℚ)} {x : Exact ℚ} (h : Scalar.isFinite (l.foldl (· + ·) x) = true) :
    Scalar.isFinite x = true ∧ ∀ y ∈ l, Scalar.isFinite y = true := by
  induction l generalizing x with
  | nil => exact ⟨h, nofun⟩
  | cons y l ih =>
    obtain ⟨hadd, hrest⟩ := ih h
    obtain ⟨hx, hy⟩ := Exact.isFinite_of_add hadd
    exact ⟨hx, List.forall_mem_cons.mpr ⟨hy, hrest⟩⟩

/-- The terms of a finite sum are finite. -/
theorem finite_of_sum {l : List (Exact ℚ)} (h : Scalar.isFinite (Scalar.sum l) = true) :
    ∀ y ∈ l, Scalar.isFinite y = true := (finite_of_foldl_add h).2

namespace Row

/-- Coefficients are finite and not zero, as those of canonical rows. -/
def Proper (r : Row (Exact ℚ)) : Prop := ∀ c ∈ r.coefs, ∃ a : ℚ, a ≠ 0 ∧ c.2 = .fin a

/-- A point satisfies both sides of a row. -/
def Holds (r : Row (Exact ℚ)) (p : Point) : Prop :=
  r.lhs ≤ r.activity p.vector ∧ r.activity p.vector ≤ r.rhs

/-- The value of a term. -/
def termAt (p : Point) (c : VarId × Exact ℚ) : ℚ := c.2.toField * p.coord c.1

theorem activity_eq {r : Row (Exact ℚ)} (h : ∀ c ∈ r.coefs, Scalar.isFinite c.2 = true)
    (p : Point) : r.activity p.vector = .fin (r.coefs.map (termAt p)).sum := by
  unfold activity
  rw [← sum_fin, List.map_map]
  congr 1
  refine List.map_congr_left fun c hc => ?_
  obtain ⟨v, a⟩ := c
  obtain ⟨q, rfl⟩ := Exact.isFinite_iff.mp (h _ hc)
  simp [termAt]

theorem Proper.finite {r : Row (Exact ℚ)} (h : r.Proper) :
    ∀ c ∈ r.coefs, Scalar.isFinite c.2 = true := by
  intro c hc
  obtain ⟨a, -, ha⟩ := h c hc
  exact Exact.isFinite_iff.mpr ⟨a, ha⟩

end Row

end BranchAndCut
