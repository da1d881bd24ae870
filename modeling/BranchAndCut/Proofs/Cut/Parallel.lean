import BranchAndCut.Proofs.Point
import BranchAndCut.Proofs.Cut.Lookup

/-! # What a pool takes for a duplicate

A cut is not stored if the pool has one whose row is nearly parallel: the same variables,
coefficients at an angle whose cosine is at least 0.9999, and sides that agree once divided by
the norms. Over the reals, the points of such a row violate the other by no more than the
angle allows at their distance from the origin. This is not little: the cosine falls with the
square of the angle, so that 0.9999 admits 0.8 degrees, where sides have to agree up to 1e-8.
Rows with norms below 1e-10 are taken for duplicates whatever their sides are. -/

namespace BranchAndCut

noncomputable instance : Rooted ℝ := ⟨Real.sqrt⟩

namespace Row

/-! ## Rows over the reals -/

/-- The coefficients are finite. -/
def FiniteCoefs (r : Row (Exact ℝ)) : Prop := ∀ c ∈ r.coefs, Scalar.isFinite c.2 = true

/-- The length of the coefficient vector. -/
noncomputable def length (r : Row (Exact ℝ)) : ℝ := √(r.coefs.map fun c => c.2.toField ^ 2).sum

/-- The distance of a point from the origin, in the variables of a row. -/
noncomputable def distance (r : Row (Exact ℝ)) (x : Array ℝ) : ℝ := √(r.coefs.map fun c => x.getD c.1 0 ^ 2).sum

/-- The sum of the terms at a point. -/
noncomputable def value (r : Row (Exact ℝ)) (x : Array ℝ) : ℝ := (r.coefs.map fun c => c.2.toField * x.getD c.1 0).sum

/-- The sum of the products of coefficients, for rows with the same variables. -/
noncomputable def dot (a b : Row (Exact ℝ)) : ℝ :=
  ((a.coefs.zip b.coefs).map fun e => e.1.2.toField * e.2.2.toField).sum

/-- The cosine of the angle between two rows with the same variables. -/
noncomputable def cosine (a b : Row (Exact ℝ)) : ℝ := dot a b / (a.length * b.length)

/-- A point satisfies both sides of a row. -/
def Satisfied (r : Row (Exact ℝ)) (x : Array ℝ) : Prop :=
  r.lhs ≤ r.activity (x.map Exact.fin) ∧ r.activity (x.map Exact.fin) ≤ r.rhs

variable {a b r : Row (Exact ℝ)} {x : Array ℝ}

theorem sum_sq_nonneg {α : Type} (l : List α) (f : α → ℝ) : 0 ≤ (l.map fun e => f e ^ 2).sum :=
  List.sum_nonneg fun _ h => by
    obtain ⟨e, -, rfl⟩ := List.mem_map.mp h
    exact sq_nonneg (f e)

theorem FiniteCoefs.norm_eq (h : r.FiniteCoefs) : r.norm = .fin r.length := by
  have hsum : Scalar.sum (r.coefs.map fun c => c.2 * c.2) = .fin (r.coefs.map fun c => c.2.toField ^ 2).sum := by
    refine sum_map_fin fun c hc => ?_
    obtain ⟨q, hq⟩ := Exact.isFinite_iff.mp (h c hc)
    rw [hq, Exact.fin_mul, Exact.toField_fin, sq]
  unfold norm
  rw [hsum]
  exact if_neg (not_lt.mpr (sum_sq_nonneg _ _))

theorem FiniteCoefs.activity_eq (h : r.FiniteCoefs) (x : Array ℝ) :
    r.activity (x.map Exact.fin) = .fin (r.value x) := by
  refine sum_map_fin fun c hc => ?_
  obtain ⟨q, hq⟩ := Exact.isFinite_iff.mp (h c hc)
  have hread : (x.map Exact.fin).getD c.1 0 = .fin (x.getD c.1 0) := by
    by_cases h : c.1 < x.size
    · simp [h]
    · simp [h, Exact.zero_def]
  show c.2 * (x.map Exact.fin).getD c.1 0 = _
  rw [hread, hq, Exact.fin_mul, Exact.toField_fin]

theorem FiniteCoefs.dot_eq (ha : a.FiniteCoefs) (hb : b.FiniteCoefs) :
    Scalar.sum (a.coefs.zipWith (fun p q => p.2 * q.2) b.coefs) = .fin (dot a b) := by
  rw [← List.map_uncurry_zip_eq_zipWith]
  refine sum_map_fin fun e he => ?_
  obtain ⟨hea, heb⟩ := List.of_mem_zip he
  obtain ⟨q, hq⟩ := Exact.isFinite_iff.mp (ha e.1 hea)
  obtain ⟨s, hs⟩ := Exact.isFinite_iff.mp (hb e.2 heb)
  show e.1.2 * e.2.2 = _
  rw [hq, hs, Exact.fin_mul, Exact.toField_fin, Exact.toField_fin]

/-! ## Directions -/

/-- Two unit vectors at an angle, and the difference of their products with a third. -/
theorem gap_sq_le {α : Type} (l : List α) (f g y : α → ℝ) {A B : ℝ} (hA : 0 < A) (hB : 0 < B)
    (hf : (l.map fun e => f e ^ 2).sum = A ^ 2) (hg : (l.map fun e => g e ^ 2).sum = B ^ 2) :
    ((l.map fun e => f e * y e).sum / A - (l.map fun e => g e * y e).sum / B) ^ 2 ≤
      2 * (1 - (l.map fun e => f e * g e).sum / (A * B)) * (l.map fun e => y e ^ 2).sum := by
  simp only [← Fin.sum_univ_fun_getElem] at hf hg ⊢
  have hgap : (∑ i : Fin l.length, f l[i.1] * y l[i.1]) / A - (∑ i : Fin l.length, g l[i.1] * y l[i.1]) / B =
      ∑ i : Fin l.length, (f l[i.1] / A - g l[i.1] / B) * y l[i.1] := by
    rw [Finset.sum_div, Finset.sum_div, ← Finset.sum_sub_distrib]
    exact Finset.sum_congr rfl fun i _ => by ring
  have hdist : ∑ i : Fin l.length, (f l[i.1] / A - g l[i.1] / B) ^ 2 =
      2 * (1 - (∑ i : Fin l.length, f l[i.1] * g l[i.1]) / (A * B)) := by
    calc ∑ i : Fin l.length, (f l[i.1] / A - g l[i.1] / B) ^ 2
        = ∑ i : Fin l.length, (f l[i.1] ^ 2 / A ^ 2 + g l[i.1] ^ 2 / B ^ 2 - 2 * (f l[i.1] * g l[i.1] / (A * B))) :=
          Finset.sum_congr rfl fun i _ => by field_simp; ring
      _ = 2 * (1 - (∑ i : Fin l.length, f l[i.1] * g l[i.1]) / (A * B)) := by
        rw [Finset.sum_sub_distrib, Finset.sum_add_distrib, ← Finset.sum_div, ← Finset.sum_div, ← Finset.mul_sum,
          ← Finset.sum_div, hf, hg, div_self (pow_ne_zero 2 hA.ne'), div_self (pow_ne_zero 2 hB.ne')]
        ring
  rw [hgap, ← hdist]
  exact Finset.sum_mul_sq_le_sq_mul_sq _ _ _

theorem length_sq (r : Row (Exact ℝ)) : (r.coefs.map fun c => c.2.toField ^ 2).sum = r.length ^ 2 :=
  (Real.sq_sqrt (sum_sq_nonneg _ _)).symm

theorem eq_of_mem_zip {l l' : List (VarId × Exact ℝ)} (h : l.map Prod.fst = l'.map Prod.fst) :
    ∀ e ∈ l.zip l', e.1.1 = e.2.1 := by
  induction l generalizing l' with
  | nil => nofun
  | cons c l ih =>
    cases l' with
    | nil => nofun
    | cons c' l' =>
      obtain ⟨hhead, htail⟩ := List.cons.inj h
      exact List.forall_mem_cons.mpr ⟨hhead, ih htail⟩

/-- **Two rows at a point**: divided by their lengths they differ by what the angle allows at
the distance of the point. -/
theorem value_gap_le (hvars : a.coefs.map Prod.fst = b.coefs.map Prod.fst) (ha : 0 < a.length) (hb : 0 < b.length)
    (x : Array ℝ) : |a.value x / a.length - b.value x / b.length| ≤ √(2 * (1 - cosine a b)) * a.distance x := by
  have hlen : a.coefs.length = b.coefs.length := by simpa using congrArg List.length hvars
  have hfst : (a.coefs.zip b.coefs).map Prod.fst = a.coefs := List.map_fst_zip hlen.le
  have hsnd : (a.coefs.zip b.coefs).map Prod.snd = b.coefs := List.map_snd_zip hlen.ge
  have hover : ∀ f : VarId × Exact ℝ → ℝ, a.coefs.map f = (a.coefs.zip b.coefs).map fun e => f e.1 := fun f => by
    conv_lhs => rw [← hfst]
    exact List.map_map
  have hover' : ∀ f : VarId × Exact ℝ → ℝ, b.coefs.map f = (a.coefs.zip b.coefs).map fun e => f e.2 := fun f => by
    conv_lhs => rw [← hsnd]
    exact List.map_map
  have hvalue : b.value x = ((a.coefs.zip b.coefs).map fun e => e.2.2.toField * x.getD e.1.1 0).sum := by
    unfold value
    rw [hover' fun c => c.2.toField * x.getD c.1 0]
    congr 1
    refine List.map_congr_left fun e he => ?_
    rw [eq_of_mem_zip hvars e he]
  have hgap := gap_sq_le (a.coefs.zip b.coefs) (fun e => e.1.2.toField) (fun e => e.2.2.toField)
    (fun e => x.getD e.1.1 0) ha hb ((congrArg List.sum (hover fun c => c.2.toField ^ 2)).symm.trans a.length_sq)
    ((congrArg List.sum (hover' fun c => c.2.toField ^ 2)).symm.trans b.length_sq)
  rw [hvalue]
  unfold value distance cosine dot
  rw [hover fun c => c.2.toField * x.getD c.1 0, hover fun c => x.getD c.1 0 ^ 2,
    ← Real.sqrt_mul' _ (sum_sq_nonneg _ _)]
  exact Real.abs_le_sqrt hgap

end Row

namespace CutPool

open Row

variable {a b : Row (Exact ℝ)} {x : Array ℝ}

/-- Sides that agree are the same infinity, or close in units of the norms. -/
theorem close_of_sameSide {A B : ℝ} {s t : Exact ℝ} (hA : A ≠ 0) (hB : B ≠ 0)
    (h : sameSide (.fin A) (.fin B) s t = true) :
    (s = t ∧ ∀ u, s ≠ .fin u) ∨ ∃ u v, s = .fin u ∧ t = .fin v ∧ |u / A - v / B| < 1e-8 := by
  unfold sameSide at h
  split at h
  · next hinf =>
    have hst := of_decide_eq_true h
    refine .inl ⟨hst.2, ?_⟩
    rintro u rfl
    rw [← hst.2] at hinf
    cases hinf
  · next hfinite =>
    rw [decide_eq_true_iff] at h
    cases s with
    | fin u =>
      rw [Exact.fin_div hA] at h
      cases t with
      | fin v =>
        rw [Exact.fin_div hB, Exact.fin_sub, Exact.abs_fin, Exact.scientific_def, Exact.fin_lt] at h
        exact .inr ⟨u, v, rfl, rfl, h⟩
      | nan => exact h.elim
      | negInf => exact (hfinite rfl).elim
      | posInf => exact (hfinite rfl).elim
    | nan => exact h.elim
    | negInf => exact (hfinite rfl).elim
    | posInf => exact (hfinite rfl).elim

/-- **Rows that are alike** are tiny, or at a small angle and with sides that agree. -/
theorem parallel_iff (ha : a.FiniteCoefs) (hb : b.FiniteCoefs) : parallel a b = true ↔
    a.coefs.map Prod.fst = b.coefs.map Prod.fst ∧ (a.length < 1e-10 ∧ b.length < 1e-10 ∨
      1e-10 ≤ a.length ∧ 1e-10 ≤ b.length ∧ 0.9999 ≤ cosine a b ∧
        sameSide (.fin a.length) (.fin b.length) a.lhs b.lhs = true ∧
        sameSide (.fin a.length) (.fin b.length) a.rhs b.rhs = true) := by
  unfold parallel
  rw [ha.norm_eq, hb.norm_eq, ha.dot_eq hb]
  split
  · next hvars => exact iff_of_false Bool.false_ne_true fun h => hvars h.1
  · next hvars =>
    rw [ne_eq, not_not] at hvars
    dsimp only
    split
    · next htiny =>
      rw [Bool.or_eq_true, decide_eq_true_iff, decide_eq_true_iff, Exact.scientific_def, Exact.fin_lt,
        Exact.fin_lt] at htiny
      rw [Bool.and_eq_true, decide_eq_true_iff, decide_eq_true_iff, Exact.scientific_def, Exact.fin_lt, Exact.fin_lt]
      refine ⟨fun h => ⟨hvars, .inl h⟩, fun ⟨_, h⟩ => h.resolve_right fun ⟨hla, hlb, _⟩ => ?_⟩
      exact htiny.elim (not_lt.mpr hla) (not_lt.mpr hlb)
    · next hlong =>
      rw [Bool.or_eq_true, decide_eq_true_iff, decide_eq_true_iff, Exact.scientific_def, Exact.fin_lt, Exact.fin_lt,
        not_or, not_lt, not_lt] at hlong
      have hcos : Exact.fin (dot a b) / (Exact.fin a.length * Exact.fin b.length) = .fin (cosine a b) := by
        have htiny : (0 : ℝ) < 1e-10 := by norm_num
        rw [Exact.fin_mul]
        exact Exact.fin_div (mul_pos (htiny.trans_le hlong.1) (htiny.trans_le hlong.2)).ne'
      split
      · next hangle =>
        rw [hcos, Exact.scientific_def, Exact.fin_lt] at hangle
        refine iff_of_false Bool.false_ne_true fun ⟨_, h⟩ => ?_
        rcases h with h | h
        · exact not_lt.mpr hlong.1 h.1
        · exact not_lt.mpr h.2.2.1 hangle
      · next hangle =>
        rw [hcos, Exact.scientific_def, Exact.fin_lt, not_lt] at hangle
        rw [Bool.and_eq_true]
        refine ⟨fun h => ⟨hvars, .inr ⟨hlong.1, hlong.2, hangle, h⟩⟩, fun ⟨_, h⟩ => ?_⟩
        rcases h with h | h
        · exact absurd h.1 (not_lt.mpr hlong.1)
        · exact h.2.2.2

/-- **A point of a row** violates a row like it by no more than the angle and the tolerance of
the sides allow. -/
theorem violation_le_of_parallel (ha : a.FiniteCoefs) (hb : b.FiniteCoefs) (hla : 0 < a.length) (hlb : 0 < b.length)
    (hvars : a.coefs.map Prod.fst = b.coefs.map Prod.fst)
    (hlhs : sameSide (.fin a.length) (.fin b.length) a.lhs b.lhs = true)
    (hrhs : sameSide (.fin a.length) (.fin b.length) a.rhs b.rhs = true) (hx : b.Satisfied x) :
    a.violation (x.map Exact.fin) ≤ .fin (a.length * (1e-8 + √(2 * (1 - cosine a b)) * a.distance x)) := by
  have hgap := value_gap_le hvars hla hlb x
  obtain ⟨hlower, hupper⟩ := hx
  rw [hb.activity_eq] at hlower hupper
  unfold violation
  rw [ha.activity_eq]
  have hslack : 0 ≤ √(2 * (1 - cosine a b)) * a.distance x := mul_nonneg (Real.sqrt_nonneg _) (Real.sqrt_nonneg _)
  generalize √(2 * (1 - cosine a b)) * a.distance x = slack at hgap hslack
  rw [abs_le] at hgap
  refine Exact.max_le' (Exact.max_le' ?_ ?_) ?_
  · rcases close_of_sameSide hla.ne' hlb.ne' hlhs with ⟨heq, hinf⟩ | ⟨u, v, hu, hv, hclose⟩
    · rw [← heq] at hlower
      cases hside : a.lhs with
      | fin u => exact (hinf u hside).elim
      | negInf => trivial
      | nan =>
        rw [hside] at hlower
        exact hlower.elim
      | posInf =>
        rw [hside] at hlower
        exact hlower.elim
    · rw [hv, Exact.fin_le] at hlower
      rw [hu, Exact.fin_sub, Exact.fin_le, ← div_le_iff₀' hla, sub_div]
      have hscaled := div_le_div_of_nonneg_right hlower hlb.le
      rw [abs_lt] at hclose
      linarith
  · rcases close_of_sameSide hla.ne' hlb.ne' hrhs with ⟨heq, hinf⟩ | ⟨u, v, hu, hv, hclose⟩
    · rw [← heq] at hupper
      cases hside : a.rhs with
      | fin u => exact (hinf u hside).elim
      | posInf => trivial
      | nan =>
        rw [hside] at hupper
        exact hupper.elim
      | negInf =>
        rw [hside] at hupper
        exact hupper.elim
    · rw [hv, Exact.fin_le] at hupper
      rw [hu, Exact.fin_sub, Exact.fin_le, ← div_le_iff₀' hla, sub_div]
      have hscaled := div_le_div_of_nonneg_right hupper hlb.le
      rw [abs_lt] at hclose
      linarith
  · rw [Exact.zero_def, Exact.fin_le]
    exact mul_nonneg hla.le (add_nonneg (by norm_num) hslack)

/-! ## What is refused -/

/-- **A cut is stored, or one near it is in the pool.** If the number answered is an old one,
the rows have the same variables, and either both are tiny, or the points of the row in the
pool violate the one offered by no more than the angle and the tolerance of the sides allow. -/
theorem Wf.add_near {p : CutPool (Exact ℝ)} (hp : p.Wf) (hpool : ∀ c ∈ p.cuts, c.cut.row.FiniteCoefs)
    {cut : Cut (Exact ℝ)} (hcut : cut.row.FiniteCoefs) :
    ((p.add cut).1 = p.nextId ∧ (p.add cut).2.1 = false ∧ (p.add cut).2.2.get? p.nextId = some (p.stored cut)) ∨
    ∃ c, p.get? (p.add cut).1 = some c ∧ c.status ≠ .deleted ∧
      cut.row.coefs.map Prod.fst = c.cut.row.coefs.map Prod.fst ∧
      (cut.row.length < 1e-10 ∧ c.cut.row.length < 1e-10 ∨
        0.9999 ≤ cosine cut.row c.cut.row ∧ ∀ x, c.cut.row.Satisfied x → cut.row.violation (x.map Exact.fin) ≤
          .fin (cut.row.length * (1e-8 + √(2 * (1 - cosine cut.row c.cut.row)) * cut.row.distance x))) := by
  have hnear : ∀ {c : PooledCut (Exact ℝ)}, p.get? c.id = some c → parallel cut.row c.cut.row = true →
      cut.row.coefs.map Prod.fst = c.cut.row.coefs.map Prod.fst ∧
      (cut.row.length < 1e-10 ∧ c.cut.row.length < 1e-10 ∨
        0.9999 ≤ cosine cut.row c.cut.row ∧ ∀ x, c.cut.row.Satisfied x → cut.row.violation (x.map Exact.fin) ≤
          .fin (cut.row.length * (1e-8 + √(2 * (1 - cosine cut.row c.cut.row)) * cut.row.distance x))) := by
    intro c hc hlike
    have hfinite := hpool c (get?_some hc).1
    obtain ⟨hvars, htiny | ⟨hla, hlb, hcos, hlhs, hrhs⟩⟩ := (parallel_iff hcut hfinite).mp hlike
    · exact ⟨hvars, .inl htiny⟩
    · have hpos : (0 : ℝ) < 1e-10 := by norm_num
      exact ⟨hvars, .inr ⟨hcos, fun x hx => violation_le_of_parallel hcut hfinite (hpos.trans_le hla)
        (hpos.trans_le hlb) hvars hlhs hrhs hx⟩⟩
  have hadding := hp.adding cut
  generalize p.add cut = answer at hadding
  cases hadding with
  | repeated c hc hs hlike => exact .inr ⟨c, hc, by rw [hs]; nofun, hnear hc hlike⟩
  | broughtBack c hc hs hlike => exact .inr ⟨c, hc, by rw [hs]; nofun, hnear hc hlike⟩
  | new q hunlike hread hnext hcount => exact .inl ⟨rfl, rfl, (hread _).trans (if_pos rfl)⟩

/-- The cut `x₀ + a x₁ ≤ 0`. -/
noncomputable def slanted (a : ℝ) : Cut (Exact ℝ) where
  name := "slanted"
  row := { coefs := [(0, .fin 1), (1, .fin a)], lhs := .negInf, rhs := .fin 0 }
  isLocal := false
  source := ""

theorem finite_slanted (a : ℝ) : (slanted a).row.FiniteCoefs := by
  intro c hc
  rcases List.mem_cons.mp hc with rfl | hc
  · rfl
  · rw [List.mem_singleton.mp hc]
    rfl

theorem length_slanted (a : ℝ) : (slanted a).row.length = √(1 + a ^ 2) := by
  simp [Row.length, slanted]

theorem one_le_length_slanted (a : ℝ) : 1 ≤ (slanted a).row.length := by
  rw [length_slanted]
  exact Real.one_le_sqrt.mpr (le_add_of_nonneg_right (sq_nonneg a))

theorem value_slanted (a u v : ℝ) : (slanted a).row.value #[u, v] = u + a * v := by
  simp [Row.value, slanted]

theorem cosine_slanted (a b : ℝ) :
    cosine (slanted a).row (slanted b).row = (1 + a * b) / (√(1 + a ^ 2) * √(1 + b ^ 2)) := by
  unfold cosine
  rw [length_slanted, length_slanted]
  simp [Row.dot, slanted]

theorem sameSide_zero {A B : ℝ} (hA : A ≠ 0) (hB : B ≠ 0) :
    sameSide (Exact.fin A) (Exact.fin B) (Exact.fin 0) (Exact.fin 0) = true := by
  refine decide_eq_true ?_
  rw [Exact.fin_div hA, Exact.fin_div hB, Exact.fin_sub, Exact.abs_fin, Exact.scientific_def, Exact.fin_lt]
  norm_num

/-- Two cuts slanted by 0.005 to either side, at an angle of half a degree. -/
theorem parallel_slanted : parallel (slanted (-0.005)).row (slanted 0.005).row = true := by
  have hpos : ∀ a : ℝ, (slanted a).row.length ≠ 0 := fun a => (one_pos.trans_le (one_le_length_slanted a)).ne'
  have hlong : ∀ a : ℝ, 1e-10 ≤ (slanted a).row.length := fun a => le_trans (by norm_num) (one_le_length_slanted a)
  refine (parallel_iff (finite_slanted _) (finite_slanted _)).mpr
    ⟨rfl, .inr ⟨hlong _, hlong _, ?_, rfl, sameSide_zero (hpos _) (hpos _)⟩⟩
  rw [cosine_slanted, neg_sq, Real.mul_self_sqrt (by norm_num)]
  norm_num

/-- A pool with one cut. -/
noncomputable def slantedPool : CutPool (Exact ℝ) := ((new .default).add (slanted 0.005)).2.2

theorem slantedPool_cuts : slantedPool.cuts = #[(new .default).stored (slanted 0.005)] := rfl

theorem slantedPool_get? : slantedPool.get? 0 = some ((new .default).stored (slanted 0.005)) := rfl

theorem add_slanted : slantedPool.add (slanted (-0.005)) = (0, true, { slantedPool with duplicates := 1 }) := by
  have hfind : slantedPool.cuts.find? (fun c => c.status != .deleted && parallel (slanted (-0.005)).row c.cut.row) =
      some ((new .default).stored (slanted 0.005)) := by
    rw [slantedPool_cuts, List.find?_toArray]
    exact List.find?_cons_of_pos (Bool.and_eq_true_iff.mpr ⟨rfl, parallel_slanted⟩)
  unfold CutPool.add
  rw [hfind]
  rfl

/-- **A refused cut can be violated** by 1 at a point of the row it is refused for, where a
millionth of its norm at the distance of the point is little more than 0.0001. -/
theorem add_near_violated : slantedPool.add (slanted (-0.005)) = (0, true, { slantedPool with duplicates := 1 }) ∧
    (∃ c, slantedPool.get? 0 = some c ∧ c.cut = slanted 0.005) ∧ (slanted 0.005).row.Satisfied #[0.5, -100] ∧
    ¬ (slanted (-0.005)).row.violation (#[0.5, -100].map Exact.fin) ≤
      .fin (1e-6 * (slanted (-0.005)).row.length * (1 + 100)) := by
  refine ⟨add_slanted, ⟨_, slantedPool_get?, rfl⟩, ?_, fun h => ?_⟩
  · unfold Satisfied
    rw [(finite_slanted _).activity_eq, value_slanted]
    exact ⟨trivial, (Exact.fin_le _ _).mpr (by norm_num)⟩
  · have hone : (.fin 1 : Exact ℝ) ≤ (slanted (-0.005)).row.violation (#[0.5, -100].map Exact.fin) := by
      have hvalue : (slanted (-0.005)).row.value #[0.5, -100] = 1 := by
        rw [value_slanted]
        norm_num
      have hside : (Exact.fin 1 : Exact ℝ) - (slanted (-0.005)).row.rhs = .fin 1 :=
        (Exact.fin_sub 1 0).trans (congrArg _ (sub_zero 1))
      unfold violation
      rw [(finite_slanted _).activity_eq, hvalue]
      dsimp only
      rw [hside]
      exact Exact.le_max_of_le (Exact.le_max_right' (Exact.fin_ne_nan _))
    have hle := (Exact.fin_le _ _).mp (Exact.le_trans' hone h)
    have hlen : (slanted (-0.005)).row.length ≤ 2 := by
      rw [length_slanted]
      exact Real.sqrt_le_iff.mpr (by norm_num)
    norm_num at hle
    linarith

/-- The cut slanted to the other side is refused, and how far it can be violated. -/
theorem add_near_slanted : slantedPool.Wf ∧ (∀ c ∈ slantedPool.cuts, c.cut.row.FiniteCoefs) ∧
    (slanted (-0.005)).row.FiniteCoefs ∧ slantedPool.nextId = 1 ∧
    slantedPool.add (slanted (-0.005)) = (0, true, { slantedPool with duplicates := 1 }) ∧
    ∃ c, slantedPool.get? 0 = some c ∧ ∀ x, c.cut.row.Satisfied x → (slanted (-0.005)).row.violation (x.map Exact.fin) ≤
      .fin ((slanted (-0.005)).row.length * (1e-8 +
        √(2 * (1 - cosine (slanted (-0.005)).row c.cut.row)) * (slanted (-0.005)).row.distance x)) := by
  have hwf : slantedPool.Wf := ((wf_new .default).add (slanted 0.005)).1.wf
  have hfinite : ∀ c ∈ slantedPool.cuts, c.cut.row.FiniteCoefs := by
    intro c hc
    rw [slantedPool_cuts, List.mem_toArray, List.mem_singleton] at hc
    exact hc ▸ finite_slanted 0.005
  refine ⟨hwf, hfinite, finite_slanted _, rfl, add_slanted, ?_⟩
  have h := hwf.add_near hfinite (finite_slanted (-0.005))
  rw [add_slanted] at h
  obtain ⟨-, hnew, -⟩ | ⟨c, hc, -, -, ⟨htiny, -⟩ | ⟨-, hbound⟩⟩ := h
  · cases hnew
  · exact absurd htiny (not_lt.mpr (le_trans (by norm_num) (one_le_length_slanted _)))
  · exact ⟨c, hc, hbound⟩

end CutPool

end BranchAndCut
