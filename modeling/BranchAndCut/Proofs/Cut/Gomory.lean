import BranchAndCut.Cut.Gomory
import BranchAndCut.Proofs.Arrays
import BranchAndCut.Proofs.Domain.Whole
import BranchAndCut.Proofs.Row

/-! # Gomory cuts are valid and separate

A tableau row that holds at the relaxation solution says of every other point how far the
basic variable moves with the distances of the columns from their bounds. Changed by
integers where the distance is one, the rates of these movements sum up to the fraction of
the basic value and an integer, so that the weighted distances sum up to one at least. A cut
states this in the variables. It leaves out tiny coefficients at the cost of the most that
they contribute over the domain. -/

namespace BranchAndCut

namespace Gomory

/-! ## Mixed-integer rounding -/

/-- The rate at which a distance moves the basic variable, changed by an integer if the
distance is one: upwards from zero to the fraction, downwards beyond it. -/
def slope (f₀ a : ℚ) (integral : Bool) : ℚ :=
  if integral then (if Int.fract a ≤ f₀ then Int.fract a else Int.fract a - 1) else a

/-- The weight of a slope: its share of the way up, or down, to the next integer. -/
def gain (f₀ s : ℚ) : ℚ := if 0 ≤ s then s / f₀ else -s / (1 - f₀)

variable {f₀ a s : ℚ}

theorem exists_int_sub_slope (f₀ a : ℚ) : ∃ z : ℤ, a - slope f₀ a true = z := by
  have ha := Int.self_sub_floor a
  unfold slope
  rw [if_pos rfl]
  split
  · exact ⟨⌊a⌋, by linarith⟩
  · exact ⟨⌊a⌋ + 1, by push_cast; linarith⟩

theorem slope_of_not_integral (f₀ a : ℚ) : slope f₀ a false = a := rfl

/-- A slope upwards is worth its share of the fraction, one downwards nothing. -/
theorem le_mul_gain (hpos : 0 < f₀) (hlt : f₀ < 1) : s ≤ f₀ * gain f₀ s := by
  unfold gain
  split
  · exact (mul_div_cancel₀ s hpos.ne').ge
  · next hs =>
    have hneg : s < 0 := not_le.mp hs
    exact hneg.le.trans (mul_nonneg hpos.le (div_nonneg (by linarith) (by linarith)))

/-- A slope downwards is worth its share of the rest, one upwards nothing. -/
theorem neg_le_mul_gain (hpos : 0 < f₀) (hlt : f₀ < 1) : -s ≤ (1 - f₀) * gain f₀ s := by
  have hrest : 0 < 1 - f₀ := by linarith
  unfold gain
  split
  · next hs => exact (neg_nonpos.mpr hs).trans (mul_nonneg hrest.le (div_nonneg hs hpos.le))
  · exact (mul_div_cancel₀ (-s) hrest.ne').ge

/-- **Mixed-integer rounding.** Nonnegative distances whose slopes sum up to a fraction and an
integer weigh one at least. -/
theorem one_le_sum_gain {ι : Type} {l : List ι} {slopes dists : ι → ℚ} (hpos : 0 < f₀) (hlt : f₀ < 1)
    (hdist : ∀ j ∈ l, 0 ≤ dists j) {k : ℤ} (hsum : (l.map fun j => slopes j * dists j).sum = f₀ + k) :
    1 ≤ (l.map fun j => gain f₀ (slopes j) * dists j).sum := by
  rcases Int.lt_or_le k 0 with hk | hk
  · -- the basic variable goes down to an integer below
    have hrest : 0 < 1 - f₀ := by linarith
    have hstep : (k : ℚ) ≤ -1 := by exact_mod_cast Int.le_sub_one_of_lt hk
    have hdown : (l.map fun j => -1 * (slopes j * dists j)).sum ≤
        (l.map fun j => (1 - f₀) * (gain f₀ (slopes j) * dists j)).sum := List.sum_le_sum fun j hj => by
      have := mul_le_mul_of_nonneg_right (neg_le_mul_gain (s := slopes j) hpos hlt) (hdist j hj)
      linarith
    rw [List.sum_map_mul_left, List.sum_map_mul_left, hsum] at hdown
    refine le_of_mul_le_mul_left ?_ hrest
    linarith
  · -- it goes up to an integer above
    have hstep : (0 : ℚ) ≤ k := by exact_mod_cast hk
    have hup : (l.map fun j => slopes j * dists j).sum ≤
        (l.map fun j => f₀ * (gain f₀ (slopes j) * dists j)).sum := List.sum_le_sum fun j hj => by
      have := mul_le_mul_of_nonneg_right (le_mul_gain (s := slopes j) hpos hlt) (hdist j hj)
      linarith
    rw [List.sum_map_mul_left, hsum] at hup
    refine le_of_mul_le_mul_left ?_ hpos
    linarith

theorem weight_fin [Rooted ℚ] (hpos : 0 < f₀) (hlt : f₀ < 1) (a : ℚ) (integral : Bool) :
    weight (Exact.fin f₀) (.fin a) integral = .fin (gain f₀ (slope f₀ a integral)) := by
  have hup : f₀ ≠ 0 := hpos.ne'
  have hdown : 1 - f₀ ≠ 0 := by linarith
  unfold weight gain slope
  cases integral with
  | true =>
    simp only [if_true, Exact.frac_fin, Exact.fin_le, Exact.one_def, Exact.fin_sub, Exact.fin_div hup,
      Exact.fin_div hdown]
    split
    · rw [if_pos (Int.fract_nonneg a)]
    · rw [if_neg (by linarith [Int.fract_lt_one a]), neg_sub]
  | false =>
    simp only [Bool.false_eq_true, if_false, Exact.zero_def, Exact.fin_le, Exact.one_def, Exact.fin_sub,
      Exact.fin_neg, Exact.fin_div hup, Exact.fin_div hdown]
    split <;> rfl

end Gomory

/-! ## Dense coefficients -/

namespace Point

/-- The sum of the products, over the variables of the first point. -/
def dot (c p : Point) : ℚ := ∑ v ∈ Finset.range c.size, c.coord v * p.coord v

/-- Adds to one coefficient; variables that there are none of are passed over. -/
def plus (c : Point) (v : VarId) (a : ℚ) : Point := c.modify v (· + a)

theorem size_plus (c : Point) (v : VarId) (a : ℚ) : (c.plus v a).size = c.size := Array.size_modify

theorem coord_plus {c : Point} {v : VarId} (hv : v < c.size) (a : ℚ) (w : VarId) :
    (c.plus v a).coord w = c.coord w + if w = v then a else 0 := by
  unfold coord plus
  rw [getD_modify]
  by_cases hw : w = v
  · rw [if_pos ⟨hw, hv⟩, if_pos hw]
  · rw [if_neg fun h => hw h.1, if_neg hw, add_zero]

theorem dot_plus {c : Point} {v : VarId} (hv : v < c.size) (a : ℚ) (p : Point) :
    dot (c.plus v a) p = dot c p + a * p.coord v := by
  have hterm : ∀ w ∈ Finset.range c.size, (c.plus v a).coord w * p.coord w =
      c.coord w * p.coord w + if w = v then a * p.coord v else 0 := by
    intro w _
    rw [coord_plus hv, add_mul]
    congr 1
    split
    · next hw => rw [hw]
    · exact zero_mul _
  unfold dot
  rw [size_plus, Finset.sum_congr rfl hterm, Finset.sum_add_distrib, Finset.sum_ite_eq',
    if_pos (Finset.mem_range.mpr hv)]

theorem vector_plus [Rooted ℚ] (c : Point) (v : VarId) (a : ℚ) :
    c.vector.modify v (· + .fin a) = (c.plus v a).vector := by
  unfold vector plus
  ext i h h'
  · simp
  · simp [Array.getElem_modify]
    split <;> rfl

/-- Adds the multiple of a row. -/
theorem foldl_modify [Rooted ℚ] {coefs : List (VarId × Exact ℚ)} {c : Point} (k : ℚ)
    (h : ∀ e ∈ coefs, e.1 < c.size ∧ Scalar.isFinite e.2 = true) :
    ∃ c' : Point, coefs.foldl (fun dense (v, a) => dense.modify v (· + .fin k * a)) c.vector = c'.vector ∧
      c'.size = c.size ∧ ∀ p, dot c' p = dot c p + k * Row.total coefs p := by
  induction coefs generalizing c with
  | nil => exact ⟨c, rfl, rfl, fun p => by simp⟩
  | cons entry coefs ih =>
    obtain ⟨v, a⟩ := entry
    obtain ⟨⟨hv, ha⟩, hrest⟩ := List.forall_mem_cons.mp h
    obtain ⟨a, rfl⟩ := Exact.isFinite_iff.mp ha
    obtain ⟨c', hfold, hsize, hdot⟩ := ih (c := c.plus v (k * a)) (by rwa [size_plus])
    refine ⟨c', ?_, hsize.trans (size_plus c v _), fun p => ?_⟩
    · rw [List.foldl_cons, ← hfold, ← vector_plus, ← Exact.fin_mul]
    · rw [hdot, dot_plus hv, Row.total_cons, Row.termAt, Exact.toField_fin]
      ring

end Point

section

/-! ## The columns of a tableau row -/

variable [Rooted ℚ] {rowOf : RowKey → Option (Row (Exact ℚ))} {d : Domains (Exact ℚ)} {p : Point}

namespace LpColumn

/-- The value of a column at a point: that of the variable, or the activity of the row. -/
def valueAt (rowOf : RowKey → Option (Row (Exact ℚ))) (p : Point) : LpColumn → Exact ℚ
  | .var v => .fin (p.coord v)
  | .slack key =>
    match rowOf key with
    | some row => row.activity p.vector
    | none => 0

/-- The variable exists, or the row, with finite coefficients of variables that exist. -/
def Exists (rowOf : RowKey → Option (Row (Exact ℚ))) (numVars : Nat) : LpColumn → Prop
  | .var v => v < numVars
  | .slack key => ∃ row, rowOf key = some row ∧ ∀ c ∈ row.coefs, c.1 < numVars ∧ Scalar.isFinite c.2 = true

theorem Exists.valueAt {col : LpColumn} {n : Nat} (h : col.Exists rowOf n) (p : Point) :
    ∃ z, col.valueAt rowOf p = .fin z := by
  cases col with
  | var v => exact ⟨_, rfl⟩
  | slack key =>
    obtain ⟨row, hrow, hcoefs⟩ := h
    refine ⟨Row.total row.coefs p, ?_⟩
    rw [LpColumn.valueAt, hrow]
    exact Row.activity_eq (fun c hc => (hcoefs c hc).2) p

end LpColumn

namespace TableauEntry

variable {e : TableauEntry (Exact ℚ)}

/-- The value of the column at a point is on the inner side of the bound that it is at. -/
def Admits (rowOf : RowKey → Option (Row (Exact ℚ))) (p : Point) (e : TableauEntry (Exact ℚ)) : Prop :=
  match e.status with
  | .atLower => e.value ≤ e.col.valueAt rowOf p
  | .atUpper => e.col.valueAt rowOf p ≤ e.value
  | _ => True

instance : Decidable (e.Admits rowOf p) :=
  match h : e.status with
  | .atLower => decidable_of_iff (e.value ≤ e.col.valueAt rowOf p) (by rw [Admits, h])
  | .atUpper => decidable_of_iff (e.col.valueAt rowOf p ≤ e.value) (by rw [Admits, h])
  | .basic => .isTrue (by rw [Admits, h]; trivial)
  | .atZero => .isTrue (by rw [Admits, h]; trivial)

/-- The direction from the bound to the inside. -/
def sign (e : TableauEntry (Exact ℚ)) : ℚ :=
  match e.status with
  | .atLower => 1
  | .atUpper => -1
  | _ => 0

/-- The rate at which the distance of the column from its bound moves the basic variable down. -/
def rate (e : TableauEntry (Exact ℚ)) : ℚ := e.sign * e.coef.toField

/-- The distance of the column from its bound at a point. -/
def dist (rowOf : RowKey → Option (Row (Exact ℚ))) (p : Point) (e : TableauEntry (Exact ℚ)) : ℚ :=
  e.sign * ((e.col.valueAt rowOf p).toField - e.value.toField)

omit [Rooted ℚ] in
theorem sign_mul_sign (e : TableauEntry (Exact ℚ)) (h : e.sign ≠ 0) : e.sign * e.sign = 1 := by
  obtain ⟨col, coef, status, value⟩ := e
  cases status with
  | atLower => exact one_mul 1
  | atUpper => exact neg_one_mul (-1) |>.trans (neg_neg 1)
  | basic => exact (h rfl).elim
  | atZero => exact (h rfl).elim

/-- The column exists, and the numbers are finite. -/
structure Sound (rowOf : RowKey → Option (Row (Exact ℚ))) (numVars : Nat) (e : TableauEntry (Exact ℚ)) : Prop where
  col : e.col.Exists rowOf numVars
  coef : Scalar.isFinite e.coef = true
  value : Scalar.isFinite e.value = true

theorem Sound.dist_nonneg {n : Nat} (he : e.Sound rowOf n) (h : e.Admits rowOf p) : 0 ≤ e.dist rowOf p := by
  obtain ⟨z, hz⟩ := he.col.valueAt p
  obtain ⟨b, hb⟩ := Exact.isFinite_iff.mp he.value
  obtain ⟨col, coef, status, value⟩ := e
  simp only at hz hb
  subst hb
  cases status with
  | atLower =>
    simp only [Admits, hz, Exact.fin_le] at h
    simp only [dist, sign, hz, Exact.toField_fin]
    linarith
  | atUpper =>
    simp only [Admits, hz, Exact.fin_le] at h
    simp only [dist, sign, hz, Exact.toField_fin]
    linarith
  | basic => simp only [dist, sign, zero_mul, le_refl]
  | atZero => simp only [dist, sign, zero_mul, le_refl]

end TableauEntry

namespace Gomory

variable {f₀ : ℚ} {e : TableauEntry (Exact ℚ)}

/-- Adds the multiple of a column, in the terms of the variables. -/
def place (rowOf : RowKey → Option (Row (Exact ℚ))) (draft : Draft (Exact ℚ)) (k b : ℚ) : LpColumn → Option (Draft (Exact ℚ))
  | .var v => some { dense := draft.dense.modify v (· + .fin k), rhs := draft.rhs + .fin (k * b) }
  | .slack key => do
    let row ← rowOf key
    return {
      dense := row.coefs.foldl (fun dense (v, a) => dense.modify v (· + .fin k * a)) draft.dense
      rhs := draft.rhs + .fin (k * b) }

theorem withEntry_eq (hpos : 0 < f₀) (hlt : f₀ < 1) (draft : Draft (Exact ℚ)) {a b : ℚ} (ha : e.coef = .fin a)
    (hb : e.value = .fin b) :
    withEntry d rowOf (.fin f₀) draft e =
      if e.sign = 0 then none
      else if gain f₀ (slope f₀ e.rate (isIntegralEntry d e)) = 0 then some draft
      else place rowOf draft (gain f₀ (slope f₀ e.rate (isIntegralEntry d e)) * e.sign) b e.col := by
  obtain ⟨col, coef, status, value⟩ := e
  simp only at ha hb
  subst ha hb
  cases status with
  | basic => rfl
  | atZero => rfl
  | atLower =>
    cases col <;> simp only [withEntry, place, TableauEntry.rate, TableauEntry.sign, weight_fin hpos hlt, Exact.isFinite_fin,
      Exact.zero_def, Exact.one_def, Exact.fin_beq, Exact.fin_mul, Exact.toField_fin, decide_eq_true_eq, one_mul,
      mul_one, one_ne_zero, if_false, Bool.not_true, Bool.false_eq_true, Option.bind_eq_bind, Option.bind_some,
      Option.pure_def]
  | atUpper =>
    cases col <;> simp only [withEntry, place, TableauEntry.rate, TableauEntry.sign, weight_fin hpos hlt, Exact.isFinite_fin,
      Exact.zero_def, Exact.one_def, Exact.fin_beq, Exact.fin_mul, Exact.toField_fin, decide_eq_true_eq, neg_one_mul,
      mul_neg_one, neg_eq_zero, one_ne_zero, Exact.fin_neg, if_false, Bool.not_true, Bool.false_eq_true,
      Option.bind_eq_bind, Option.bind_some, Option.pure_def]

theorem place_adds {c : Point} {r k b : ℚ} {col : LpColumn} {draft : Draft (Exact ℚ)} (hcol : col.Exists rowOf c.size)
    (hplace : place rowOf ⟨c.vector, .fin r⟩ k b col = some draft) :
    ∃ (c' : Point) (r' : ℚ), draft = ⟨c'.vector, .fin r'⟩ ∧ c'.size = c.size ∧
      ∀ p, c'.dot p - r' = c.dot p - r + k * ((col.valueAt rowOf p).toField - b) := by
  cases col with
  | var v =>
    obtain rfl := Option.some.inj hplace
    refine ⟨c.plus v k, r + k * b, by rw [Point.vector_plus, Exact.fin_add], c.size_plus v k, fun p => ?_⟩
    rw [Point.dot_plus hcol, LpColumn.valueAt, Exact.toField_fin]
    ring
  | slack key =>
    obtain ⟨row, hrow, hcoefs⟩ := hcol
    simp only [place, hrow] at hplace
    obtain rfl := Option.some.inj hplace
    obtain ⟨c', hfold, hsize, hdot⟩ := Point.foldl_modify k hcoefs
    refine ⟨c', r + k * b, by rw [hfold, Exact.fin_add], hsize, fun p => ?_⟩
    have hvalue : (LpColumn.valueAt rowOf p (.slack key)).toField = Row.total row.coefs p := by
      rw [LpColumn.valueAt, hrow]
      exact congrArg Exact.toField (Row.activity_eq (fun c hc => (hcoefs c hc).2) p)
    rw [hdot, hvalue]
    ring

/-- The weighted distance of an entry. -/
def weighted (f₀ : ℚ) (d : Domains (Exact ℚ)) (rowOf : RowKey → Option (Row (Exact ℚ))) (p : Point)
    (e : TableauEntry (Exact ℚ)) : ℚ := gain f₀ (slope f₀ e.rate (isIntegralEntry d e)) * e.dist rowOf p

/-- An entry at a bound adds its weighted distance to a draft. -/
theorem withEntry_adds (hpos : 0 < f₀) (hlt : f₀ < 1) (he : e.Sound rowOf d.numVars) {c : Point} {r : ℚ}
    (hsize : c.size = d.numVars) {draft : Draft (Exact ℚ)}
    (hw : withEntry d rowOf (.fin f₀) ⟨c.vector, .fin r⟩ e = some draft) :
    e.sign ≠ 0 ∧ ∃ (c' : Point) (r' : ℚ), draft = ⟨c'.vector, .fin r'⟩ ∧ c'.size = d.numVars ∧
      ∀ p, c'.dot p - r' = c.dot p - r + weighted f₀ d rowOf p e := by
  obtain ⟨a, ha⟩ := Exact.isFinite_iff.mp he.coef
  obtain ⟨b, hb⟩ := Exact.isFinite_iff.mp he.value
  rw [withEntry_eq hpos hlt _ ha hb] at hw
  split_ifs at hw with hsign hgain
  · refine ⟨hsign, c, r, (Option.some.inj hw).symm, hsize, fun p => ?_⟩
    rw [weighted, hgain, zero_mul, add_zero]
  · obtain ⟨c', r', hdraft, hsize', hadds⟩ := place_adds (hsize ▸ he.col) hw
    refine ⟨hsign, c', r', hdraft, hsize'.trans hsize, fun p => ?_⟩
    rw [hadds, weighted, TableauEntry.dist, hb, Exact.toField_fin]
    ring

/-- **A draft sums up the weighted distances.** -/
theorem foldlM_withEntry (hpos : 0 < f₀) (hlt : f₀ < 1) {entries : List (TableauEntry (Exact ℚ))}
    (he : ∀ e ∈ entries, e.Sound rowOf d.numVars) {c : Point} {r : ℚ} (hsize : c.size = d.numVars)
    {draft : Draft (Exact ℚ)} (hw : entries.foldlM (withEntry d rowOf (.fin f₀)) ⟨c.vector, .fin r⟩ = some draft) :
    (∀ e ∈ entries, e.sign ≠ 0) ∧ ∃ (c' : Point) (r' : ℚ), draft = ⟨c'.vector, .fin r'⟩ ∧ c'.size = d.numVars ∧
      ∀ p, c'.dot p - r' = c.dot p - r + (entries.map (weighted f₀ d rowOf p)).sum := by
  induction entries generalizing c r with
  | nil =>
    obtain rfl := Option.some.inj hw
    exact ⟨nofun, c, r, rfl, hsize, fun p => by simp⟩
  | cons e entries ih =>
    obtain ⟨hfirst, hrest⟩ := List.forall_mem_cons.mp he
    rw [List.foldlM_cons] at hw
    obtain ⟨between, hstep, hw⟩ := Option.bind_eq_some_iff.mp hw
    obtain ⟨hsign, c₁, r₁, rfl, hsize₁, hadds₁⟩ := withEntry_adds hpos hlt hfirst hsize hstep
    obtain ⟨hsigns, c', r', hdraft, hsize', hadds'⟩ := ih hrest hsize₁ hw
    refine ⟨List.forall_mem_cons.mpr ⟨hsign, hsigns⟩, c', r', hdraft, hsize', fun p => ?_⟩
    rw [hadds', hadds₁, List.map_cons, List.sum_cons]
    ring

/-! ## Tiny coefficients -/

/-- The most that a variable contributes over its domain. -/
def worst (d : Domains (Exact ℚ)) (c : Exact ℚ) (v : VarId) : Exact ℚ :=
  if 0 < c then c * d.ub v else c * d.lb v

/-- Keeps a coefficient, or drops it and lowers the right-hand side by the most that it contributes. -/
def dropStep (d : Domains (Exact ℚ)) (acc : List (VarId × Exact ℚ) × Exact ℚ) (entry : Exact ℚ × VarId) :
    Option (List (VarId × Exact ℚ) × Exact ℚ) :=
  let (c, v) := entry
  if Scalar.abs c < 1e-9 then
    if c != 0 then (if Scalar.isFinite (worst d c v) then some (acc.1, acc.2 - worst d c v) else none)
    else some acc
  else some ((v, c) :: acc.1, acc.2)

theorem dropTiny?_eq (draft : Draft (Exact ℚ)) :
    dropTiny? d draft = (draft.dense.toList.zipIdx.foldlM (dropStep d) ([], draft.rhs)).map
      fun (coefs, rhs) => (coefs.reverse, rhs) := rfl

/-- The coefficient is not dropped: there is nothing to drop, or it is not tiny. -/
def Kept (c : Exact ℚ) : Prop := c = 0 ∨ ¬ Scalar.abs c < 1e-9

instance (c : Exact ℚ) : Decidable (Kept c) := inferInstanceAs (Decidable (_ ∨ _))

theorem mul_le_worst (hp : d.Encloses p) {c w : ℚ} {v : VarId} (hw : worst d (.fin c) v = .fin w) :
    c * p.coord v ≤ w := by
  have hfin : ∀ {x : Exact ℚ}, .fin c * x = .fin w → ∃ b, x = .fin b ∧ c * b = w := by
    intro x hx
    obtain ⟨b, rfl⟩ := Exact.isFinite_iff.mp (Exact.isFinite_of_mul (x := .fin c) (hx ▸ Exact.isFinite_fin w)).2
    exact ⟨b, rfl, Exact.fin.inj hx⟩
  simp only [worst, Exact.zero_def, Exact.fin_lt] at hw
  split at hw
  · next hc =>
    obtain ⟨b, hb, rfl⟩ := hfin hw
    have hup := hp.upper v
    rw [hb, Exact.fin_le] at hup
    exact mul_le_mul_of_nonneg_left hup hc.le
  · next hc =>
    obtain ⟨b, hb, rfl⟩ := hfin hw
    have hlow := hp.lower v
    rw [hb, Exact.fin_le] at hlow
    exact mul_le_mul_of_nonpos_left hlow (not_lt.mp hc)

/-- What one coefficient comes to. -/
theorem dropStep_bounds {acc acc' : List (VarId × Exact ℚ)} {r c : ℚ} {v : VarId} {rhs : Exact ℚ}
    (hfin : ∀ e ∈ acc, Scalar.isFinite e.2 = true) (hstep : dropStep d (acc, .fin r) (.fin c, v) = some (acc', rhs)) :
    ∃ r' : ℚ, rhs = .fin r' ∧ (∀ e ∈ acc', Scalar.isFinite e.2 = true) ∧
      (∀ p, d.Encloses p → Row.total acc p - r + c * p.coord v ≤ Row.total acc' p - r') ∧
      (Kept (.fin c) → ∀ p, Row.total acc p - r + c * p.coord v = Row.total acc' p - r') := by
  unfold dropStep at hstep
  dsimp only at hstep
  split at hstep
  · next htiny =>
    split at hstep
    · next hne =>
      split at hstep
      · next hworst =>
        obtain ⟨w, hw⟩ := Exact.isFinite_iff.mp hworst
        obtain ⟨rfl, rfl⟩ := Prod.mk.inj (Option.some.inj hstep)
        rw [hw]
        refine ⟨r - w, Exact.fin_sub r w, hfin, fun p hp => ?_, fun hkept => ?_⟩
        · linarith [mul_le_worst hp hw]
        · rcases hkept with hzero | hlarge
          · rw [hzero] at hne
            simp [Exact.zero_def] at hne
          · exact (hlarge htiny).elim
      · cases hstep
    · next hzero =>
      obtain ⟨rfl, rfl⟩ := Prod.mk.inj (Option.some.inj hstep)
      have hc : c = 0 := by simpa [Exact.zero_def] using hzero
      exact ⟨r, rfl, hfin, fun p _ => by rw [hc, zero_mul, add_zero], fun _ p => by rw [hc, zero_mul, add_zero]⟩
  · obtain ⟨rfl, rfl⟩ := Prod.mk.inj (Option.some.inj hstep)
    have htotal : ∀ p, Row.total acc p - r + c * p.coord v = Row.total ((v, .fin c) :: acc) p - r := fun p => by
      rw [Row.total_cons, Row.termAt, Exact.toField_fin]
      ring
    exact ⟨r, rfl, List.forall_mem_cons.mpr ⟨rfl, hfin⟩, fun p _ => (htotal p).le, fun _ => htotal⟩

/-- The coefficients are gone through from the variable `k` on. -/
theorem foldlM_dropStep {cs : List ℚ} {k : VarId} {acc acc' : List (VarId × Exact ℚ)} {r : ℚ} {rhs : Exact ℚ}
    (hfin : ∀ e ∈ acc, Scalar.isFinite e.2 = true)
    (hfold : ((cs.map Exact.fin).zipIdx k).foldlM (dropStep d) (acc, .fin r) = some (acc', rhs)) :
    ∃ r' : ℚ, rhs = .fin r' ∧ (∀ e ∈ acc', Scalar.isFinite e.2 = true) ∧
      (∀ p, d.Encloses p → Row.total acc p - r + ∑ i ∈ Finset.range cs.length, cs.getD i 0 * p.coord (k + i) ≤
        Row.total acc' p - r') ∧
      ((∀ c ∈ cs, Kept (.fin c)) → ∀ p, Row.total acc p - r +
        ∑ i ∈ Finset.range cs.length, cs.getD i 0 * p.coord (k + i) = Row.total acc' p - r') := by
  induction cs generalizing k acc r with
  | nil =>
    obtain ⟨rfl, rfl⟩ := Prod.mk.inj (Option.some.inj hfold)
    exact ⟨r, rfl, hfin, fun p _ => by simp, fun _ p => by simp⟩
  | cons c cs ih =>
    rw [List.map_cons, List.zipIdx_cons, List.foldlM_cons] at hfold
    obtain ⟨⟨acc₁, rhs₁⟩, hstep, hfold⟩ := Option.bind_eq_some_iff.mp hfold
    obtain ⟨r₁, rfl, hfin₁, hle₁, heq₁⟩ := dropStep_bounds hfin hstep
    obtain ⟨r', hr', hfin', hle', heq'⟩ := ih hfin₁ hfold
    have hsplit : ∀ p : Point, ∑ i ∈ Finset.range (c :: cs).length, (c :: cs).getD i 0 * p.coord (k + i) =
        c * p.coord k + ∑ i ∈ Finset.range cs.length, cs.getD i 0 * p.coord (k + 1 + i) := fun p => by
      rw [List.length_cons, Finset.sum_range_succ', add_comm]
      congr 1
      exact Finset.sum_congr rfl fun i _ => by rw [Nat.add_right_comm]; rfl
    refine ⟨r', hr', hfin', fun p hp => ?_, fun hkept p => ?_⟩
    · rw [hsplit]
      linarith [hle₁ p hp, hle' p hp]
    · obtain ⟨hc, hcs⟩ := List.forall_mem_cons.mp hkept
      rw [hsplit]
      linarith [heq₁ hc p, heq' hcs p]

/-- **Dropping tiny coefficients loses no point of the domain**, and nothing is lost at all if
none is dropped. -/
theorem dropTiny?_bounds {c : Point} {r : ℚ} {coefs : List (VarId × Exact ℚ)} {rhs : Exact ℚ}
    (hdrop : dropTiny? d ⟨c.vector, .fin r⟩ = some (coefs, rhs)) :
    ∃ r' : ℚ, rhs = .fin r' ∧ (∀ e ∈ coefs, Scalar.isFinite e.2 = true) ∧
      (∀ p, d.Encloses p → c.dot p - r ≤ Row.total coefs p - r') ∧
      ((∀ a ∈ c.vector, Kept a) → ∀ p, c.dot p - r = Row.total coefs p - r') := by
  rw [dropTiny?_eq] at hdrop
  obtain ⟨⟨acc, rhs₁⟩, hfold, hpair⟩ := Option.map_eq_some_iff.mp hdrop
  obtain ⟨rfl, rfl⟩ := Prod.mk.inj hpair
  simp only [Point.vector, Array.toList_map] at hfold
  obtain ⟨r', hr', hfin, hle, heq⟩ := foldlM_dropStep (by simp) hfold
  have hdot : ∀ p : Point, Row.total [] p - r + ∑ i ∈ Finset.range c.toList.length, c.toList.getD i 0 * p.coord (0 + i) =
      c.dot p - r := fun p => by
    rw [Row.total_nil, Point.dot, Array.length_toList]
    simp only [zero_add, Point.coord, List.getD_eq_getElem?_getD, Array.getElem?_toList, Array.getD_eq_getD_getElem?]
    ring
  have hreverse : ∀ p, Row.total acc.reverse p = Row.total acc p := fun p => Row.total_perm (List.reverse_perm acc)
  refine ⟨r', hr', fun e he => hfin e (List.mem_reverse.mp he), fun p hp => ?_, fun hkept p => ?_⟩
  · rw [hreverse, ← hdot]
    exact hle p hp
  · rw [hreverse, ← hdot]
    exact heq (fun a ha => hkept _ (Array.mem_map.mpr ⟨a, Array.mem_toList_iff.mp ha, rfl⟩)) p

end Gomory

/-! ## Tableau rows -/

namespace TableauRow

/-- The equation of a tableau row holds for these values of the basic variable and the columns. -/
def Balanced (row : TableauRow (Exact ℚ)) (basic : Exact ℚ) (values : TableauEntry (Exact ℚ) → Exact ℚ) : Prop :=
  basic + Scalar.sum (row.entries.map fun e => e.coef * values e) = 0

instance (row : TableauRow (Exact ℚ)) (basic : Exact ℚ) (values : TableauEntry (Exact ℚ) → Exact ℚ) :
    Decidable (row.Balanced basic values) := inferInstanceAs (Decidable (_ = _))

variable {row : TableauRow (Exact ℚ)}

/-- An equation that holds has finite terms. -/
theorem Balanced.finite {basic : Exact ℚ} {values : TableauEntry (Exact ℚ) → Exact ℚ} (h : row.Balanced basic values) :
    Scalar.isFinite basic = true ∧
      ∀ e ∈ row.entries, Scalar.isFinite e.coef = true ∧ Scalar.isFinite (values e) = true := by
  have hsum : Scalar.isFinite (basic + Scalar.sum (row.entries.map fun e => e.coef * values e)) = true := by
    rw [h]
    exact Exact.isFinite_fin _
  obtain ⟨hbasic, hterms⟩ := Exact.isFinite_of_add hsum
  exact ⟨hbasic, fun e he => Exact.isFinite_of_mul (finite_of_sum hterms _ (List.mem_map_of_mem he))⟩

theorem Balanced.sum_eq {b : ℚ} {values : TableauEntry (Exact ℚ) → Exact ℚ} (h : row.Balanced (.fin b) values) :
    b + (row.entries.map fun e => e.coef.toField * (values e).toField).sum = 0 := by
  obtain ⟨-, hfinite⟩ := h.finite
  have hterm : ∀ e ∈ row.entries, e.coef * values e = .fin (e.coef.toField * (values e).toField) := fun e he => by
    rw [← Exact.fin_mul, Exact.fin_toField (hfinite e he).1, Exact.fin_toField (hfinite e he).2]
  unfold Balanced at h
  rw [sum_map_fin hterm, Exact.zero_def] at h
  exact Exact.fin.inj h

end TableauRow

namespace Gomory

variable {f₀ β : ℚ} {row : TableauRow (Exact ℚ)}

/-- The basic variable moves from its value by the distances, each at its rate. -/
theorem sum_rate_mul_dist (hsign : ∀ e ∈ row.entries, e.sign ≠ 0) (hvalue : row.Balanced (.fin β) TableauEntry.value)
    (hpoint : row.Balanced (.fin (p.coord row.basic)) fun e => e.col.valueAt rowOf p) :
    (row.entries.map fun e => e.rate * e.dist rowOf p).sum = β - p.coord row.basic := by
  have hterm : ∀ e ∈ row.entries, e.coef.toField * (e.col.valueAt rowOf p).toField =
      e.coef.toField * e.value.toField + e.rate * e.dist rowOf p := by
    intro e he
    have hsquare : e.sign * e.sign = 1 := e.sign_mul_sign (hsign e he)
    calc e.coef.toField * (e.col.valueAt rowOf p).toField
        = e.coef.toField * e.value.toField +
            1 * (e.coef.toField * ((e.col.valueAt rowOf p).toField - e.value.toField)) := by ring
      _ = e.coef.toField * e.value.toField + e.rate * e.dist rowOf p := by
          rw [← hsquare, TableauEntry.rate, TableauEntry.dist]
          ring
  have hmoved := hpoint.sum_eq
  rw [List.map_congr_left hterm, List.sum_map_add] at hmoved
  linarith [hvalue.sum_eq]

/-- The slopes differ from the rates where the distance is an integer, and by an integer. -/
theorem exists_int_sub_slope_mul {e : TableauEntry (Exact ℚ)} (hp : d.Encloses p)
    (hint : ∀ v, e.col = .var v → d.isIntegral v = true → ∃ z : ℤ, e.value = .fin (z : ℚ)) :
    ∃ z : ℤ, (e.rate - slope f₀ e.rate (isIntegralEntry d e)) * e.dist rowOf p = z := by
  cases hentry : isIntegralEntry d e with
  | false => exact ⟨0, by rw [slope_of_not_integral, sub_self, zero_mul, Int.cast_zero]⟩
  | true =>
    cases hcol : e.col with
    | slack key => simp [isIntegralEntry, hcol] at hentry
    | var v =>
      have hv : d.isIntegral v = true := by
        simp only [isIntegralEntry, hcol, Bool.and_eq_true] at hentry
        exact hentry.1
      obtain ⟨b, hb⟩ := hint v hcol hv
      obtain ⟨x, hx⟩ := hp.integral v hv
      obtain ⟨k, hk⟩ := exists_int_sub_slope f₀ e.rate
      have hdist : ∃ t : ℤ, e.dist rowOf p = t := by
        unfold TableauEntry.dist TableauEntry.sign
        rw [hcol, hb, LpColumn.valueAt, hx]
        simp only [Exact.toField_fin]
        cases e.status with
        | atLower => exact ⟨x - b, by push_cast; ring⟩
        | atUpper => exact ⟨b - x, by push_cast; ring⟩
        | basic => exact ⟨0, by simp⟩
        | atZero => exact ⟨0, by simp⟩
      obtain ⟨t, ht⟩ := hdist
      exact ⟨k * t, by rw [hk, ht, Int.cast_mul]⟩

omit [Rooted ℚ] in
theorem exists_int_sum {ι : Type} {l : List ι} {f : ι → ℚ} (h : ∀ j ∈ l, ∃ z : ℤ, f j = z) :
    ∃ z : ℤ, (l.map f).sum = z := by
  induction l with
  | nil => exact ⟨0, by simp⟩
  | cons j l ih =>
    obtain ⟨⟨z, hz⟩, hrest⟩ := List.forall_mem_cons.mp h
    obtain ⟨y, hy⟩ := ih hrest
    exact ⟨z + y, by rw [List.map_cons, List.sum_cons, hz, hy, Int.cast_add]⟩

/-- **The weighted distances of a point of the domain with an integral basic value sum up to
one at least.** -/
theorem one_le_sum_weighted (hpos : 0 < Int.fract β) (hsound : ∀ e ∈ row.entries, e.Sound rowOf d.numVars)
    (hsign : ∀ e ∈ row.entries, e.sign ≠ 0) (hvalue : row.Balanced (.fin β) TableauEntry.value)
    (hint : ∀ e ∈ row.entries, ∀ v, e.col = .var v → d.isIntegral v = true → ∃ z : ℤ, e.value = .fin (z : ℚ))
    (hp : d.Encloses p) (hadmits : ∀ e ∈ row.entries, e.Admits rowOf p)
    (hpoint : row.Balanced (.fin (p.coord row.basic)) fun e => e.col.valueAt rowOf p) (hbasic : p.IsInt row.basic) :
    1 ≤ (row.entries.map (weighted (Int.fract β) d rowOf p)).sum := by
  obtain ⟨x, hx⟩ := hbasic
  obtain ⟨k, hk⟩ := exists_int_sum
    (f := fun e => (e.rate - slope (Int.fract β) e.rate (isIntegralEntry d e)) * e.dist rowOf p)
    fun e he => exists_int_sub_slope_mul hp (hint e he)
  have hrates := sum_rate_mul_dist hsign hvalue hpoint
  have hslopes : (row.entries.map fun e => slope (Int.fract β) e.rate (isIntegralEntry d e) * e.dist rowOf p).sum =
      Int.fract β + ((⌊β⌋ - x - k : ℤ) : ℚ) := by
    have hsplit : ∀ e ∈ row.entries, e.rate * e.dist rowOf p =
        slope (Int.fract β) e.rate (isIntegralEntry d e) * e.dist rowOf p +
          (e.rate - slope (Int.fract β) e.rate (isIntegralEntry d e)) * e.dist rowOf p := fun e _ => by ring
    rw [List.map_congr_left hsplit, List.sum_map_add, hk, hx] at hrates
    push_cast
    linarith [Int.floor_add_fract β]
  exact one_le_sum_gain hpos (Int.fract_lt_one β) (fun e he => (hsound e he).dist_nonneg (hadmits e he)) hslopes

/-- The coefficients and the right-hand side that the entries of a row sum up to. -/
def draft? (d : Domains (Exact ℚ)) (rowOf : RowKey → Option (Row (Exact ℚ))) (row : TableauRow (Exact ℚ)) :
    Option (Draft (Exact ℚ)) :=
  row.entries.foldlM (withEntry d rowOf (Scalar.frac row.value)) { dense := Array.replicate d.numVars 0, rhs := 1 }

/-- How a cut comes about. -/
theorem cutOf?_cases {s : GomorySettings (Exact ℚ)} {cut : Row (Exact ℚ)} (hcut : cutOf? s d rowOf row = some cut) :
    ¬ Scalar.frac row.value < s.minFrac ∧ ∃ draft coefs rhs, draft? d rowOf row = some draft ∧
      dropTiny? d draft = some (coefs, rhs) ∧ cut = Row.greaterEqual coefs rhs := by
  unfold cutOf? at hcut
  dsimp only at hcut
  split at hcut
  · cases hcut
  · next hwindow =>
    obtain ⟨draft, hdraft, hcut⟩ := Option.bind_eq_some_iff.mp hcut
    obtain ⟨⟨coefs, rhs⟩, hdrop, hcut⟩ := Option.bind_eq_some_iff.mp hcut
    refine ⟨fun hlt => hwindow (by simp [hlt]), draft, coefs, rhs, hdraft, hdrop, ?_⟩
    split at hcut
    · cases hcut
    · dsimp only at hcut
      split at hcut
      · cases hcut
      · exact (Option.some.inj hcut).symm

theorem fract_pos {minFrac : Exact ℚ} (hfrac : 0 < minFrac) (hwindow : ¬ .fin (Int.fract β) < minFrac) :
    0 < Int.fract β := by
  rw [Exact.zero_def] at hfrac
  cases minFrac with
  | fin m => exact lt_of_lt_of_le hfrac (not_lt.mp hwindow)
  | posInf => exact (hwindow trivial).elim
  | negInf => exact hfrac.elim
  | nan => exact hfrac.elim

/-- What falls short of the left-hand side of a row with no other violates it by that. -/
theorem violation_greaterEqual {coefs : List (VarId × Exact ℚ)} (hfin : ∀ c ∈ coefs, Scalar.isFinite c.2 = true)
    {r a : ℚ} (ha : 0 ≤ a) (q : Point) (h : Row.total coefs q - r = -a) :
    (Row.greaterEqual coefs (.fin r)).violation q.vector = .fin a := by
  have hact : (Row.greaterEqual coefs (.fin r)).activity q.vector = .fin (r - a) := by
    rw [Row.greaterEqual, Row.activity_of hfin]
    congr 1
    linarith
  have hleft : (Exact.fin r : Exact ℚ) - .fin (r - a) = .fin a := by
    rw [Exact.fin_sub, sub_sub_cancel]
  have hright : Scalar.max (Exact.fin a : Exact ℚ) (.fin (r - a) - Scalar.inf) = .fin a := rfl
  unfold Row.violation
  rw [hact]
  dsimp only [Row.greaterEqual, Row.of]
  rw [hleft, hright, Exact.zero_def, Exact.max_fin, max_eq_left ha]

/-- **What a cut says:** its sum exceeds its right-hand side by no less than the weighted
distances exceed one, and by no more if no coefficient was dropped. -/
theorem cutOf?_spec {s : GomorySettings (Exact ℚ)} {cut : Row (Exact ℚ)} (hfrac : 0 < s.minFrac)
    (hcols : ∀ e ∈ row.entries, e.col.Exists rowOf d.numVars) (hvalue : row.Balanced row.value TableauEntry.value)
    (hcut : cutOf? s d rowOf row = some cut) :
    ∃ (β : ℚ) (coefs : List (VarId × Exact ℚ)) (r : ℚ), row.value = .fin β ∧ 0 < Int.fract β ∧
      (∀ e ∈ row.entries, e.Sound rowOf d.numVars) ∧ (∀ e ∈ row.entries, e.sign ≠ 0) ∧
      cut = Row.greaterEqual coefs (.fin r) ∧ (∀ c ∈ coefs, Scalar.isFinite c.2 = true) ∧
      (∀ p, d.Encloses p → (row.entries.map (weighted (Int.fract β) d rowOf p)).sum - 1 ≤ Row.total coefs p - r) ∧
      ((∀ draft, draft? d rowOf row = some draft → ∀ c ∈ draft.dense, Kept c) →
        ∀ p, (row.entries.map (weighted (Int.fract β) d rowOf p)).sum - 1 = Row.total coefs p - r) := by
  obtain ⟨hwindow, draft, coefs, rhs, hdraft, hdrop, rfl⟩ := cutOf?_cases hcut
  obtain ⟨hβ, hfinite⟩ := hvalue.finite
  obtain ⟨β, hβ⟩ := Exact.isFinite_iff.mp hβ
  rw [hβ, Exact.frac_fin] at hwindow
  have hsound : ∀ e ∈ row.entries, e.Sound rowOf d.numVars := fun e he =>
    ⟨hcols e he, (hfinite e he).1, (hfinite e he).2⟩
  have hpos : 0 < Int.fract β := fract_pos hfrac hwindow
  have hstart : (⟨Array.replicate d.numVars 0, 1⟩ : Draft (Exact ℚ)) =
      ⟨Point.vector (Array.replicate d.numVars 0), .fin 1⟩ := by
    rw [Point.vector, Array.map_replicate, Exact.zero_def, Exact.one_def]
  have hfold := hdraft
  rw [draft?, hβ, Exact.frac_fin, hstart] at hfold
  obtain ⟨hsign, c, r, rfl, -, hsum⟩ := foldlM_withEntry hpos (Int.fract_lt_one β) hsound Array.size_replicate hfold
  have hdot : ∀ p, c.dot p - r = (row.entries.map (weighted (Int.fract β) d rowOf p)).sum - 1 := fun p => by
    have hzero : Point.dot (Array.replicate d.numVars 0) p = 0 := Finset.sum_eq_zero fun v _ => by
      rw [Point.coord, getD_replicate, zero_mul]
    rw [hsum, hzero]
    ring
  obtain ⟨r', rfl, hfin, hdropped, hexact⟩ := dropTiny?_bounds hdrop
  exact ⟨β, coefs, r', hβ, hpos, hsound, hsign, rfl, hfin, fun p hp => hdot p ▸ hdropped p hp,
    fun hkept p => (hdot p).symm.trans (hexact (hkept _ hdraft) p)⟩

/-- A cut is proper, and a point of the domain with an integral basic value satisfies it. -/
theorem cutOf?_holds {s : GomorySettings (Exact ℚ)} {cut : Row (Exact ℚ)} (hfrac : 0 < s.minFrac)
    (hcols : ∀ e ∈ row.entries, e.col.Exists rowOf d.numVars) (hvalue : row.Balanced row.value TableauEntry.value)
    (hint : ∀ e ∈ row.entries, ∀ v, e.col = .var v → d.isIntegral v = true → ∃ z : ℤ, e.value = .fin (z : ℚ))
    (hcut : cutOf? s d rowOf row = some cut) :
    cut.Proper ∧ ∀ p : Point, d.Encloses p → (∀ e ∈ row.entries, e.Admits rowOf p) →
      row.Balanced (.fin (p.coord row.basic)) (fun e => e.col.valueAt rowOf p) → p.IsInt row.basic → cut.Holds p := by
  obtain ⟨β, coefs, r, hβ, hpos, hsound, hsign, rfl, hfin, hbound, -⟩ := cutOf?_spec hfrac hcols hvalue hcut
  rw [hβ] at hvalue
  refine ⟨Row.of_proper hfin _ _, fun p hp hadmits hpoint hbasic => ?_⟩
  have hone := one_le_sum_weighted hpos hsound hsign hvalue hint hp hadmits hpoint hbasic
  rw [Row.Holds, Row.greaterEqual, Row.activity_of hfin]
  refine ⟨?_, trivial⟩
  show Exact.fin r ≤ .fin (Row.total coefs p)
  rw [Exact.fin_le]
  linarith [hbound p hp]

/-- **Gomory cuts are valid and separate.** A tableau row holds at the values of its columns,
and those of integral variables are integers. If it gives a cut, every point of the domain
that is inside the bounds the columns are at, satisfies the equation of the row and has an
integral basic value satisfies the cut. If no coefficient was dropped, a point at these bounds
violates it by one. -/
theorem cut_valid {s : GomorySettings (Exact ℚ)} {cut : Row (Exact ℚ)} (hfrac : 0 < s.minFrac)
    (hcols : ∀ e ∈ row.entries, e.col.Exists rowOf d.numVars)
    (hvalue : row.Balanced row.value TableauEntry.value)
    (hint : ∀ e ∈ row.entries, ∀ v, e.col = .var v → d.isIntegral v = true → ∃ z : ℤ, e.value = .fin (z : ℚ))
    (hcut : cutOf? s d rowOf row = some cut) :
    (∀ p : Point, d.Encloses p → (∀ e ∈ row.entries, e.Admits rowOf p) →
      row.Balanced (.fin (p.coord row.basic)) (fun e => e.col.valueAt rowOf p) → p.IsInt row.basic → cut.Holds p) ∧
    ((∀ draft, draft? d rowOf row = some draft → ∀ c ∈ draft.dense, Kept c) →
      ∀ q : Point, (∀ e ∈ row.entries, e.col.valueAt rowOf q = e.value) → cut.violation q.vector = 1) := by
  refine ⟨(cutOf?_holds hfrac hcols hvalue hint hcut).2, fun hkept q hq => ?_⟩
  obtain ⟨β, coefs, r, -, -, -, -, rfl, hfin, -, hexact⟩ := cutOf?_spec hfrac hcols hvalue hcut
  have hdist : ∀ e ∈ row.entries, weighted (Int.fract β) d rowOf q e = 0 := fun e he => by
    rw [weighted, TableauEntry.dist, hq e he, sub_self, mul_zero, mul_zero]
  have hshort := hexact hkept q
  rw [List.map_congr_left hdist, List.sum_map_zero, zero_sub] at hshort
  rw [Exact.one_def]
  exact violation_greaterEqual hfin zero_le_one q hshort.symm

end Gomory

end

namespace Gomory

/-- The row `2 x + 2 y ≤ 3` at its upper side, `y` at zero: the cut is `x + y ≤ 1`. -/
theorem cut_valid_pair :
    let s : GomorySettings (Exact ℚ) := { minFrac := .fin (1 / 100), maxDynamism := .fin 1000000 }
    let d : Domains (Exact ℚ) := .new #[.fin 0, .fin 0] #[.fin 5, .fin 5] #[true, true] (.fin (1 / 1000000))
    let rowOf : RowKey → Option (Row (Exact ℚ)) := fun _ =>
      some { coefs := [(0, .fin 2), (1, .fin 2)], lhs := .negInf, rhs := .fin 3 }
    let row : TableauRow (Exact ℚ) := {
      basic := 0
      value := .fin (3 / 2)
      entries := [{ col := .var 1, coef := .fin 1, status := .atLower, value := .fin 0 },
        { col := .slack (.constraint 0 0), coef := .fin (-1 / 2), status := .atUpper, value := .fin 3 }] }
    ∃ cut, cutOf? s d rowOf row = some cut ∧ cut.Holds #[1, 0] ∧ cut.violation (Point.vector #[3 / 2, 0]) = 1 := by
  intro s d rowOf row
  have hsome : (cutOf? s d rowOf row).isSome = true := by decide +kernel
  obtain ⟨cut, hcut⟩ := Option.isSome_iff_exists.mp hsome
  have hcols : ∀ e ∈ row.entries, e.col.Exists rowOf d.numVars := by
    intro e he
    simp only [row, List.mem_cons, List.not_mem_nil, or_false] at he
    rcases he with rfl | rfl
    · exact (by decide : 1 < 2)
    · exact ⟨_, rfl, by decide +kernel⟩
  have hint : ∀ e ∈ row.entries, ∀ v, e.col = .var v → d.isIntegral v = true → ∃ z : ℤ, e.value = .fin (z : ℚ) := by
    intro e he v hcol _
    simp only [row, List.mem_cons, List.not_mem_nil, or_false] at he
    rcases he with rfl | rfl
    · exact ⟨0, by simp⟩
    · cases hcol
  have hdraft : (draft? d rowOf row).map Draft.dense = some #[.fin (-2), .fin (-2)] := by decide +kernel
  obtain ⟨hvalid, hexact⟩ := cut_valid (by decide +kernel) hcols (by decide +kernel) hint hcut
  refine ⟨cut, hcut, hvalid #[1, 0] ?_ ?_ (by decide +kernel) ⟨1, by decide +kernel⟩, hexact ?_ _ (by decide +kernel)⟩
  · exact Domains.encloses_of_lt (by decide) rfl (by decide +kernel) (by decide +kernel)
  · decide +kernel
  · intro draft h c hc
    rw [h] at hdraft
    rw [Option.some.inj hdraft] at hc
    have hkept : ∀ c ∈ [(.fin (-2) : Exact ℚ), .fin (-2)], Kept c := by decide +kernel
    exact hkept c (Array.mem_toList_iff.mpr hc)

end Gomory

/-! ## The separator -/

section

variable [Rooted ℚ] {rowOf : RowKey → Option (Row (Exact ℚ))}

/-- The bound of a column that a status names, and zero for a column at none. -/
def LpColumn.boundOf (rowOf : RowKey → Option (Row (Exact ℚ))) (lower upper : Array (Exact ℚ)) :
    LpColumn → Lp.ColumnStatus → Exact ℚ
  | .var v, .atLower => lower.getD v 0
  | .var v, .atUpper => upper.getD v 0
  | .slack key, .atLower => (rowOf key).elim 0 (·.lhs)
  | .slack key, .atUpper => (rowOf key).elim 0 (·.rhs)
  | _, .basic => 0
  | _, .atZero => 0

/-- A tableau row of one of the variables is right: it names columns that there are, these
are at the bounds that their statuses name, and its equation holds for their values and for
every point. -/
structure TableauRow.Right (rowOf : RowKey → Option (Row (Exact ℚ))) (lower upper : Array (Exact ℚ)) (numVars : Nat)
    (vars : List VarId) (row : TableauRow (Exact ℚ)) : Prop where
  basic : row.basic ∈ vars
  columns : ∀ e ∈ row.entries, e.col.Exists rowOf numVars
  bounds : ∀ e ∈ row.entries, e.value = e.col.boundOf rowOf lower upper e.status
  value : row.Balanced row.value TableauEntry.value
  equation : ∀ p : Point, p.size = numVars →
    row.Balanced (.fin (p.coord row.basic)) fun e => e.col.valueAt rowOf p

namespace TableauRow.Right

variable {d : Domains (Exact ℚ)} {vars : List VarId} {row : TableauRow (Exact ℚ)} {e : TableauEntry (Exact ℚ)}

/-- A point of the domain that satisfies the rows is inside the bounds the columns are at. -/
theorem admits (h : row.Right rowOf d.lower d.upper d.numVars vars) (he : e ∈ row.entries) {x : Point}
    (hx : d.Encloses x) (hrows : ∀ key r, rowOf key = some r → r.Holds x) : e.Admits rowOf x := by
  have hcol := h.columns e he
  have hbound := h.bounds e he
  obtain ⟨col, coef, status, value⟩ := e
  simp only at hbound hcol
  subst hbound
  cases status with
  | basic => trivial
  | atZero => trivial
  | atLower =>
    cases col with
    | var v => exact hx.lower v
    | slack key =>
      obtain ⟨r, hr, -⟩ := hcol
      simp only [TableauEntry.Admits, LpColumn.valueAt, LpColumn.boundOf, hr, Option.elim_some]
      exact (hrows key r hr).1
  | atUpper =>
    cases col with
    | var v => exact hx.upper v
    | slack key =>
      obtain ⟨r, hr, -⟩ := hcol
      simp only [TableauEntry.Admits, LpColumn.valueAt, LpColumn.boundOf, hr, Option.elim_some]
      exact (hrows key r hr).2

/-- The value of an integral variable at a whole bound is an integer. -/
theorem exists_int (h : row.Right rowOf d.lower d.upper d.numVars vars) (he : e ∈ row.entries)
    (hsound : e.Sound rowOf d.numVars) {v : VarId} (hcol : e.col = .var v)
    (hwhole : Scalar.Whole (d.lb v) ∧ Scalar.Whole (d.ub v)) : ∃ z : ℤ, e.value = .fin (z : ℚ) := by
  obtain ⟨b, hb⟩ := Exact.isFinite_iff.mp hsound.value
  have hbound := h.bounds e he
  rw [hcol, hb] at hbound
  have hcase : (.fin b : Exact ℚ) = d.lb v ∨ (.fin b : Exact ℚ) = d.ub v ∨ (.fin b : Exact ℚ) = 0 := by
    cases hs : e.status with
    | basic => exact .inr (.inr (by rw [hbound, hs]; rfl))
    | atZero => exact .inr (.inr (by rw [hbound, hs]; rfl))
    | atLower => exact .inl (by rw [hbound, hs]; rfl)
    | atUpper => exact .inr (.inl (by rw [hbound, hs]; rfl))
  rw [hb]
  rcases hcase with hb | hb | hb
  · obtain ⟨z, rfl⟩ := Exact.exists_int_of_whole (hb ▸ hwhole.1)
    exact ⟨z, rfl⟩
  · obtain ⟨z, rfl⟩ := Exact.exists_int_of_whole (hb ▸ hwhole.2)
    exact ⟨z, rfl⟩
  · exact ⟨0, by rw [hb, Exact.zero_def, Int.cast_zero]⟩

end TableauRow.Right

namespace Gomory

/-- The variables whose rows are asked for are integral. -/
theorem isIntegral_of_mem_sources {s : GomorySettings (Exact ℚ)} {p : Fractional (Exact ℚ)} {v : VarId}
    (hv : v ∈ sources s p) : p.domains.isIntegral v = true := by
  unfold sources at hv
  obtain ⟨⟨w, a⟩, hmem, rfl⟩ := List.mem_map.mp hv
  obtain ⟨u, -, hsome⟩ := List.mem_filterMap.mp (List.mem_mergeSort.mp hmem)
  split at hsome
  · next hcandidate =>
    dsimp only at hsome
    split at hsome
    · cases hsome
      exact (Bool.and_eq_true_iff.mp hcandidate).1
    · cases hsome
  · cases hsome

/-- Where the cuts come from: rows of the tableau of the variables asked for. Below the root they
are local. -/
theorem rows_of_separate {s : GomorySettings (Exact ℚ)} {p : Fractional (Exact ℚ)} {cuts : List (Cut (Exact ℚ))}
    {tableauRows : List VarId → Except (Error (Exact ℚ)) (List (TableauRow (Exact ℚ)))}
    (hcuts : separate s p tableauRows rowOf = .ok cuts) : cuts = [] ∨ ∃ rows, tableauRows (sources s p) = .ok rows ∧
      ∀ cut ∈ cuts, cut.isLocal = decide (0 < p.depth) ∧ ∃ row ∈ rows, cutOf? s p.domains rowOf row = some cut.row := by
  unfold separate at hcuts
  split at hcuts
  · exact .inl (Except.ok.inj hcuts).symm
  · dsimp only at hcuts
    split at hcuts
    · exact .inl (Except.ok.inj hcuts).symm
    · cases hrows : tableauRows (sources s p) with
      | error err =>
        rw [hrows] at hcuts
        cases hcuts
      | ok rows =>
        rw [hrows] at hcuts
        refine .inr ⟨rows, rfl, fun cut hcut => ?_⟩
        rw [← Except.ok.inj hcuts] at hcut
        obtain ⟨row, hrow, hsome⟩ := List.mem_filterMap.mp (List.mem_of_mem_take hcut)
        obtain ⟨r, hr, rfl⟩ := Option.map_eq_some_iff.mp hsome
        exact ⟨rfl, row, List.mem_mergeSort.mp hrow, hr⟩

/-- **The cuts of the separator hold** where the tableau is right: they are proper, and every
point of the domain that satisfies the rows satisfies them. -/
theorem separate_holds {s : GomorySettings (Exact ℚ)} {p : Fractional (Exact ℚ)} {cuts : List (Cut (Exact ℚ))}
    {tableauRows : List VarId → Except (Error (Exact ℚ)) (List (TableauRow (Exact ℚ)))} (hfrac : 0 < s.minFrac)
    (hwhole : ∀ v, p.domains.isIntegral v = true → Scalar.Whole (p.domains.lb v) ∧ Scalar.Whole (p.domains.ub v))
    (hright : ∀ rows, tableauRows (sources s p) = .ok rows → ∀ row ∈ rows,
      row.Right rowOf p.domains.lower p.domains.upper p.domains.numVars (sources s p))
    (hcuts : separate s p tableauRows rowOf = .ok cuts) : ∀ cut ∈ cuts, (cut.isLocal = true ∨ p.depth = 0) ∧
      cut.row.Proper ∧ ∀ x : Point, x.size = p.domains.numVars → p.domains.Encloses x →
        (∀ key row, rowOf key = some row → row.Holds x) → cut.row.Holds x := by
  rcases rows_of_separate hcuts with rfl | ⟨rows, hrows, hmem⟩
  · nofun
  intro cut hcut
  obtain ⟨hlocal, row, hrow, hcutOf⟩ := hmem cut hcut
  have hr := hright rows hrows row hrow
  obtain ⟨-, -, -, -, -, hsound, -⟩ := cutOf?_spec hfrac hr.columns hr.value hcutOf
  obtain ⟨hproper, hholds⟩ := cutOf?_holds hfrac hr.columns hr.value
    (fun e he v hcol hv => hr.exists_int he (hsound e he) hcol (hwhole v hv)) hcutOf
  refine ⟨?_, hproper, fun x hsize hx hrowsHold => hholds x hx (fun e he => hr.admits he hx hrowsHold)
    (hr.equation x hsize) (hx.integral _ (isIntegral_of_mem_sources hr.basic))⟩
  rw [hlocal, decide_eq_true_eq]
  exact (Nat.eq_zero_or_pos p.depth).symm

end Gomory

end

end BranchAndCut
