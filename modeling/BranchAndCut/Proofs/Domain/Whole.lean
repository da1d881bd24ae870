import BranchAndCut.Proofs.Domain.Enclosure
import BranchAndCut.Proofs.Domain.Levels
import BranchAndCut.Proofs.Machine.Number

/-! # Bounds of integral variables are whole

Bounds of integral variables are rounded when they are created and whenever they are
tightened, so that they are whole at all times, and the local domain lies in the global
one. So a domain of whole bounds that are closer than the tolerance is a single number.

What is used of the way that numbers are rounded is listed as a class of laws, which exact
numbers obey and machine numbers as well. -/

namespace BranchAndCut

/-- A whole number, or an infinity: rounding leaves it as it is. -/
def Scalar.Whole {K : Type} [Scalar K] (a : K) : Prop := Scalar.floor a = a

theorem Scalar.Whole.min {K : Type} [Scalar K] {a b : K} (ha : Whole a) (hb : Whole b) : Whole (Scalar.min a b) := by
  rcases min_cases a b with heq | heq
  · rwa [heq]
  · rwa [heq]

theorem Scalar.Whole.max {K : Type} [Scalar K] {a b : K} (ha : Whole a) (hb : Whole b) : Whole (Scalar.max a b) := by
  rcases max_cases a b with heq | heq
  · rwa [heq]
  · rwa [heq]

open Scalar Domains in
/-- How values are rounded, and how values compare that differ by less than a tolerance. -/
class Scalar.Rounds (K : Type) [Scalar K] : Prop where
  whole_zero : Whole (0 : K)
  whole_one : Whole (1 : K)
  whole_floor : ∀ a : K, Whole (floor a)
  whole_ceil : ∀ a : K, Whole (ceil a)
  defined_zero : isNaN (0 : K) = false
  defined_one : isNaN (1 : K) = false
  defined_floor : ∀ {a : K}, isNaN a = false → isNaN (floor a) = false
  defined_ceil : ∀ {a : K}, isNaN a = false → isNaN (ceil a) = false
  /-- A tolerance does not make a value undefined. -/
  defined_sub : ∀ {a t : K}, isNaN a = false → 0 < t → t < 0.5 → isNaN (a - t) = false
  defined_add : ∀ {a t : K}, isNaN a = false → 0 < t → t < 0.5 → isNaN (a + t) = false
  /-- What exceeds a bound by more than the slack exceeds it. -/
  le_of_not_le_add : ∀ {l a : K}, isNaN l = false → isNaN a = false → ¬ a ≤ l + boundEps l → l ≤ a
  le_of_not_sub_le : ∀ {u a : K}, isNaN u = false → isNaN a = false → ¬ u - boundEps u ≤ a → a ≤ u
  /-- Whole numbers that differ do so by more than a tolerance below one half. -/
  le_of_not_add_lt : ∀ {l u t : K}, Whole l → Whole u → isNaN l = false → isNaN u = false → 0 < t → t < 0.5 →
    ¬ u + t < l → l ≤ u
  /-- A value between whole numbers that are closer than the tolerance is whole. -/
  near_of_pinned : ∀ {l u t x ε : K}, Whole l → Whole u → u - l ≤ t → t < 0.5 → l ≤ x → x ≤ u → 0 < ε →
    Scalar.abs (x - round x) ≤ ε

/-! ## Exact numbers -/

namespace Exact

variable {F : Type} [Field F] [LinearOrder F] [FloorRing F] [Rooted F]

theorem whole_fin {a : F} : Scalar.Whole (fin a) ↔ (⌊a⌋ : F) = a := by
  unfold Scalar.Whole
  rw [floor_fin, fin.injEq]

theorem exists_int_of_whole {a : F} (h : Scalar.Whole (fin a)) : ∃ z : ℤ, a = z := ⟨⌊a⌋, (whole_fin.mp h).symm⟩

variable [IsStrictOrderedRing F]

theorem whole_intCast (z : ℤ) : Scalar.Whole (fin (z : F)) := whole_fin.mpr (by rw [Int.floor_intCast])

/-- Whole numbers are their own ceilings. -/
theorem ceil_whole {x : Exact F} (hx : Scalar.Whole x) : Scalar.ceil x = x := by
  cases x with
  | fin a =>
    obtain ⟨z, rfl⟩ := exists_int_of_whole hx
    rw [ceil_fin, Int.ceil_intCast]
  | _ => rfl

omit [IsStrictOrderedRing F] in
theorem half_def : (0.5 : Exact F) = fin 2⁻¹ := by
  rw [scientific_def]
  norm_num

omit [IsStrictOrderedRing F] in
theorem exists_fin_of_tolerance {t : Exact F} (hpos : 0 < t) (hhalf : t < 0.5) :
    ∃ b : F, t = fin b ∧ 0 < b ∧ b < 2⁻¹ := by
  rw [zero_def] at hpos
  rw [half_def] at hhalf
  cases t with
  | fin b => exact ⟨b, rfl, hpos, hhalf⟩
  | nan => exact hpos.elim
  | negInf => exact hpos.elim
  | posInf => exact hhalf.elim

/-- Whole numbers that differ do so by more than what is below one. -/
theorem le_of_not_add_lt_whole {x y : Exact F} {a : F} (hx : Scalar.Whole x) (hy : Scalar.Whole y) (hdx : x ≠ nan)
    (hdy : y ≠ nan) (hlt : a < 1) (h : ¬ y + fin a < x) : x ≤ y := by
  cases x with
  | nan => exact (hdx rfl).elim
  | negInf =>
    cases y with
    | nan => exact (hdy rfl).elim
    | _ => trivial
  | posInf =>
    cases y with
    | nan => exact (hdy rfl).elim
    | posInf => trivial
    | _ => exact (h trivial).elim
  | fin x =>
    cases y with
    | nan => exact (hdy rfl).elim
    | posInf => trivial
    | negInf => exact (h trivial).elim
    | fin y =>
      obtain ⟨m, rfl⟩ := exists_int_of_whole hx
      obtain ⟨n, rfl⟩ := exists_int_of_whole hy
      rw [fin_add, fin_lt, not_lt] at h
      rw [fin_le, Int.cast_le, ← Int.lt_add_one_iff, ← Int.cast_lt (R := F)]
      push_cast
      linarith

omit [Rooted F] in
theorem nearest_intCast (z : ℤ) : nearest (z : F) = z := by
  unfold nearest
  split
  · congr 1
    rw [Int.floor_intCast_add, Int.floor_eq_zero_iff.mpr ⟨by norm_num, by norm_num⟩, add_zero]
  · congr 1
    rw [sub_eq_add_neg, Int.ceil_intCast_add, Int.ceil_eq_zero_iff.mpr ⟨by norm_num, by norm_num⟩, add_zero]

omit [IsStrictOrderedRing F] in
theorem ne_nan_of_defined {a : Exact F} (h : Scalar.isNaN a = false) : a ≠ nan := by
  rintro rfl
  cases h

end Exact

open Exact Scalar in
instance [Rooted ℚ] : Scalar.Rounds (Exact ℚ) where
  whole_zero := by
    rw [zero_def, ← Int.cast_zero]
    exact whole_intCast 0
  whole_one := by
    rw [one_def, ← Int.cast_one]
    exact whole_intCast 1
  whole_floor a := by
    cases a with
    | fin a => exact whole_intCast _
    | _ => rfl
  whole_ceil a := by
    cases a with
    | fin a => exact whole_intCast _
    | _ => rfl
  defined_zero := rfl
  defined_one := rfl
  defined_floor {a} h := by
    cases a with
    | nan => exact h
    | _ => rfl
  defined_ceil {a} h := by
    cases a with
    | nan => exact h
    | _ => rfl
  defined_sub {a t} h hpos hhalf := by
    obtain ⟨b, rfl, -⟩ := exists_fin_of_tolerance hpos hhalf
    cases a with
    | nan => exact h
    | _ => rfl
  defined_add {a t} h hpos hhalf := by
    obtain ⟨b, rfl, -⟩ := exists_fin_of_tolerance hpos hhalf
    cases a with
    | nan => exact h
    | _ => rfl
  le_of_not_le_add hl ha := Domains.le_of_not_le_add_boundEps (ne_nan_of_defined hl) (ne_nan_of_defined ha)
  le_of_not_sub_le hu ha := Domains.le_of_not_sub_boundEps_le (ne_nan_of_defined hu) (ne_nan_of_defined ha)
  le_of_not_add_lt hl hu hdl hdu hpos hhalf h := by
    obtain ⟨b, rfl, -, hb⟩ := exists_fin_of_tolerance hpos hhalf
    exact le_of_not_add_lt_whole hl hu (ne_nan_of_defined hdl) (ne_nan_of_defined hdu) (hb.trans two_inv_lt_one) h
  near_of_pinned {l u t x ε} hl hu hlu hhalf hlx hxu hε := by
    rw [half_def] at hhalf
    cases l with
    | fin l =>
      cases u with
      | fin u =>
        obtain ⟨y, rfl⟩ := exists_int_of_whole hl
        obtain ⟨z, rfl⟩ := exists_int_of_whole hu
        have hzy : z ≤ y := by
          cases t <;> first | exact hlu.elim | exact hhalf.elim | skip
          next t =>
          rw [fin_sub, fin_le] at hlu
          rw [fin_lt] at hhalf
          rw [← Int.lt_add_one_iff, ← Int.cast_lt (R := ℚ)]
          push_cast
          linarith
        cases x with
        | fin x =>
          have hx : x = (y : ℚ) := le_antisymm (le_trans hxu (Int.cast_le.mpr hzy)) hlx
          have hround : Scalar.round (fin x) = fin x := by
            rw [hx]
            exact congrArg fin (nearest_intCast y)
          rw [hround, fin_sub, sub_self, abs_fin, abs_zero, ← zero_def]
          exact Exact.le_of_lt hε
        | nan => exact hlx.elim
        | negInf => exact hlx.elim
        | posInf => exact hxu.elim
      | posInf => cases t <;> first | exact hlu.elim | exact hhalf.elim
      | _ => cases x <;> first | exact hxu.elim | exact hlx.elim
    | nan => exact hlx.elim
    | negInf => cases u <;> cases t <;> first | exact hlu.elim | exact hhalf.elim
    | posInf => cases x <;> cases u <;> first | exact hlx.elim | exact hxu.elim | exact hlu.elim

/-! ## Machine numbers -/

namespace Machine

open Float.Model UnpackedFloat

variable {a l u t x ε : Float}

theorem whole_iff (ha : Scalar.isNaN a = false) : Scalar.Whole a ↔ Integral a := floor_eq_iff ha

/-- A tolerance below one half is less than half of one. -/
theorem finite_of_tolerance (hpos : 0 < t) (hhalf : t < 0.5) :
    Scalar.isFinite t = true ∧ 0 < value t ∧ 2 * value t < unity := by
  have ht : Scalar.isNaN t = false := (Scalar.Ordered.defined_of_le (Scalar.Ordered.le_of_lt hpos)).2
  have hvalue : 0 < value t := (zero_lt_iff ht).mp hpos
  have hless : value t < value 0.5 := (lt_iff ht defined_half).mp hhalf
  have hone := value_half
  have hlimit := large_lt_limit
  refine ⟨(isFinite_iff ht).mpr ?_, hvalue, ?_⟩
  · omega
  · omega

/-- A slack is positive, though it may be infinite. -/
theorem boundEps_nonneg (a : Float) :
    Scalar.isNaN (Domains.boundEps a) = false ∧ 0 ≤ value (Domains.boundEps a) := by
  obtain ⟨-, -, -, -, -, hdefined, hpositive⟩ := constants
  have hfactor : (0 : Float) < 1e-9 := (zero_lt_iff hdefined).mpr hpositive
  have hone : (0 : Float) < 1 := (zero_lt_iff defined_one).mpr (value_one ▸ Int.natCast_pos.mpr unity_pos)
  have hmax : 0 < Scalar.max (Scalar.abs a) 1 :=
    Scalar.Ordered.lt_of_lt_of_le hone (Scalar.Ordered.le_max_right defined_one)
  exact ⟨Scalar.PositiveMul.defined_mul hfactor hmax, mul_nonneg hfactor hmax⟩

theorem le_of_not_le_add (hl : Scalar.isNaN l = false) (ha : Scalar.isNaN a = false)
    (h : ¬ a ≤ l + Domains.boundEps l) : l ≤ a := by
  obtain ⟨heps, hnonneg⟩ := boundEps_nonneg l
  rw [le_iff hl ha]
  by_cases hleast : value l = -limit
  · have := (fits_value ha).2
    omega
  · obtain ⟨hsum, htoward⟩ := add_toward .positive hl heps hnonneg hleast
    change 0 ≤ value (l + Domains.boundEps l) - value l at htoward
    rw [le_iff ha hsum] at h
    omega

theorem le_of_not_sub_le (hu : Scalar.isNaN u = false) (ha : Scalar.isNaN a = false)
    (h : ¬ u - Domains.boundEps u ≤ a) : a ≤ u := by
  obtain ⟨heps, hnonneg⟩ := boundEps_nonneg u
  rw [le_iff ha hu]
  by_cases hgreatest : value u = limit
  · have := (fits_value ha).2
    omega
  · have hdir : 0 ≤ Sign.negative.apply (value (-Domains.boundEps u)) := by
      rw [value_neg]
      exact hnonneg.trans_eq (neg_neg _).symm
    obtain ⟨hsum, htoward⟩ := add_toward .negative hu ((isNaN_neg _).trans heps) hdir fun heq =>
      hgreatest (heq.trans (neg_neg _))
    change 0 ≤ -(value (u + -Domains.boundEps u) - value u) at htoward
    rw [sub_eq_add_neg, le_iff hsum ha] at h
    omega

theorem le_of_not_add_lt (hl : Scalar.Whole l) (hu : Scalar.Whole u) (hdl : Scalar.isNaN l = false) (hdu : Scalar.isNaN u = false)
    (hpos : 0 < t) (hhalf : t < 0.5) (h : ¬ u + t < l) : l ≤ u := by
  obtain ⟨hfinite, hpositive, hsmall⟩ := finite_of_tolerance hpos hhalf
  by_contra hle
  refine h ?_
  rw [le_iff hdl hdu, not_le] at hle
  have hstep := add_unity_le ((whole_iff hdu).mp hu) ((whole_iff hdl).mp hl) hle
  rw [lt_iff (defined_add hdu hfinite) hdl]
  rcases finite_or_infinite hdu with ⟨hfu, hfits, hlt⟩ | ⟨-, sign, hunpack, hvalue⟩
  · -- the sum is no farther from the exact one than the bound itself
    have hnear := (add_finite hfu hfinite).2 _ hfits hlt.le
    have hsum : value (u + t) ≤ value u + 2 * value t := by
      clear hstep hsmall
      omega
    exact lt_of_lt_of_le (lt_of_le_of_lt hsum (Int.add_lt_add_left hsmall _)) hstep
  · obtain ⟨-, hsum⟩ := defined_of_infinite (add_infinite hunpack (.inl hfinite))
    rw [hsum, ← hvalue]
    exact hle

theorem near_of_pinned (hl : Scalar.Whole l) (hu : Scalar.Whole u) (hlu : u - l ≤ t) (hhalf : t < 0.5) (hlx : l ≤ x)
    (hxu : x ≤ u) (hε : 0 < ε) : Scalar.abs (x - Scalar.round x) ≤ ε := by
  obtain ⟨hdl, hdx⟩ := Scalar.Ordered.defined_of_le hlx
  obtain ⟨-, hdu⟩ := Scalar.Ordered.defined_of_le hxu
  obtain ⟨hdiff, -⟩ := Scalar.Ordered.defined_of_le hlu
  have hdε : Scalar.isNaN ε = false := (Scalar.Ordered.defined_of_le (Scalar.Ordered.le_of_lt hε)).2
  rw [whole_iff hdl] at hl
  rw [whole_iff hdu] at hu
  rw [le_iff hdl hdx] at hlx
  rw [le_iff hdx hdu] at hxu
  have hless : 2 * value (u - l) < unity := by
    have hlt := (lt_iff hdiff defined_half).mp (Scalar.Ordered.lt_of_le_of_lt hlu hhalf)
    rw [← value_half]
    omega
  have hlarge := large_lt_limit
  obtain ⟨hfl, hfu⟩ := finite_of_sub_lt hdl hdu (hlx.trans hxu) hdiff (by omega)
  have hsame := eq_of_sub_lt hl hu (hlx.trans hxu) hfl hfu hless
  have hx : value x = value l := by omega
  have hfx : Scalar.isFinite x = true := by rwa [isFinite_iff hdx, hx, ← isFinite_iff hdl]
  obtain ⟨hdefined, hzero⟩ := round_of_integral hfx (show (unity : ℤ) ∣ value x from hx ▸ hl)
  change (x - Scalar.round x).abs ≤ ε
  rw [le_iff ((isNaN_abs _).trans hdefined) hdε, value_abs, hzero]
  exact ((zero_lt_iff hdε).mp hε).le

end Machine

open Machine in
instance : Scalar.Rounds Float where
  whole_zero := (whole_iff defined_zero).mpr (show (unity : ℤ) ∣ value 0 from value_zero ▸ dvd_zero _)
  whole_one := (whole_iff defined_one).mpr (show (unity : ℤ) ∣ value 1 from value_one ▸ dvd_refl _)
  whole_floor a := by
    cases ha : Scalar.isNaN a with
    | true =>
      obtain ⟨hfloor, -⟩ := floor_of_undefined ha
      exact congrArg Scalar.floor hfloor
    | false =>
      obtain ⟨hdefined, hwhole⟩ := integral_floor ha
      exact (whole_iff hdefined).mpr hwhole
  whole_ceil a := by
    cases ha : Scalar.isNaN a with
    | true =>
      obtain ⟨hfloor, hceil⟩ := floor_of_undefined ha
      rwa [hceil]
    | false =>
      obtain ⟨hdefined, hwhole⟩ := integral_ceil ha
      exact (whole_iff hdefined).mpr hwhole
  defined_zero := defined_zero
  defined_one := defined_one
  defined_floor h := (integral_floor h).1
  defined_ceil h := (integral_ceil h).1
  defined_sub {a t} h hpos hhalf := by
    rw [sub_eq_add_neg]
    exact defined_add h ((isFinite_neg t).trans (finite_of_tolerance hpos hhalf).1)
  defined_add h hpos hhalf := defined_add h (finite_of_tolerance hpos hhalf).1
  le_of_not_le_add := Machine.le_of_not_le_add
  le_of_not_sub_le := Machine.le_of_not_sub_le
  le_of_not_add_lt := Machine.le_of_not_add_lt
  near_of_pinned := Machine.near_of_pinned

/-! ## Stores with whole bounds -/

namespace Domains

variable {K : Type} [Scalar K] {d e : Domains K} {t : K} {Z P : VarId → Prop} {v : VarId}

/-- The bounds of a variable are whole, and its local domain is nonempty and lies in the
global one. -/
structure WholeAt (d : Domains K) (v : VarId) : Prop where
  globalLower : d.globalLb v ≤ d.lb v
  between : d.lb v ≤ d.ub v
  globalUpper : d.ub v ≤ d.globalUb v
  wholeLower : Scalar.Whole (d.globalLb v) ∧ Scalar.Whole (d.lb v)
  wholeUpper : Scalar.Whole (d.ub v) ∧ Scalar.Whole (d.globalUb v)

/-- The global domain of a variable lies between whole numbers that are closer than the
tolerance. -/
def PinnedAt (d : Domains K) (t : K) (v : VarId) : Prop :=
  ∃ l u : K, Scalar.Whole l ∧ Scalar.Whole u ∧ u - l ≤ t ∧ l ≤ d.globalLb v ∧ d.globalUb v ≤ u

/-- The variables of `Z` are integral and have whole bounds, and those of `P` are pinned. -/
structure Rounded (t : K) (Z P : VarId → Prop) (d : Domains K) : Prop where
  tol : d.tol = t
  held : ∀ v, Z v → v < d.globalLower.size ∧ v < d.globalUpper.size ∧ v < d.lower.size ∧ v < d.upper.size
  integral : ∀ v, Z v → d.isIntegral v = true
  whole : ∀ v, Z v → d.WholeAt v
  pinned : ∀ v, Z v → P v → d.PinnedAt t v

theorem Rounded.agree (h : Rounded t Z P d) (hde : Agree d e) : Rounded t Z P e := by
  rw [hde.eq_with]
  refine ⟨h.tol, h.held, h.integral, fun v hv => ?_, h.pinned⟩
  obtain ⟨hlower, hbetween, hupper, hwholeLower, hwholeUpper⟩ := h.whole v hv
  exact ⟨hlower, hbetween, hupper, hwholeLower, hwholeUpper⟩

theorem Rounded.push (h : Rounded t Z P d) (node : NodeId) : Rounded t Z P (d.push node) := by
  refine ⟨h.tol, h.held, h.integral, fun v hv => ?_, h.pinned⟩
  obtain ⟨hlower, hbetween, hupper, hwholeLower, hwholeUpper⟩ := h.whole v hv
  exact ⟨hlower, hbetween, hupper, hwholeLower, hwholeUpper⟩

section Ordered

variable [Scalar.Ordered K]

open Scalar.Ordered

theorem Rounded.offPath (h : Rounded t Z P d) : Rounded t Z P d.offPath := by
  refine ⟨h.tol, fun v hv => ?_, h.integral, fun v hv => ?_, h.pinned⟩
  · obtain ⟨hlower, hupper, -⟩ := h.held v hv
    exact ⟨hlower, hupper, hlower, hupper⟩
  · obtain ⟨hlower, hbetween, hupper, hwholeLower, hwholeUpper⟩ := h.whole v hv
    exact ⟨le_refl (defined_of_le hlower).1, le_trans hlower (le_trans hbetween hupper),
      le_refl (defined_of_le hupper).2, ⟨hwholeLower.1, hwholeLower.1⟩, hwholeUpper.2, hwholeUpper.2⟩

/-- **The global domain only shrinks.** -/
theorem PinnedAt.record (h : d.PinnedAt t v) (w : VarId) (kind : BoundKind) (value : K) (reason : Reason) :
    (d.record w kind value reason).PinnedAt t v := by
  obtain ⟨l, u, hl, hu, hclose, hlower, hupper⟩ := h
  refine ⟨l, u, hl, hu, hclose, ?_, ?_⟩
  · rw [globalLb_record]
    split
    · exact le_trans hlower (le_max_left (defined_of_le hlower).2)
    · exact hlower
  · rw [globalUb_record]
    split
    · exact le_trans (min_le_left (defined_of_le hupper).1) hupper
    · exact hupper

/-- A whole value between the bounds is recorded as a bound. -/
theorem WholeAt.record (h : d.WholeAt v) {value : K} (hvalue : d.lb v ≤ value ∧ value ≤ d.ub v)
    (hwhole : Scalar.Whole value) (hheld : v < d.globalLower.size ∧ v < d.globalUpper.size ∧ v < d.lower.size ∧
      v < d.upper.size) (kind : BoundKind) (reason : Reason) : (d.record v kind value reason).WholeAt v := by
  obtain ⟨hglobalLower, hglobalUpper, hlower, hupper⟩ := hheld
  have hlb := d.lb_record v kind value reason v
  have hub := d.ub_record v kind value reason v
  have hglb := d.globalLb_record v kind value reason v
  have hgub := d.globalUb_record v kind value reason v
  have hglobal := Scalar.max_le (le_trans h.globalLower hvalue.1) (le_refl (defined_of_le hvalue.2).1)
  have hglobal' := Scalar.le_min (le_trans hvalue.2 h.globalUpper) (le_refl (defined_of_le hvalue.2).1)
  cases kind with
  | lower =>
    rw [if_pos ⟨rfl, rfl, hlower⟩] at hlb
    rw [if_neg (fun hk => nomatch hk.1)] at hub hgub
    refine ⟨?_, ?_, ?_, ?_, ?_⟩
    · rw [hlb, hglb]
      split
      · exact hglobal
      · exact le_trans h.globalLower hvalue.1
    · rw [hlb, hub]
      exact hvalue.2
    · rw [hub, hgub]
      exact h.globalUpper
    · rw [hlb, hglb]
      split
      · exact ⟨h.wholeLower.1.max hwhole, hwhole⟩
      · exact ⟨h.wholeLower.1, hwhole⟩
    · rw [hub, hgub]
      exact h.wholeUpper
  | upper =>
    rw [if_pos ⟨rfl, rfl, hupper⟩] at hub
    rw [if_neg (fun hk => nomatch hk.1)] at hlb hglb
    refine ⟨?_, ?_, ?_, ?_, ?_⟩
    · rw [hlb, hglb]
      exact h.globalLower
    · rw [hlb, hub]
      exact hvalue.1
    · rw [hub, hgub]
      split
      · exact hglobal'
      · exact le_trans hvalue.2 h.globalUpper
    · rw [hlb, hglb]
      exact h.wholeLower
    · rw [hub, hgub]
      split
      · exact ⟨hwhole, h.wholeUpper.2.min hwhole⟩
      · exact ⟨hwhole, h.wholeUpper.2⟩

theorem Rounded.record (h : Rounded t Z P d) {value : K} (kind : BoundKind) (reason : Reason)
    (hvalue : Z v → (d.lb v ≤ value ∧ value ≤ d.ub v) ∧ Scalar.Whole value) :
    Rounded t Z P (d.record v kind value reason) := by
  refine ⟨?_, fun w hw => ?_, fun w hw => ?_, fun w hw => ?_, fun w hw hp => (h.pinned w hw hp).record ..⟩
  · rw [record_tol]
    exact h.tol
  · obtain ⟨hglobalLower, hglobalUpper, hlower, hupper⟩ := h.held w hw
    rw [record_globalLower, record_globalUpper, record_lower, record_upper]
    refine ⟨?_, ?_, ?_, ?_⟩ <;> split <;> simpa
  · unfold isIntegral
    rw [record_integral]
    exact h.integral w hw
  · by_cases hwv : w = v
    · subst hwv
      exact (h.whole w hw).record (hvalue hw).1 (hvalue hw).2 (h.held w hw) kind reason
    · have hlb := d.lb_record v kind value reason w
      have hub := d.ub_record v kind value reason w
      have hglb := d.globalLb_record v kind value reason w
      have hgub := d.globalUb_record v kind value reason w
      simp only [hwv, false_and, and_false, if_false] at hlb hub hglb hgub
      obtain ⟨hlower, hbetween, hupper, hwholeLower, hwholeUpper⟩ := h.whole w hw
      refine ⟨?_, ?_, ?_, ?_, ?_⟩
      · rwa [hglb, hlb]
      · rwa [hlb, hub]
      · rwa [hub, hgub]
      · rwa [hglb, hlb]
      · rwa [hub, hgub]

variable [Scalar.Rounds K]

open Scalar.Rounds

/-- **What is applied** is a whole value between the bounds. -/
theorem Rounded.judge (h : Rounded t Z P d) (hpos : 0 < t) (hhalf : t < 0.5) (hv : Z v) {kind : BoundKind}
    {value value' : K} (happlied : d.judge v kind value = (.applied, value')) :
    (d.lb v ≤ value' ∧ value' ≤ d.ub v) ∧ Scalar.Whole value' := by
  obtain ⟨-, hbetween, -, hwholeLower, hwholeUpper⟩ := h.whole v hv
  obtain ⟨hlb, hub⟩ := defined_of_le hbetween
  unfold Domains.judge at happlied
  by_cases hdefined : Scalar.isNaN value = true
  · rw [if_pos hdefined] at happlied
    cases happlied
  rw [if_neg hdefined] at happlied
  replace hdefined : Scalar.isNaN value = false := by simpa using hdefined
  cases kind with
  | lower =>
    dsimp only at happlied
    rw [if_pos (h.integral v hv), h.tol] at happlied
    have hround := defined_ceil (defined_sub hdefined hpos hhalf)
    split at happlied
    · cases happlied
    next hmoves =>
      split at happlied
      · cases happlied
      · cases happlied
        have hge := le_of_not_le_add hlb hround hmoves
        exact ⟨⟨Scalar.le_min hge hbetween, min_le_right hub⟩, (whole_ceil _).min hwholeUpper.1⟩
  | upper =>
    dsimp only at happlied
    rw [if_pos (h.integral v hv), h.tol] at happlied
    have hround := defined_floor (defined_add hdefined hpos hhalf)
    split at happlied
    · cases happlied
    next hmoves =>
      split at happlied
      · cases happlied
      · cases happlied
        have hle := le_of_not_sub_le hub hround hmoves
        exact ⟨⟨le_max_right hlb, Scalar.max_le hle hbetween⟩, (whole_floor _).max hwholeLower.2⟩

theorem Rounded.tighten (h : Rounded t Z P d) (hpos : 0 < t) (hhalf : t < 0.5) (v : VarId) (kind : BoundKind)
    (value : K) (reason : Reason) : Rounded t Z P (d.tighten v kind value reason).2 := by
  unfold Domains.tighten
  cases hj : d.judge v kind value with
  | mk outcome value' =>
    cases outcome with
    | applied => exact h.record kind reason fun hv => h.judge hpos hhalf hv hj
    | redundant => exact h
    | infeasible => exact h

/-- **Whole bounds stay whole**, whatever is requested and wherever the path leads. -/
theorem kept_rounded (hpos : 0 < t) (hhalf : t < 0.5) : Kept (Rounded (K := K) t Z P) where
  agree _ _ hde h := h.agree hde
  tighten _ v kind value reason h := h.tighten hpos hhalf v kind value reason
  push _ node h := h.push node
  offPath _ _ h := h.offPath

/-- A value of a pinned variable within its local bounds is whole. -/
theorem Rounded.near (h : Rounded t Z P d) (hhalf : t < 0.5) (hZ : Z v) (hP : P v) {x ε : K} (hlower : d.lb v ≤ x)
    (hupper : x ≤ d.ub v) (hε : 0 < ε) : Scalar.abs (x - Scalar.round x) ≤ ε := by
  obtain ⟨l, u, hl, hu, hclose, hle, hge⟩ := h.pinned v hZ hP
  have hw := h.whole v hZ
  exact near_of_pinned hl hu hclose hhalf (le_trans hle (le_trans hw.globalLower hlower))
    (le_trans hupper (le_trans hw.globalUpper hge)) hε

end Ordered

/-! ## New variables, and variables that get fixed -/

/-- The second store has the variables of `Z` as the first one has them. -/
structure SameOn (Z : VarId → Prop) (d e : Domains K) : Prop where
  tol : e.tol = d.tol
  frames : e.frames = d.frames
  lower : ∀ v, Z v → v < d.lower.size ∧ v < e.lower.size ∧ e.lb v = d.lb v
  upper : ∀ v, Z v → v < d.upper.size ∧ v < e.upper.size ∧ e.ub v = d.ub v
  globalLower : ∀ v, Z v → v < e.globalLower.size ∧ e.globalLb v = d.globalLb v
  globalUpper : ∀ v, Z v → v < e.globalUpper.size ∧ e.globalUb v = d.globalUb v
  integral : ∀ v, Z v → e.isIntegral v = d.isIntegral v

theorem SameOn.revert (h : SameOn Z d e) (c : BoundChange K) : SameOn Z (d.revert c) (e.revert c) := by
  unfold Domains.revert
  cases c.kind with
  | lower =>
    refine ⟨h.tol, h.frames, fun v hv => ?_, h.upper, h.globalLower, h.globalUpper, h.integral⟩
    obtain ⟨hd, he, hsame⟩ := h.lower v hv
    unfold lb at hsame ⊢
    rw [getD_setIfInBounds, getD_setIfInBounds, Array.size_setIfInBounds, Array.size_setIfInBounds]
    refine ⟨hd, he, ?_⟩
    by_cases hvc : v = c.var
    · rw [if_pos ⟨hvc, hvc ▸ he⟩, if_pos ⟨hvc, hvc ▸ hd⟩]
    · rw [if_neg fun hc => hvc hc.1, if_neg fun hc => hvc hc.1]
      exact hsame
  | upper =>
    refine ⟨h.tol, h.frames, h.lower, fun v hv => ?_, h.globalLower, h.globalUpper, h.integral⟩
    obtain ⟨hd, he, hsame⟩ := h.upper v hv
    unfold ub at hsame ⊢
    rw [getD_setIfInBounds, getD_setIfInBounds, Array.size_setIfInBounds, Array.size_setIfInBounds]
    refine ⟨hd, he, ?_⟩
    by_cases hvc : v = c.var
    · rw [if_pos ⟨hvc, hvc ▸ he⟩, if_pos ⟨hvc, hvc ▸ hd⟩]
    · rw [if_neg fun hc => hvc hc.1, if_neg fun hc => hvc hc.1]
      exact hsame

theorem SameOn.leave (h : SameOn Z d e) : SameOn Z d.leave e.leave := by
  have hreverts : ∀ (cs : List (BoundChange K)) {d e : Domains K}, SameOn Z d e →
      SameOn Z (cs.foldl Domains.revert d) (cs.foldl Domains.revert e) := by
    intro cs
    induction cs with
    | nil => exact id
    | cons c cs ih => exact fun h => ih (h.revert c)
  cases hd : d.frames with
  | nil =>
    rw [leave_nil hd, leave_nil (h.frames.trans hd)]
    exact h
  | cons f fs =>
    rw [leave_cons hd, leave_cons (h.frames.trans hd)]
    have hsame := hreverts f.changes h
    exact ⟨hsame.tol, rfl, hsame.lower, hsame.upper, hsame.globalLower, hsame.globalUpper, hsame.integral⟩

theorem Rounded.sameOn (h : Rounded t Z P d) (hde : SameOn Z d e) : Rounded t Z P e := by
  refine ⟨hde.tol.trans h.tol, fun v hv => ⟨(hde.globalLower v hv).1, (hde.globalUpper v hv).1,
    (hde.lower v hv).2.1, (hde.upper v hv).2.1⟩, fun v hv => (hde.integral v hv).trans (h.integral v hv),
    fun v hv => ?_, fun v hv hp => ?_⟩
  · obtain ⟨hlower, hbetween, hupper, hwholeLower, hwholeUpper⟩ := h.whole v hv
    refine ⟨?_, ?_, ?_, ?_, ?_⟩
    · rwa [(hde.globalLower v hv).2, (hde.lower v hv).2.2]
    · rwa [(hde.lower v hv).2.2, (hde.upper v hv).2.2]
    · rwa [(hde.globalUpper v hv).2, (hde.upper v hv).2.2]
    · rwa [(hde.globalLower v hv).2, (hde.lower v hv).2.2]
    · rwa [(hde.globalUpper v hv).2, (hde.upper v hv).2.2]
  · unfold PinnedAt
    rw [(hde.globalLower v hv).2, (hde.globalUpper v hv).2]
    exact h.pinned v hv hp

theorem levels_sameOn (h : Levels (Rounded t Z P) d) (hde : SameOn Z d e) : Levels (Rounded t Z P) e := by
  have hlevels : ∀ k : Nat, SameOn Z (k.repeat Domains.leave d) (k.repeat Domains.leave e) := by
    intro k
    induction k with
    | zero => exact hde
    | succ k ih => exact ih.leave
  intro k hk
  rw [hde.frames] at hk
  exact (h k hk).sameOn (hlevels k)

/-- **A new variable** leaves the others as they are. -/
theorem levels_addVariable (h : Levels (Rounded t Z P) d) (lower upper : K) (integral : Bool) :
    Levels (Rounded t Z P) (d.addVariable lower upper integral).2 := by
  have hread : ∀ (a : Array K) (x : K) (v : VarId), v < a.size → (a.push x).getD v 0 = a.getD v 0 ∧
      v < (a.push x).size := fun a x v hv => by
    rw [getD_push, if_neg (Nat.ne_of_lt hv), Array.size_push]
    exact ⟨rfl, Nat.lt_succ_of_lt hv⟩
  refine levels_sameOn h ⟨rfl, rfl, fun v hv => ?_, fun v hv => ?_, fun v hv => ?_, fun v hv => ?_, fun v hv => ?_⟩
  · have hsize := (h.top.held v hv).2.2.1
    exact ⟨hsize, (hread d.lower lower v hsize).2, (hread d.lower lower v hsize).1⟩
  · have hsize := (h.top.held v hv).2.2.2
    exact ⟨hsize, (hread d.upper upper v hsize).2, (hread d.upper upper v hsize).1⟩
  · have hsize := (h.top.held v hv).1
    exact ⟨(hread d.globalLower lower v hsize).2, (hread d.globalLower lower v hsize).1⟩
  · have hsize := (h.top.held v hv).2.1
    exact ⟨(hread d.globalUpper upper v hsize).2, (hread d.globalUpper upper v hsize).1⟩
  · have hintegral := h.top.integral v hv
    have hsize : v < d.integral.size := by
      by_contra hge
      unfold isIntegral at hintegral
      rw [getD_of_size_le _ _ (Nat.not_lt.mp hge)] at hintegral
      cases hintegral
    show (d.integral.push integral).getD v false = d.integral.getD v false
    rw [getD_push, if_neg (Nat.ne_of_lt hsize)]

variable [Scalar.Ordered K]

/-- **A variable that is fixed globally** is pinned from then on. -/
theorem levels_pin (h : Levels (Rounded t Z P) d) :
    Levels (Rounded t Z fun v => P v ∨ d.isGloballyFixed v = true) d := by
  intro k hk
  have hlevel := h k hk
  obtain ⟨hlower, hupper⟩ := repeat_leave_global k d
  refine ⟨hlevel.tol, hlevel.held, hlevel.integral, hlevel.whole, fun v hv hp => ?_⟩
  rcases hp with hp | hfixed
  · exact hlevel.pinned v hv hp
  · have hwhole := h.top.whole v hv
    have hclose : d.globalUb v - d.globalLb v ≤ t := by
      unfold isGloballyFixed at hfixed
      rw [h.top.tol] at hfixed
      exact of_decide_eq_true hfixed
    refine ⟨d.globalLb v, d.globalUb v, hwhole.wholeLower.1, hwhole.wholeUpper.2, hclose, ?_, ?_⟩
    · unfold globalLb
      rw [hlower]
      exact Scalar.Ordered.le_refl (Scalar.Ordered.defined_of_le hwhole.globalLower).1
    · unfold globalUb
      rw [hupper]
      exact Scalar.Ordered.le_refl (Scalar.Ordered.defined_of_le hwhole.globalUpper).2

omit [Scalar.Ordered K] in
/-- What it means that no domain of a new store is empty. -/
theorem new_nonempty {lower upper : Array K} {integral : Array Bool}
    (hempty : (Domains.new lower upper integral t).hasEmptyDomain = false) (hlower : v < lower.size)
    (hupper : v < upper.size) : ¬ upper.getD v 0 + t < lower.getD v 0 := by
  have hnone : (lower.toList.zip upper.toList).countP (fun e => e.2 + t < e.1) = 0 := by
    have hzero : ¬ 0 < (lower.toList.zip upper.toList).countP (fun e => e.2 + t < e.1) := of_decide_eq_false hempty
    omega
  have hmem : (lower.getD v 0, upper.getD v 0) ∈ lower.toList.zip upper.toList := by
    rw [List.mem_iff_getElem]
    exact ⟨v, by simpa using ⟨hlower, hupper⟩, by simp [hlower, hupper]⟩
  simpa using List.countP_eq_zero.mp hnone _ hmem

/-- **A new store** whose bounds are whole where they have to be, and no domain is empty. -/
theorem levels_new [Scalar.Rounds K] {lower upper : Array K} {integral : Array Bool} (hpos : 0 < t) (hhalf : t < 0.5)
    (hheld : ∀ v, Z v → v < lower.size ∧ v < upper.size ∧ integral.getD v false = true)
    (hdefined : ∀ v, Z v → Scalar.isNaN (lower.getD v 0) = false ∧ Scalar.isNaN (upper.getD v 0) = false)
    (hwhole : ∀ v, Z v → Scalar.Whole (lower.getD v 0) ∧ Scalar.Whole (upper.getD v 0))
    (hempty : (Domains.new lower upper integral t).hasEmptyDomain = false) :
    Levels (Rounded t Z fun _ => False) (Domains.new lower upper integral t) := by
  intro k hk
  obtain rfl : k = 0 := Nat.le_zero.mp hk
  refine ⟨rfl, fun v hv => ?_, fun v hv => (hheld v hv).2.2, fun v hv => ?_, nofun⟩
  · obtain ⟨hlower, hupper, -⟩ := hheld v hv
    exact ⟨hlower, hupper, hlower, hupper⟩
  · obtain ⟨hlower, hupper, -⟩ := hheld v hv
    obtain ⟨hdl, hdu⟩ := hdefined v hv
    obtain ⟨hl, hu⟩ := hwhole v hv
    have happart := new_nonempty hempty hlower hupper
    exact ⟨Scalar.Ordered.le_refl hdl, Scalar.Rounds.le_of_not_add_lt hl hu hdl hdu hpos hhalf happart,
      Scalar.Ordered.le_refl hdu, ⟨hl, hl⟩, hu, hu⟩

end Domains

end BranchAndCut
