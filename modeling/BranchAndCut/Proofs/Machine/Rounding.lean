import BranchAndCut.Proofs.Order

/-! # How machine numbers are rounded

The results of operations on machine numbers are rounded to 53 binary places, and to a
multiple of the least positive number. Values are counted in such multiples here, as integers,
so that nothing is said of fractions: no machine number has a value closer to an exact sum than
the sum of machine numbers has. The infinities count as the first power of two that is too
large, as they do when a value is rounded. -/

namespace BranchAndCut.Machine

open Float.Model UnpackedFloat

/-! ## Rounding a mantissa -/

/-- The exponent that the mantissa asks for, counted from the least one. -/
theorem targetExponent_eq (m k : ℕ) :
    Format.binary64.targetExponent (totalExponent m (k - 1074)) = ((m.log2 + k - 52 : ℕ) : ℤ) - 1074 := by
  simp only [Format.targetExponent, totalExponent, Format.mantissaBits, Format.minExponent]
  omega

theorem double_mod {r p : ℕ} (h : r < p) : 2 * r % p = if p ≤ 2 * r then 2 * r - p else 2 * r := by
  split
  · next hle => rw [Nat.mod_eq_sub_mod hle, Nat.mod_eq_of_lt (by omega)]
  · next hlt => exact Nat.mod_eq_of_lt (Nat.lt_of_not_le hlt)

/-- After a shift the two residual bits tell how the rest compares with one half. -/
theorem shiftRight_exact (m s : ℕ) : ExtendedMantissa.ofMantissaAndAccuracy m .exact >>> s =
    ⟨m / 2 ^ s, decide (2 ^ s ≤ 2 * (m % 2 ^ s)), decide (2 * (m % 2 ^ s) % 2 ^ s ≠ 0)⟩ := by
  induction s with
  | zero =>
    rw [Nat.pow_zero, Nat.div_one, Nat.mod_one]
    rfl
  | succ s ih =>
    change ExtendedMantissa.shiftRightOne (ExtendedMantissa.ofMantissaAndAccuracy m .exact >>> s) = _
    rw [ih, Nat.mod_pow_succ, Nat.pow_succ, ← Nat.div_div_eq_div_mul]
    have hrest : m % 2 ^ s < 2 ^ s := Nat.mod_lt _ (Nat.two_pow_pos s)
    generalize m % 2 ^ s = r at hrest ⊢
    generalize m / 2 ^ s = q
    generalize 2 ^ s = p at hrest ⊢
    have hnext : 2 * (r + p * (q % 2)) % (p * 2) = 2 * r := by
      rw [Nat.mul_add, ← Nat.mul_assoc, Nat.mul_comm 2 p, Nat.add_mul_mod_self_left, Nat.mod_eq_of_lt (by omega)]
    rw [hnext]
    unfold ExtendedMantissa.shiftRightOne
    congr 1
    · rcases Nat.mod_two_eq_zero_or_one q with hq | hq
      · simp [hq]
        omega
      · simp [hq]
        omega
    · dsimp only
      rw [double_mod hrest]
      split
      · next hle =>
        simp [hle]
        omega
      · next hlt => simp [hlt]

/-- Rounding moves a mantissa by at most half of the last place. -/
theorem roundedMantissa_near (m s : ℕ) :
    2 * ((ExtendedMantissa.ofMantissaAndAccuracy m .exact >>> s).roundedMantissa * 2 ^ s) ≤ 2 * m + 2 ^ s ∧
      2 * m ≤ 2 * ((ExtendedMantissa.ofMantissaAndAccuracy m .exact >>> s).roundedMantissa * 2 ^ s) + 2 ^ s := by
  rw [shiftRight_exact]
  have hm : m / 2 ^ s * 2 ^ s + m % 2 ^ s = m := Nat.div_add_mod' m _
  have hrest : m % 2 ^ s < 2 ^ s := Nat.mod_lt _ (Nat.two_pow_pos s)
  generalize m % 2 ^ s = r at hm hrest ⊢
  generalize m / 2 ^ s = q at hm ⊢
  generalize 2 ^ s = p at hm hrest ⊢
  rw [double_mod hrest]
  unfold ExtendedMantissa.roundedMantissa
  by_cases hhalf : p ≤ 2 * r
  · rw [if_pos hhalf, decide_eq_true hhalf]
    by_cases heq : 2 * r - p = 0
    · rcases Nat.mod_two_eq_zero_or_one q with hq | hq
      · simp [heq, ExtendedMantissa.accuracy, Accuracy.roundToNearestEven, hq]
        omega
      · simp [heq, ExtendedMantissa.accuracy, Accuracy.roundToNearestEven, hq, Nat.add_mul]
        omega
    · simp [heq, ExtendedMantissa.accuracy, Accuracy.roundToNearestEven, Nat.add_mul]
      omega
  · rw [if_neg hhalf, decide_eq_false hhalf]
    by_cases heq : 2 * r = 0
    · simp [heq, ExtendedMantissa.accuracy, Accuracy.roundToNearestEven]
      omega
    · simp [heq, ExtendedMantissa.accuracy, Accuracy.roundToNearestEven]
      omega

/-! ## Numbers that a mantissa can hold -/

/-- A whole number with at most 53 binary places before its trailing zeros. -/
def Fits (y : ℤ) : Prop := ∃ m k : ℕ, m < 2 ^ 53 ∧ y.natAbs = m * 2 ^ k

/-- No number that fits is closer to `x`. -/
def Nearest (r x : ℤ) : Prop := ∀ y, Fits y → (r - x).natAbs ≤ (y - x).natAbs

theorem Fits.neg {y : ℤ} (h : Fits y) : Fits (-y) := by
  obtain ⟨m, k, hm, hy⟩ := h
  exact ⟨m, k, hm, by rw [Int.natAbs_neg, hy]⟩

theorem Nearest.neg {r x : ℤ} (h : Nearest r x) : Nearest (-r) (-x) := by
  intro y hy
  have := h (-y) hy.neg
  omega

/-- Multiples of a grid that lie half a step away at most are nearest on it. -/
theorem nearest_on_grid {g r x c : ℤ} (hg : 0 < g) (hnear : 2 * (r * g - x).natAbs ≤ g.natAbs) :
    (r * g - x).natAbs ≤ (c * g - x).natAbs := by
  rcases lt_trichotomy r c with hlt | rfl | hlt
  · have : r * g + g ≤ c * g := by nlinarith
    omega
  · exact le_refl _
  · have : c * g + g ≤ r * g := by nlinarith
    omega

/-- A number on the grid of its leading place, or on a coarser one, is nearest if it is half a
step away at most. -/
theorem nearest_of_near {r x : ℤ} {j : ℕ} (hx : 2 ^ 52 * 2 ^ j ≤ x)
    (hnear : 2 * (r * 2 ^ j - x).natAbs ≤ ((2 : ℤ) ^ j).natAbs) : Nearest (r * 2 ^ j) x := by
  have hg : (0 : ℤ) < 2 ^ j := by positivity
  rintro y ⟨m, k, hm, hy⟩
  rcases Nat.lt_or_ge k j with hlt | hle
  · -- what lies on a finer grid only is smaller than the leading place
    have hsmall : y < 2 ^ 52 * 2 ^ j := by
      have hpow : (2 : ℤ) ^ k * 2 ≤ 2 ^ j := by
        rw [← pow_succ]
        exact pow_le_pow_right₀ (by norm_num) hlt
      have hy' : y ≤ m * 2 ^ k := by
        have := Int.le_natAbs (a := y)
        rw [hy] at this
        exact_mod_cast this
      have hm' : (m : ℤ) < 2 ^ 53 := by exact_mod_cast hm
      have hk : (0 : ℤ) < 2 ^ k := by positivity
      nlinarith
    have := nearest_on_grid (c := 2 ^ 52) hg hnear
    omega
  · obtain ⟨i, rfl⟩ := Nat.exists_eq_add_of_le hle
    have hmul : ∃ c : ℤ, y = c * 2 ^ j := by
      rcases Int.natAbs_eq y with heq | heq
      · exact ⟨m * 2 ^ i, by rw [heq, hy]; push_cast; ring⟩
      · exact ⟨-(m * 2 ^ i), by rw [heq, hy]; push_cast; ring⟩
    obtain ⟨c, rfl⟩ := hmul
    exact nearest_on_grid hg hnear

/-! ## Rounding to the format -/

/-- So many places of a mantissa are too many. -/
def excess (m : ℕ) : ℕ := m.log2 - 52

theorem excess_eq_zero {m : ℕ} (h : m < 2 ^ 53) : excess m = 0 := by
  rcases Nat.eq_zero_or_pos m with rfl | hm
  · rfl
  · have := (Nat.log2_lt hm.ne').mpr h
    unfold excess
    omega

/-- A mantissa is shifted by the places that are too many. -/
theorem shiftToTargetExponent_eq (m k : ℕ) : shiftToTargetExponent Format.binary64 m (k - 1074) .exact =
    (ExtendedMantissa.ofMantissaAndAccuracy m .exact >>> excess m, ((k + excess m : ℕ) : ℤ) - 1074) := by
  unfold shiftToTargetExponent shiftToExponent
  rw [targetExponent_eq]
  have hshift : (((m.log2 + k - 52 : ℕ) : ℤ) - 1074 - (k - 1074)).toNat = excess m := by
    unfold excess
    omega
  dsimp only
  rw [hshift]
  congr 1
  push_cast
  ring

theorem shiftToTargetExponent_fitting {m : ℕ} (h : m < 2 ^ 53) (k : ℕ) :
    shiftToTargetExponent Format.binary64 m (k - 1074) .exact = (⟨m, false, false⟩, (k : ℤ) - 1074) := by
  rw [shiftToTargetExponent_eq, excess_eq_zero h]
  rfl

/-- The mantissa that is left; rounding may have carried it one place too far. -/
def rounded (m : ℕ) : ℕ := (ExtendedMantissa.ofMantissaAndAccuracy m .exact >>> excess m).roundedMantissa

theorem rounded_near (m : ℕ) :
    2 * (rounded m * 2 ^ excess m) ≤ 2 * m + 2 ^ excess m ∧ 2 * m ≤ 2 * (rounded m * 2 ^ excess m) + 2 ^ excess m :=
  roundedMantissa_near m _

theorem rounded_fitting {m : ℕ} (h : m < 2 ^ 53) : rounded m = m := by
  unfold rounded
  rw [excess_eq_zero h]
  rfl

/-- A mantissa with places too many keeps 53 of them. -/
theorem rounded_bounds {m : ℕ} (h : 2 ^ 53 ≤ m) : 2 ^ 52 ≤ rounded m ∧ rounded m ≤ 2 ^ 53 ∧ 2 ^ 52 * 2 ^ excess m ≤ m := by
  have hpos : m ≠ 0 := by omega
  have hlog : 53 ≤ m.log2 := (Nat.le_log2 hpos).mpr h
  have hexcess : m.log2 = 52 + excess m := by
    unfold excess
    omega
  have hlow : 2 ^ 52 * 2 ^ excess m ≤ m := by
    rw [← Nat.pow_add, ← hexcess]
    exact Nat.log2_self_le hpos
  have hhigh : m < 2 ^ 53 * 2 ^ excess m := by
    rw [← Nat.pow_add, show 53 + excess m = m.log2 + 1 by omega]
    exact Nat.lt_log2_self
  obtain ⟨hup, hdown⟩ := rounded_near m
  have hp : 0 < 2 ^ excess m := Nat.two_pow_pos _
  generalize 2 ^ excess m = p at *
  refine ⟨?_, ?_, hlow⟩
  · by_contra hlt
    have : (rounded m + 1) * p ≤ 2 ^ 52 * p := Nat.mul_le_mul_right p (by omega)
    have : 2 * (rounded m * p) + p = 2 * ((rounded m + 1) * p) - p := by ring_nf; omega
    omega
  · by_contra hlt
    have : (2 ^ 53 + 1) * p ≤ rounded m * p := Nat.mul_le_mul_right p (by omega)
    omega

/-- A mantissa and an exponent of the format: the leading place is filled, unless the exponent is
the least one. -/
def Holds (m k : ℕ) : Prop := m < 2 ^ 53 ∧ (2 ^ 52 ≤ m ∨ k = 0)

theorem nearest_self (x : ℤ) : Nearest x x := fun y _ => by
  rw [sub_self]
  exact Nat.zero_le _

/-- A rounded mantissa lies half a step away at most, so that no number is nearer. -/
theorem nearest_rounded {m : ℕ} (h : 2 ^ 53 ≤ m) (k : ℕ) :
    Nearest (rounded m * 2 ^ (k + excess m) : ℕ) (m * 2 ^ k : ℕ) := by
  obtain ⟨-, -, hlead⟩ := rounded_bounds h
  obtain ⟨hup, hdown⟩ := rounded_near m
  have hstep : (2 : ℤ) ^ (k + excess m) = 2 ^ excess m * 2 ^ k := by rw [pow_add, mul_comm]
  have hk : (0 : ℤ) < 2 ^ k := by positivity
  rw [Nat.cast_mul, Nat.cast_pow, Nat.cast_ofNat]
  refine nearest_of_near ?_ ?_
  · rw [hstep, ← mul_assoc]
    push_cast
    exact mul_le_mul_of_nonneg_right (by exact_mod_cast hlead) hk.le
  · rw [hstep, ← mul_assoc]
    push_cast
    rw [← sub_mul, Int.natAbs_mul, Int.natAbs_mul, ← mul_assoc]
    refine Nat.mul_le_mul_right _ ?_
    have hup' : 2 * ((rounded m : ℤ) * 2 ^ excess m) ≤ 2 * m + 2 ^ excess m := by exact_mod_cast hup
    have hdown' : 2 * (m : ℤ) ≤ 2 * (rounded m * 2 ^ excess m) + 2 ^ excess m := by exact_mod_cast hdown
    generalize (rounded m : ℤ) * 2 ^ excess m = r at *
    generalize (2 : ℤ) ^ excess m = p at *
    omega

/-- The number of a mantissa and an exponent. -/
def signed (sign : Sign) (p : ExtendedMantissa × ℤ) : UnpackedFloat :=
  if h : p.1.mantissa = 0 then .zero sign else .finite sign p.1.mantissa p.2 (Nat.pos_of_ne_zero h)

theorem roundWithAccuracy_eq (sign : Sign) (m k : ℕ) : roundWithAccuracy Format.binary64 sign m (k - 1074) .exact =
    signed sign (shiftToTargetExponent Format.binary64 (rounded m) ((k + excess m : ℕ) - 1074) .exact) := by
  unfold roundWithAccuracy
  rw [shiftToTargetExponent_eq]
  rfl

/-- **Rounding** gives a nearest number. -/
theorem roundWithAccuracy_exact (sign : Sign) {m k : ℕ} (hm : 0 < m) (hk : 2 ^ 52 ≤ m ∨ k = 0) :
    ∃ m' k' hm', roundWithAccuracy Format.binary64 sign m (k - 1074) .exact = .finite sign m' ((k' : ℕ) - 1074) hm' ∧
      Holds m' k' ∧ Nearest (m' * 2 ^ k' : ℕ) (m * 2 ^ k : ℕ) := by
  rw [roundWithAccuracy_eq]
  unfold signed
  rcases Nat.lt_or_ge m (2 ^ 53) with hlt | hge
  · rw [rounded_fitting hlt, shiftToTargetExponent_fitting hlt, excess_eq_zero hlt, Nat.add_zero, dif_neg hm.ne']
    exact ⟨m, k, hm, rfl, ⟨hlt, hk⟩, nearest_self _⟩
  obtain ⟨hlow, hhigh, -⟩ := rounded_bounds hge
  have hnear := nearest_rounded hge k
  rcases hhigh.lt_or_eq with hlt | heq
  · have hne : rounded m ≠ 0 := by omega
    rw [shiftToTargetExponent_fitting hlt, dif_neg hne]
    exact ⟨rounded m, k + excess m, Nat.pos_of_ne_zero hne, rfl, ⟨hlt, .inl hlow⟩, hnear⟩
  · -- the carry leaves one place too many, which is empty
    have hcarry : ∀ k : ℕ, shiftToTargetExponent Format.binary64 (2 ^ 53) (k - 1074) .exact =
        (⟨2 ^ 52, false, false⟩, ((k + 1 : ℕ) : ℤ) - 1074) := fun k => by
      rw [shiftToTargetExponent_eq]
      have hone : excess (2 ^ 53) = 1 := by
        unfold excess
        rw [Nat.log2_two_pow]
      rw [hone, shiftRight_exact]
      norm_num
    rw [heq, hcarry, dif_neg (by norm_num)]
    refine ⟨2 ^ 52, k + excess m + 1, by norm_num, rfl, ⟨by norm_num, .inl le_rfl⟩, ?_⟩
    rw [heq] at hnear
    rwa [show 2 ^ 52 * 2 ^ (k + excess m + 1) = 2 ^ 53 * 2 ^ (k + excess m) by ring]

/-- A mantissa with few places is filled up first, so that any positive number is rounded so. -/
theorem round_exact (sign : Sign) {m : ℕ} (hm : 0 < m) (k : ℕ) :
    ∃ m' k' hm', UnpackedFloat.round Format.binary64 sign m (k - 1074) = .finite sign m' ((k' : ℕ) - 1074) hm' ∧
      Holds m' k' ∧ Nearest (m' * 2 ^ k' : ℕ) (m * 2 ^ k : ℕ) := by
  unfold UnpackedFloat.round decreaseExponent
  rw [targetExponent_eq]
  dsimp only
  -- the shift to the left fills the mantissa, as far as the exponent can be lowered
  obtain ⟨d, j, hd, hj, hfull⟩ : ∃ d j : ℕ, ((k : ℤ) - 1074 - (((m.log2 + k - 52 : ℕ) : ℤ) - 1074)).toNat = d ∧ k = j + d ∧
      (2 ^ 52 ≤ m * 2 ^ d ∨ j = 0) := by
    refine ⟨k - (m.log2 + k - 52), k - (k - (m.log2 + k - 52)), by omega, by omega, ?_⟩
    rcases Nat.lt_or_ge (m.log2 + k) 52 with hlt | hge
    · exact .inr (by omega)
    · left
      calc 2 ^ 52 ≤ 2 ^ (m.log2 + (k - (m.log2 + k - 52))) := Nat.pow_le_pow_right Nat.two_pos (by omega)
        _ = 2 ^ m.log2 * 2 ^ (k - (m.log2 + k - 52)) := Nat.pow_add ..
        _ ≤ m * 2 ^ (k - (m.log2 + k - 52)) := Nat.mul_le_mul_right _ (Nat.log2_self_le hm.ne')
  have hexponent : (k : ℤ) - 1074 - (d : ℕ) = (j : ℤ) - 1074 := by omega
  rw [hd, hexponent, Nat.shiftLeft_eq]
  obtain ⟨m', k', hm', hround, hholds, hnear⟩ :=
    roundWithAccuracy_exact sign (Nat.mul_pos hm (Nat.two_pow_pos d)) hfull
  refine ⟨m', k', hm', hround, hholds, ?_⟩
  rwa [Nat.mul_assoc, ← Nat.pow_add, Nat.add_comm d, ← hj] at hnear

/-! ## Packing -/

/-- The greatest exponent, counted from the least one. -/
def greatest : ℕ := 2045

/-- What the bits of a machine number are read as. -/
def Canonical : UnpackedFloat → Prop
  | .finite _ m e _ => ∃ k : ℕ, e = k - 1074 ∧ k ≤ greatest ∧ Holds m k
  | _ => True

theorem append_implicit (m : BitVec 52) : (1#1 ++ m).toNat = 2 ^ 52 + m.toNat := by
  rw [BitVec.toNat_append, ← Nat.shiftLeft_add_eq_or_of_lt m.isLt]
  rfl

theorem toNat_lt_of_ne {e : BitVec 11} (h : e ≠ -1#11) : e.toNat < 2047 := by
  have hlt : e.toNat < 2048 := e.isLt
  have hne : e.toNat ≠ 2047 := fun heq => h (BitVec.eq_of_toNat_eq heq)
  omega

/-- A mantissa with its leading place has all places. -/
theorem log2_full {m : ℕ} (hlow : 2 ^ 52 ≤ m) (hhigh : m < 2 ^ 53) : m.log2 + 1 = Format.binary64.mantissaBits := by
  have hne : m ≠ 0 := by omega
  have hle := (Nat.le_log2 hne).mpr hlow
  have hlt := (Nat.log2_lt hne).mpr hhigh
  change m.log2 + 1 = 53
  omega

theorem log2_partial {m : ℕ} (hm : m ≠ 0) (h : m < 2 ^ 52) : m.log2 + 1 ≠ Format.binary64.mantissaBits := by
  have hlt := (Nat.log2_lt hm).mpr h
  change m.log2 + 1 ≠ 53
  omega

/-- Exponents are stored from one on. -/
theorem biased_eq (k : ℕ) :
    ((k : ℤ) - 1074 + Format.binary64.exponentBias + Format.binary64.mantissaBitsWithoutImplicit).toNat = k + 1 := by
  change ((k : ℤ) - 1074 + (1023 : ℕ) + (52 : ℕ)).toNat = k + 1
  omega

theorem unpack_canonical (b : BitVec Format.binary64.numBits) : Canonical (UnpackedFloat.unpack Format.binary64 b) := by
  unfold UnpackedFloat.unpack
  dsimp only
  split
  · split <;> trivial
  next hmax =>
  have hbound := toNat_lt_of_ne hmax
  split
  · next hzero =>
    split
    · trivial
    · refine ⟨0, ?_, Nat.zero_le _, ?_, .inr rfl⟩
      · rw [hzero]
        rfl
      · exact Nat.lt_trans (unpackMantissa b).isLt (by norm_num)
  · next hpos =>
    have hne : (unpackExponent b).toNat ≠ 0 := fun heq => hpos (BitVec.eq_of_toNat_eq heq)
    have hm : (unpackMantissa b).toNat < 2 ^ 52 := (unpackMantissa b).isLt
    have happend : (1#1 ++ unpackMantissa b).toNat = 2 ^ 52 + (unpackMantissa b).toNat := append_implicit _
    refine ⟨(unpackExponent b).toNat - 1, ?_, ?_, ?_, .inl ?_⟩
    · change ((unpackExponent b).toNat : ℤ) - (1023 + 52) = _
      omega
    · unfold greatest
      omega
    · rw [happend]
      omega
    · rw [happend]
      omega

theorem unpackSign_packComponents (sign : Sign) (exponent : BitVec 11) (mantissa : BitVec 52) :
    Sign.ofBitVec (unpackSign (packComponents Format.binary64 sign exponent mantissa)) = sign := by
  unfold unpackSign packComponents BitVec.extractLsb
  -- the sign stands before the other two
  rw [BitVec.extractLsb'_append_eq_of_le (by decide), BitVec.extractLsb'_append_eq_of_le (by decide)]
  cases sign <;> rfl

/-- **Canonical numbers survive packing.** -/
theorem unpack_pack {f : UnpackedFloat} (h : Canonical f) :
    UnpackedFloat.unpack Format.binary64 (UnpackedFloat.pack Format.binary64 f) = f := by
  cases f with
  | notANumber => rfl
  | infinity sign => cases sign <;> rfl
  | zero sign => cases sign <;> rfl
  | finite sign m e hm =>
    obtain ⟨k, rfl, hk, hm53, hfull⟩ := h
    unfold greatest at hk
    have hfits : ¬ 2 ^ Format.binary64.exponentBits ≤ k + 1 + 1 := by
      change ¬ 2 ^ 11 ≤ k + 1 + 1
      omega
    simp only [UnpackedFloat.pack]
    rw [biased_eq, if_neg hfits]
    rcases Nat.lt_or_ge m (2 ^ 52) with hlt | hge
    · -- a mantissa without its leading place
      obtain rfl := hfull.resolve_left (Nat.not_le_of_lt hlt)
      have hmantissa : (BitVec.ofNat 52 m).toNat = m := Nat.mod_eq_of_lt hlt
      have hne : BitVec.ofNat 52 m ≠ 0#52 := fun heq => hm.ne' (by rw [← hmantissa, heq]; rfl)
      rw [if_neg (log2_partial hm.ne' hlt)]
      simp only [UnpackedFloat.unpack, unpackMantissa_packComponents, unpackExponent_packComponents, unpackSign_packComponents]
      rw [if_neg (by decide), if_pos trivial, dif_neg hne]
      congr 1
    · have hexponent : (BitVec.ofNat 11 (k + 1)).toNat = k + 1 := Nat.mod_eq_of_lt (by omega)
      have hmax : BitVec.ofNat 11 (k + 1) ≠ -1#11 := fun heq => by
        have hnat : (BitVec.ofNat 11 (k + 1)).toNat = 2047 := by rw [heq]; rfl
        omega
      have hzero : BitVec.ofNat 11 (k + 1) ≠ 0#11 := fun heq => by
        have hnat : (BitVec.ofNat 11 (k + 1)).toNat = 0 := by rw [heq]; rfl
        omega
      have hmantissa : (1#1 ++ BitVec.ofNat 52 m).toNat = m := by
        rw [append_implicit, BitVec.toNat_ofNat]
        omega
      rw [if_pos (log2_full hge hm53)]
      simp only [UnpackedFloat.unpack, unpackMantissa_packComponents, unpackExponent_packComponents, unpackSign_packComponents]
      rw [if_neg hmax, if_neg hzero]
      congr 1
      change ((BitVec.ofNat 11 (k + 1)).toNat : ℤ) - (1023 + 52) = _
      omega

/-- What is too large is packed as an infinity. -/
theorem unpack_pack_overflow (sign : Sign) {m k : ℕ} (hm : 0 < m) (hk : greatest < k) :
    UnpackedFloat.unpack Format.binary64 (UnpackedFloat.pack Format.binary64 (.finite sign m (k - 1074) hm)) = .infinity sign := by
  have hlarge : 2 ^ Format.binary64.exponentBits ≤ k + 1 + 1 := by
    unfold greatest at hk
    change 2 ^ 11 ≤ k + 1 + 1
    omega
  simp only [UnpackedFloat.pack]
  rw [biased_eq, if_pos hlarge]
  cases sign <;> rfl

/-- The bits are those of sign, exponent and mantissa. -/
theorem packComponents_unpack (b : BitVec Format.binary64.numBits) :
    packComponents Format.binary64 (Sign.ofBitVec (unpackSign b)) (unpackExponent b) (unpackMantissa b) = b := by
  have hsign : ∀ x : BitVec 1, (Sign.ofBitVec x).toBitVec = x := by decide
  unfold packComponents
  rw [hsign]
  change b.extractLsb' 63 1 ++ b.extractLsb' 52 11 ++ b.extractLsb' 0 52 = b
  rw [BitVec.extractLsb'_append_extractLsb'_eq_extractLsb' (show 63 = 52 + 11 from rfl),
    BitVec.extractLsb'_append_extractLsb'_eq_extractLsb' (show 52 = 0 + 52 from rfl)]
  exact BitVec.extractLsb'_eq_self

/-- **Numbers are packed as they were.** -/
theorem pack_unpack {b : BitVec Format.binary64.numBits} (h : (UnpackedFloat.unpack Format.binary64 b).isNaN = false) :
    UnpackedFloat.pack Format.binary64 (UnpackedFloat.unpack Format.binary64 b) = b := by
  conv_rhs => rw [← packComponents_unpack b]
  revert h
  unfold UnpackedFloat.unpack
  dsimp only
  split
  · next hmax =>
    split
    · next hzero =>
      intro _
      rw [hmax, hzero]
      rfl
    · exact nofun
  next hmax =>
  have hbound := toNat_lt_of_ne hmax
  have hm : (unpackMantissa b).toNat < 2 ^ 52 := (unpackMantissa b).isLt
  split
  · next hzero =>
    split
    · next hnone =>
      intro _
      rw [hzero, hnone]
      rfl
    · next hsome =>
      intro _
      have hne : (unpackMantissa b).toNat ≠ 0 := fun heq => hsome (BitVec.eq_of_toNat_eq heq)
      simp only [UnpackedFloat.pack, hzero]
      rw [if_neg (by decide), if_neg (log2_partial hne hm), BitVec.ofNat_toNat, BitVec.setWidth_eq]
  · next hpos =>
    intro _
    have hne : (unpackExponent b).toNat ≠ 0 := fun heq => hpos (BitVec.eq_of_toNat_eq heq)
    have happend : (1#1 ++ unpackMantissa b).toNat = 2 ^ 52 + (unpackMantissa b).toNat := append_implicit _
    have hbiased : (((unpackExponent b).toNat : ℤ) - (Format.binary64.exponentBias + Format.binary64.mantissaBitsWithoutImplicit) +
        Format.binary64.exponentBias + Format.binary64.mantissaBitsWithoutImplicit).toNat = (unpackExponent b).toNat := by
      omega
    have hfits : ¬ 2 ^ Format.binary64.exponentBits ≤ (unpackExponent b).toNat + 1 := by
      change ¬ 2 ^ 11 ≤ (unpackExponent b).toNat + 1
      omega
    have hmantissa : BitVec.ofNat 52 (1#1 ++ unpackMantissa b).toNat = unpackMantissa b := by
      refine BitVec.eq_of_toNat_eq ?_
      rw [BitVec.toNat_ofNat, happend]
      omega
    simp only [UnpackedFloat.pack]
    rw [hbiased, if_neg hfits, if_pos (log2_full (by omega) (by omega)), hmantissa, BitVec.ofNat_toNat, BitVec.setWidth_eq]

/-! ## Values -/

/-- The first power of two that is too large. -/
def limit : ℕ := 2 ^ 53 * 2 ^ greatest

/-- The value as a multiple of the least positive number. The infinities come right after the
greatest finite numbers. -/
def units : UnpackedFloat → ℤ
  | .finite sign m e _ => sign.apply (m * 2 ^ (e + 1074).toNat : ℕ)
  | .infinity sign => sign.apply limit
  | .zero _ => 0
  | .notANumber => 0

theorem units_finite (sign : Sign) (m k : ℕ) (hm : 0 < m) :
    units (.finite sign m (k - 1074) hm) = sign.apply (m * 2 ^ k : ℕ) := by
  have hk : ((k : ℤ) - 1074 + 1074).toNat = k := by omega
  change sign.apply (m * 2 ^ ((k : ℤ) - 1074 + 1074).toNat : ℕ) = _
  rw [hk]

theorem Holds.lt_iff {m k m' k' : ℕ} (h : Holds m k) (h' : Holds m' k') :
    m * 2 ^ k < m' * 2 ^ k' ↔ k < k' ∨ k = k' ∧ m < m' := by
  have hless : ∀ {m k m' k' : ℕ}, Holds m k → Holds m' k' → k < k' → m * 2 ^ k < m' * 2 ^ k' := by
    intro m k m' k' h h' hlt
    obtain ⟨i, rfl⟩ := Nat.exists_eq_add_of_lt hlt
    have hlead : 2 ^ 52 ≤ m' := h'.2.resolve_right (Nat.succ_ne_zero _)
    calc m * 2 ^ k < 2 ^ 53 * 2 ^ k := Nat.mul_lt_mul_of_pos_right h.1 (Nat.two_pow_pos k)
      _ = 2 ^ 52 * 2 ^ (k + 1) := by ring
      _ ≤ 2 ^ 52 * 2 ^ (k + i + 1) := Nat.mul_le_mul_left _ (Nat.pow_le_pow_right Nat.two_pos (by omega))
      _ ≤ m' * 2 ^ (k + i + 1) := Nat.mul_le_mul_right _ hlead
  rcases lt_trichotomy k k' with hlt | rfl | hlt
  · exact ⟨fun _ => .inl hlt, fun _ => hless h h' hlt⟩
  · rw [Nat.mul_lt_mul_right (Nat.two_pow_pos k)]
    exact ⟨fun hm => .inr ⟨rfl, hm⟩, fun hm => hm.elim (fun hk => (lt_irrefl _ hk).elim) (·.2)⟩
  · have := hless h' h hlt
    constructor <;> omega

theorem limit_pos : 0 < limit := Nat.mul_pos (Nat.two_pow_pos _) (Nat.two_pow_pos _)

theorem Holds.lt_limit {m k : ℕ} (h : Holds m k) (hk : k ≤ greatest) : m * 2 ^ k < limit :=
  Nat.lt_of_lt_of_le (Nat.mul_lt_mul_of_pos_right h.1 (Nat.two_pow_pos k))
    (Nat.mul_le_mul_left _ (Nat.pow_le_pow_right Nat.two_pos hk))

open FloatOrder in
/-- What the key of a number tells of its value. -/
theorem key_cases {a : UnpackedFloat} (h : Canonical a) {x : Int × Int × Int} (hx : key a = some x) :
    x = (-2, 0, 0) ∧ units a = -(limit : ℤ) ∨
    (∃ m k : ℕ, Holds m k ∧ (0 < m * 2 ^ k ∧ m * 2 ^ k < limit) ∧ x = (-1, -((k : ℤ) - 1074), -(m : ℤ)) ∧
      units a = -(m * 2 ^ k : ℕ)) ∨
    x = (0, 0, 0) ∧ units a = 0 ∨
    (∃ m k : ℕ, Holds m k ∧ (0 < m * 2 ^ k ∧ m * 2 ^ k < limit) ∧ x = (1, (k : ℤ) - 1074, (m : ℤ)) ∧
      units a = (m * 2 ^ k : ℕ)) ∨
    x = (2, 0, 0) ∧ units a = limit := by
  cases a with
  | notANumber => cases hx
  | infinity sign =>
    cases sign with
    | negative => exact .inl ⟨(Option.some.inj hx).symm, rfl⟩
    | positive => exact .inr (.inr (.inr (.inr ⟨(Option.some.inj hx).symm, rfl⟩)))
  | zero sign => exact .inr (.inr (.inl ⟨(Option.some.inj hx).symm, rfl⟩))
  | finite sign m e hm =>
    obtain ⟨k, rfl, hk, hholds⟩ := h
    have hbounds := And.intro (Nat.mul_pos hm (Nat.two_pow_pos k)) (hholds.lt_limit hk)
    cases sign with
    | negative => exact .inr (.inl ⟨m, k, hholds, hbounds, (Option.some.inj hx).symm, units_finite ..⟩)
    | positive => exact .inr (.inr (.inr (.inl ⟨m, k, hholds, hbounds, (Option.some.inj hx).symm, units_finite ..⟩)))

open FloatOrder in
/-- **The order of machine numbers is that of their values.** -/
theorem before_iff {a b : UnpackedFloat} (ha : Canonical a) (hb : Canonical b) {x y : Int × Int × Int}
    (hx : key a = some x) (hy : key b = some y) : Before x y ↔ units a < units b := by
  have hlimit := limit_pos
  unfold Before
  rcases key_cases ha hx with ⟨rfl, hua⟩ | ⟨m, k, h, hbounds, rfl, hua⟩ | ⟨rfl, hua⟩ | ⟨m, k, h, hbounds, rfl, hua⟩ | ⟨rfl, hua⟩ <;>
    rcases key_cases hb hy with ⟨rfl, hub⟩ | ⟨m', k', h', hbounds', rfl, hub⟩ | ⟨rfl, hub⟩ | ⟨m', k', h', hbounds', rfl, hub⟩ |
      ⟨rfl, hub⟩ <;>
    rw [hua, hub] <;> dsimp only
  case inr.inl.inr.inl =>
    have := h'.lt_iff h
    omega
  case inr.inr.inr.inl.inr.inr.inr.inl =>
    have := h.lt_iff h'
    omega
  all_goals omega

/-! ## Sums -/

/-- No machine number, infinities included, has a value closer to `x`. -/
def Near (r x : ℤ) : Prop := ∀ y, Fits y → y.natAbs ≤ limit → (r - x).natAbs ≤ (y - x).natAbs

theorem near_self (x : ℤ) : Near x x := fun y _ _ => nearest_self x y ‹_›

theorem Near.apply {r x : ℤ} (h : Near r x) (sign : Sign) : Near (sign.apply r) (sign.apply x) := by
  cases sign with
  | positive => exact h
  | negative =>
    intro y hy hlimit
    have := h (-y) hy.neg (by rwa [Int.natAbs_neg])
    change (-r - -x).natAbs ≤ (y - -x).natAbs
    omega

theorem fits_limit : Fits limit :=
  ⟨2 ^ 52, greatest + 1, by norm_num, by
    rw [Int.natAbs_natCast]
    unfold limit
    ring⟩

/-- What rounds to something too large is closest to the limit. -/
theorem near_limit {r x : ℕ} (h : Nearest r x) (hr : limit ≤ r) : Near limit x := by
  intro y hy hlimit
  have hself := h limit fits_limit
  have hy' := h y hy
  omega

/-- A number as it comes back from its bits. -/
def packed (f : UnpackedFloat) : UnpackedFloat := UnpackedFloat.unpack Format.binary64 (UnpackedFloat.pack Format.binary64 f)

theorem packed_canonical {f : UnpackedFloat} (h : Canonical f) : packed f = f := unpack_pack h

theorem packed_round (sign : Sign) {m : ℕ} (hm : 0 < m) (k : ℕ) :
    (packed (UnpackedFloat.round Format.binary64 sign m (k - 1074))).isNaN = false ∧
      Near (units (packed (UnpackedFloat.round Format.binary64 sign m (k - 1074)))) (sign.apply (m * 2 ^ k : ℕ)) := by
  obtain ⟨m', k', hm', hround, hholds, hnear⟩ := round_exact sign hm k
  rw [hround]
  rcases Nat.lt_or_ge greatest k' with hlt | hle
  · have hlarge : limit ≤ m' * 2 ^ k' := by
      obtain ⟨i, rfl⟩ := Nat.exists_eq_add_of_lt hlt
      calc limit = 2 ^ 52 * 2 ^ (greatest + 1) := by unfold limit; ring
        _ ≤ 2 ^ 52 * 2 ^ (greatest + i + 1) := Nat.mul_le_mul_left _ (Nat.pow_le_pow_right Nat.two_pos (by omega))
        _ ≤ m' * 2 ^ (greatest + i + 1) := Nat.mul_le_mul_right _ (hholds.2.resolve_right (Nat.succ_ne_zero _))
    unfold packed
    rw [unpack_pack_overflow sign hm' hlt]
    exact ⟨rfl, (near_limit hnear hlarge).apply sign⟩
  · have hcanonical : Canonical (.finite sign m' (k' - 1074) hm') := ⟨k', rfl, hle, hholds⟩
    rw [packed_canonical hcanonical, units_finite]
    exact ⟨rfl, Near.apply (fun y hy _ => hnear y hy) sign⟩

theorem packed_normalize (m : ℤ) (k : ℕ) (sign : Sign) :
    (packed (UnpackedFloat.normalize Format.binary64 m (k - 1074) sign)).isNaN = false ∧
      Near (units (packed (UnpackedFloat.normalize Format.binary64 m (k - 1074) sign))) (m * 2 ^ k) := by
  unfold UnpackedFloat.normalize
  rcases lt_trichotomy m 0 with hlt | rfl | hlt
  · rw [show compare m 0 = .lt from Int.compare_eq_lt.mpr hlt]
    have hround := packed_round .negative (m := (-m).toNat) (by omega) k
    have hvalue : Sign.negative.apply ((-m).toNat * 2 ^ k : ℕ) = m * 2 ^ k := by
      change -(((-m).toNat * 2 ^ k : ℕ) : ℤ) = _
      push_cast
      rw [Int.toNat_of_nonneg (by omega)]
      ring
    rwa [hvalue] at hround
  · rw [show compare (0 : ℤ) 0 = .eq from rfl, zero_mul]
    change (packed (.zero sign)).isNaN = false ∧ Near (units (packed (.zero sign))) 0
    have hcanonical : Canonical (.zero sign) := trivial
    rw [packed_canonical hcanonical]
    exact ⟨rfl, near_self 0⟩
  · rw [show compare m 0 = .gt from Int.compare_eq_gt.mpr hlt]
    have hround := packed_round .positive (m := m.toNat) (by omega) k
    have hvalue : Sign.positive.apply (m.toNat * 2 ^ k : ℕ) = m * 2 ^ k := by
      change ((m.toNat * 2 ^ k : ℕ) : ℤ) = _
      push_cast
      rw [Int.toNat_of_nonneg hlt.le]
    rwa [hvalue] at hround

theorem apply_mul (sign : Sign) (m j : ℕ) : sign.apply m * 2 ^ j = sign.apply (m * 2 ^ j : ℕ) := by
  unfold Sign.apply
  push_cast
  cases sign with
  | positive => rfl
  | negative => exact neg_mul ..

/-- **A sum is a closest machine number to the exact sum.** -/
theorem packed_add {a b : UnpackedFloat} (ha : Canonical a) (hb : Canonical b) (hfa : a.isFinite = true)
    (hfb : b.isFinite = true) : (packed (UnpackedFloat.add Format.binary64 a b)).isNaN = false ∧
      Near (units (packed (UnpackedFloat.add Format.binary64 a b))) (units a + units b) := by
  have hsame : ∀ {c : UnpackedFloat} {x : ℤ}, Canonical c → c.isNaN = false → units c = x →
      (packed c).isNaN = false ∧ Near (units (packed c)) x := fun hc hnan hx => by
    rw [packed_canonical hc, hx]
    exact ⟨hnan, near_self _⟩
  cases a with
  | notANumber => cases hfa
  | infinity => cases hfa
  | zero sign =>
    cases b with
    | notANumber => cases hfb
    | infinity => cases hfb
    | zero sign' =>
      obtain ⟨s, hs⟩ : ∃ s, UnpackedFloat.add Format.binary64 (.zero sign) (.zero sign') = .zero s := by
        cases sign <;> cases sign' <;> exact ⟨_, rfl⟩
      rw [hs]
      exact hsame trivial rfl rfl
    | finite sign' m' e' hm' => exact hsame hb rfl (zero_add _).symm
  | finite sign m e hm =>
    cases b with
    | notANumber => cases hfb
    | infinity => cases hfb
    | zero sign' => exact hsame ha rfl (add_zero _).symm
    | finite sign' m' e' hm' =>
      obtain ⟨k, rfl, -⟩ := ha
      obtain ⟨k', rfl, -⟩ := hb
      rw [units_finite, units_finite]
      -- both mantissas are taken to the smaller exponent
      obtain ⟨j, hj, ⟨i, rfl⟩, ⟨i', rfl⟩⟩ : ∃ j : ℕ, min ((k : ℤ) - 1074) (k' - 1074) = j - 1074 ∧ (∃ i, k = j + i) ∧
          ∃ i', k' = j + i' :=
        ⟨min k k', by omega, ⟨k - min k k', by omega⟩, ⟨k' - min k k', by omega⟩⟩
      have hadd : UnpackedFloat.add Format.binary64 (.finite sign m ((j + i : ℕ) - 1074) hm)
          (.finite sign' m' ((j + i' : ℕ) - 1074) hm') = UnpackedFloat.normalize Format.binary64
            (sign.apply (m * 2 ^ i : ℕ) + sign'.apply (m' * 2 ^ i' : ℕ)) (j - 1074) .positive := by
        have hi : (((j + i : ℕ) : ℤ) - 1074 - (j - 1074)).toNat = i := by omega
        have hi' : (((j + i' : ℕ) : ℤ) - 1074 - (j - 1074)).toNat = i' := by omega
        unfold UnpackedFloat.add decreaseExponent
        dsimp only
        rw [hj, hi, hi', Nat.shiftLeft_eq, Nat.shiftLeft_eq]
      have hnormalize := packed_normalize (sign.apply (m * 2 ^ i : ℕ) + sign'.apply (m' * 2 ^ i' : ℕ)) j .positive
      rw [add_mul, apply_mul, apply_mul, Nat.mul_assoc, Nat.mul_assoc, ← Nat.pow_add, ← Nat.pow_add, Nat.add_comm i,
        Nat.add_comm i'] at hnormalize
      rwa [hadd]

end BranchAndCut.Machine
