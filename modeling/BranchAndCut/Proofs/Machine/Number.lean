import BranchAndCut.Proofs.Machine.Rounding

/-! # Sums and integer parts of machine numbers

Machine numbers compare as their values do, and are told apart by them but for the two zeros.
So a sum is described by one fact: it is closest to the exact sum. From this follow the
direction of a sum and the exactness of small whole sums, which make the integer part, rounded
up or down, a whole number. -/

namespace BranchAndCut.Machine

open Float.Model UnpackedFloat

/-! ## Machine numbers -/

/-- The value of a machine number. -/
def value (a : Float) : ℤ := units a.toModel.unpack

theorem canonical (a : Float) : Canonical a.toModel.unpack := unpack_canonical _

/-- The key of a defined number. -/
theorem exists_key {a : Float} (h : Scalar.isNaN a = false) : ∃ x, FloatOrder.key a.toModel.unpack = some x :=
  (FloatOrder.key_isSome _).mp h

theorem lt_iff {a b : Float} (ha : Scalar.isNaN a = false) (hb : Scalar.isNaN b = false) : a < b ↔ value a < value b := by
  obtain ⟨x, hx⟩ := exists_key ha
  obtain ⟨y, hy⟩ := exists_key hb
  unfold value
  rw [FloatOrder.lt_iff, FloatOrder.lt_iff_before, ← before_iff (canonical a) (canonical b) hx hy]
  constructor
  · rintro ⟨x', y', hx', hy', h⟩
    obtain rfl := Option.some.inj (hx.symm.trans hx')
    obtain rfl := Option.some.inj (hy.symm.trans hy')
    exact h
  · exact fun h => ⟨x, y, hx, hy, h⟩

theorem le_iff {a b : Float} (ha : Scalar.isNaN a = false) (hb : Scalar.isNaN b = false) : a ≤ b ↔ value a ≤ value b := by
  rw [← not_lt, ← lt_iff hb ha]
  exact ⟨fun h => Scalar.Ordered.not_lt_of_le h, fun h => Scalar.Ordered.le_of_not_lt ha hb h⟩

open FloatOrder in
/-- Apart from the two zeros, numbers are told apart by their keys. -/
theorem eq_of_key {a b : UnpackedFloat} {x : Int × Int × Int} (ha : key a = some x) (hb : key b = some x)
    (hx : x.1 ≠ 0) : a = b := by
  obtain ⟨x₁, x₂, x₃⟩ := x
  rcases a with (_ | _) | _ | _ | ⟨_ | _, m, e, _⟩ <;> rcases b with (_ | _) | _ | _ | ⟨_ | _, m', e', _⟩ <;>
    simp [key] at ha hb ⊢ <;> omega

theorem eq_of_unpack {a b : Float} (ha : Scalar.isNaN a = false) (h : a.toModel.unpack = b.toModel.unpack) : a = b := by
  obtain ⟨⟨bits, hbits⟩⟩ := a
  obtain ⟨⟨bits', hbits'⟩⟩ := b
  replace h : UnpackedFloat.unpack Format.binary64 bits.toBitVec = UnpackedFloat.unpack Format.binary64 bits'.toBitVec := h
  replace ha : (UnpackedFloat.unpack Format.binary64 bits.toBitVec).isNaN = false := ha
  obtain rfl : bits = bits' := UInt64.toBitVec_inj.mp <| calc
    bits.toBitVec = UnpackedFloat.pack Format.binary64 (UnpackedFloat.unpack Format.binary64 bits.toBitVec) := (pack_unpack ha).symm
    _ = UnpackedFloat.pack Format.binary64 (UnpackedFloat.unpack Format.binary64 bits'.toBitVec) := by rw [h]
    _ = bits'.toBitVec := pack_unpack (h ▸ ha)
  rfl

/-- **Machine numbers of one value other than zero are the same.** -/
theorem eq_of_value {a b : Float} (ha : Scalar.isNaN a = false) (hb : Scalar.isNaN b = false) (h : value a = value b)
    (hne : value a ≠ 0) : a = b := by
  obtain ⟨x, hx⟩ := exists_key ha
  obtain ⟨y, hy⟩ := exists_key hb
  have hxy := before_iff (canonical a) (canonical b) hx hy
  have hyx := before_iff (canonical b) (canonical a) hy hx
  unfold value at h hne
  have hsame : x = y := by
    obtain ⟨x₁, x₂, x₃⟩ := x
    obtain ⟨y₁, y₂, y₃⟩ := y
    unfold FloatOrder.Before at hxy hyx
    simp only [Prod.mk.injEq]
    dsimp only at hxy hyx
    omega
  subst hsame
  refine eq_of_unpack ha (eq_of_key hx hy fun hzero => hne ?_)
  rcases key_cases (canonical a) hx with ⟨rfl, -⟩ | ⟨m, k, -, -, rfl, -⟩ | ⟨rfl, hua⟩ | ⟨m, k, -, -, rfl, -⟩ | ⟨rfl, -⟩
  · cases hzero
  · cases hzero
  · exact hua
  · cases hzero
  · cases hzero

/-! ### Negation and sums -/

theorem Canonical.neg {a : UnpackedFloat} (h : Canonical a) : Canonical a.neg := by
  cases a with
  | finite sign m e hm => exact h
  | _ => trivial

theorem unpack_neg (a : Float) : (-a).toModel.unpack = a.toModel.unpack.neg := packed_canonical (canonical a).neg

theorem units_neg (a : UnpackedFloat) : units a.neg = -units a := by
  have hneg : ∀ (sign : Sign) (x : ℤ), (-sign).apply x = -sign.apply x := fun sign x => by
    cases sign with
    | positive => rfl
    | negative => exact (neg_neg x).symm
  cases a with
  | notANumber => rfl
  | infinity sign => exact hneg sign limit
  | zero sign => rfl
  | finite sign m e hm => exact hneg sign _

theorem value_neg (a : Float) : value (-a) = -value a := by
  unfold value
  rw [unpack_neg, units_neg]

theorem isNaN_neg (a : Float) : Scalar.isNaN (-a) = Scalar.isNaN a := by
  change (-a).toModel.unpack.isNaN = a.toModel.unpack.isNaN
  rw [unpack_neg]
  cases a.toModel.unpack <;> rfl

theorem isFinite_neg (a : Float) : Scalar.isFinite (-a) = Scalar.isFinite a := by
  change (-a).toModel.unpack.isFinite = a.toModel.unpack.isFinite
  rw [unpack_neg]
  cases a.toModel.unpack <;> rfl

theorem sub_eq_add_neg (a b : Float) : a - b = a + -b := by
  have hsub : ∀ a b : UnpackedFloat, UnpackedFloat.sub Format.binary64 a b = UnpackedFloat.add Format.binary64 a b.neg := by
    intro a b
    have happly : ∀ (s s' : Sign) (x y : ℤ), s.apply x - s'.apply y = s.apply x + (-s').apply y := fun s s' x y => by
      cases s' with
      | positive => exact Int.sub_eq_add_neg
      | negative => exact sub_neg_eq_add _ _
    cases a with
    | finite s m e hm =>
      cases b with
      | finite s' m' e' hm' =>
        unfold UnpackedFloat.sub UnpackedFloat.add UnpackedFloat.neg
        dsimp only
        rw [happly]
      | _ => rfl
    | _ => cases b <;> rfl
  have hmodel : UnpackedFloat.sub Format.binary64 a.toModel.unpack b.toModel.unpack =
      UnpackedFloat.add Format.binary64 a.toModel.unpack (-b).toModel.unpack := by
    rw [unpack_neg, hsub]
  exact congrArg (fun f => Float.ofModel (Float.Model.pack f)) hmodel

/-- A defined number is an infinity or has a value that fits. -/
theorem finite_or_infinite {a : Float} (ha : Scalar.isNaN a = false) :
    Scalar.isFinite a = true ∧ Fits (value a) ∧ (value a).natAbs < limit ∨
      Scalar.isFinite a = false ∧ ∃ sign, a.toModel.unpack = .infinity sign ∧ value a = Sign.apply sign limit := by
  change a.toModel.unpack.isNaN = false at ha
  have hcanonical := canonical a
  change a.toModel.unpack.isFinite = true ∧ _ ∨ a.toModel.unpack.isFinite = false ∧ _
  unfold value
  cases hunpack : a.toModel.unpack with
  | notANumber =>
    rw [hunpack] at ha
    cases ha
  | infinity sign => exact .inr ⟨rfl, sign, rfl, rfl⟩
  | zero sign => exact .inl ⟨rfl, ⟨0, 0, by norm_num, rfl⟩, limit_pos⟩
  | finite sign m e hm =>
    rw [hunpack] at hcanonical
    obtain ⟨k, rfl, hk, hholds⟩ := hcanonical
    have habs : (units (.finite sign m (k - 1074) hm)).natAbs = m * 2 ^ k := by
      rw [units_finite]
      cases sign with
      | positive => exact Int.natAbs_natCast _
      | negative => exact (Int.natAbs_neg _).trans (Int.natAbs_natCast _)
    exact .inl ⟨rfl, ⟨m, k, hholds.1, habs⟩, habs ▸ hholds.lt_limit hk⟩

theorem natAbs_apply_limit (sign : Sign) : (sign.apply (limit : ℤ)).natAbs = limit := by
  cases sign with
  | positive => exact Int.natAbs_natCast _
  | negative => exact (Int.natAbs_neg _).trans (Int.natAbs_natCast _)

theorem fits_value {a : Float} (ha : Scalar.isNaN a = false) : Fits (value a) ∧ (value a).natAbs ≤ limit := by
  rcases finite_or_infinite ha with ⟨-, hfits, hlt⟩ | ⟨-, sign, -, hvalue⟩
  · exact ⟨hfits, hlt.le⟩
  · rw [hvalue, natAbs_apply_limit]
    refine ⟨?_, le_rfl⟩
    cases sign with
    | positive => exact fits_limit
    | negative => exact fits_limit.neg

theorem isFinite_iff {a : Float} (ha : Scalar.isNaN a = false) : Scalar.isFinite a = true ↔ (value a).natAbs < limit := by
  rcases finite_or_infinite ha with ⟨hfinite, -, hlt⟩ | ⟨hinf, sign, -, hvalue⟩
  · exact ⟨fun _ => hlt, fun _ => hfinite⟩
  · rw [hinf, hvalue, natAbs_apply_limit]
    exact ⟨nofun, fun h => (lt_irrefl _ h).elim⟩

theorem add_finite {a b : Float} (ha : Scalar.isFinite a = true) (hb : Scalar.isFinite b = true) :
    Scalar.isNaN (a + b) = false ∧ Near (value (a + b)) (value a + value b) :=
  packed_add (canonical a) (canonical b) ha hb

/-- An infinity stays the same, if the other one is not added. -/
theorem add_infinite {a b : Float} {sign : Sign} (ha : a.toModel.unpack = .infinity sign)
    (hb : Scalar.isFinite b = true ∨ b.toModel.unpack = .infinity sign) : (a + b).toModel.unpack = .infinity sign := by
  change packed (UnpackedFloat.add Format.binary64 a.toModel.unpack b.toModel.unpack) = _
  have hsum : UnpackedFloat.add Format.binary64 (.infinity sign) b.toModel.unpack = .infinity sign := by
    rcases hb with hb | hb
    · change b.toModel.unpack.isFinite = true at hb
      cases hunpack : b.toModel.unpack with
      | zero => rfl
      | finite => rfl
      | _ =>
        rw [hunpack] at hb
        cases hb
    · rw [hb]
      cases sign <;> rfl
  have hcanonical : Canonical (.infinity sign) := trivial
  rw [ha, hsum, packed_canonical hcanonical]

theorem infinite_add {a b : Float} {sign : Sign} (ha : Scalar.isFinite a = true) (hb : b.toModel.unpack = .infinity sign) :
    (a + b).toModel.unpack = .infinity sign := by
  change packed (UnpackedFloat.add Format.binary64 a.toModel.unpack b.toModel.unpack) = _
  have hcanonical : Canonical (.infinity sign) := trivial
  have hsum : UnpackedFloat.add Format.binary64 a.toModel.unpack (.infinity sign) = .infinity sign := by
    change a.toModel.unpack.isFinite = true at ha
    cases hunpack : a.toModel.unpack with
    | zero => rfl
    | finite => rfl
    | _ =>
      rw [hunpack] at ha
      cases ha
  rw [hb, hsum, packed_canonical hcanonical]

theorem defined_of_infinite {a : Float} {sign : Sign} (h : a.toModel.unpack = .infinity sign) :
    Scalar.isNaN a = false ∧ value a = sign.apply limit := by
  change a.toModel.unpack.isNaN = false ∧ units a.toModel.unpack = _
  rw [h]
  exact ⟨rfl, rfl⟩

theorem defined_add {a b : Float} (ha : Scalar.isNaN a = false) (hb : Scalar.isFinite b = true) : Scalar.isNaN (a + b) = false := by
  rcases finite_or_infinite ha with ⟨hfinite, -⟩ | ⟨-, sign, hunpack, -⟩
  · exact (add_finite hfinite hb).1
  · exact (defined_of_infinite (add_infinite hunpack (.inl hb))).1

/-- **A sum lies in the direction of what is added**, and what is infinite that way stays so. -/
theorem add_toward {a e : Float} (dir : Sign) (ha : Scalar.isNaN a = false) (he : Scalar.isNaN e = false)
    (hdir : 0 ≤ dir.apply (value e)) (hne : value a ≠ -dir.apply limit) :
    Scalar.isNaN (a + e) = false ∧ 0 ≤ dir.apply (value (a + e) - value a) := by
  have hlimit := limit_pos
  rcases finite_or_infinite ha with ⟨hfinite, hfits, hlt⟩ | ⟨-, sign, hunpack, hvalue⟩
  · rcases finite_or_infinite he with ⟨hfe, -⟩ | ⟨-, sign, hunpack, hvalue⟩
    · obtain ⟨hdefined, hnear⟩ := add_finite hfinite hfe
      have := hnear _ hfits hlt.le
      refine ⟨hdefined, ?_⟩
      cases dir <;> simp only [Sign.apply] at hdir ⊢ <;> omega
    · obtain ⟨hdefined, hsum⟩ := defined_of_infinite (infinite_add hfinite hunpack)
      refine ⟨hdefined, ?_⟩
      rw [hvalue] at hdir
      rw [hsum]
      cases dir <;> cases sign <;> simp only [Sign.apply] at hdir ⊢ <;> omega
  · have hsame : Scalar.isFinite e = true ∨ e.toModel.unpack = .infinity sign := by
      rcases finite_or_infinite he with ⟨hfe, -⟩ | ⟨-, sign', hunpack', hvalue'⟩
      · exact .inl hfe
      · refine .inr ?_
        rw [hvalue] at hne
        rw [hvalue'] at hdir
        cases dir <;> cases sign <;> cases sign' <;> simp only [Sign.apply] at hne hdir <;> first | exact hunpack' | omega
    obtain ⟨hdefined, hsum⟩ := defined_of_infinite (add_infinite hunpack hsame)
    refine ⟨hdefined, ?_⟩
    rw [hsum, hvalue, sub_self]
    cases dir <;> exact le_rfl

/-! ### Products -/

theorem units_positive_nonneg (exponent : BitVec 11) (mantissa : BitVec 52) :
    0 ≤ units (UnpackedFloat.unpack Format.binary64 (packComponents Format.binary64 .positive exponent mantissa)) := by
  have hpos : ∀ n : ℕ, 0 ≤ Sign.positive.apply (n : ℤ) := fun n => Int.natCast_nonneg n
  simp only [UnpackedFloat.unpack, unpackMantissa_packComponents, unpackExponent_packComponents, unpackSign_packComponents]
  split
  · split
    · exact hpos limit
    · exact le_rfl
  · split
    · split
      · exact le_rfl
      · exact hpos _
    · exact hpos _

/-- Not a number below zero, nor the negative zero. -/
def Positive : UnpackedFloat → Prop
  | .infinity .positive | .zero .positive | .finite .positive _ _ _ => True
  | _ => False

theorem Positive.packed_nonneg {f : UnpackedFloat} (h : Positive f) : 0 ≤ units (packed f) := by
  have hbits : ∃ exponent mantissa, UnpackedFloat.pack Format.binary64 f = packComponents Format.binary64 .positive exponent mantissa := by
    rcases f with (_ | _) | _ | (_ | _) | ⟨_ | _, m, e, hm⟩
    · exact h.elim
    · exact ⟨_, _, rfl⟩
    · exact h.elim
    · exact h.elim
    · exact ⟨_, _, rfl⟩
    · exact h.elim
    · simp only [UnpackedFloat.pack]
      split
      · exact ⟨_, _, rfl⟩
      · split
        · exact ⟨_, _, rfl⟩
        · exact ⟨_, _, rfl⟩
  obtain ⟨exponent, mantissa, hbits⟩ := hbits
  unfold packed
  rw [hbits]
  exact units_positive_nonneg exponent mantissa

/-- A product of positive numbers is not negative, though it may overflow or vanish. -/
theorem mul_nonneg {a b : Float} (ha : 0 < a) (hb : 0 < b) : 0 ≤ value (a * b) := by
  have hround : ∀ m e, Positive (roundWithAccuracy Format.binary64 .positive m e .exact) := fun m e => by
    unfold roundWithAccuracy
    dsimp only
    split <;> trivial
  have hzero : (0 : Float).toModel.unpack = .zero .positive := rfl
  rw [FloatOrder.lt_iff, hzero] at ha hb
  refine Positive.packed_nonneg (f := UnpackedFloat.mul Format.binary64 a.toModel.unpack b.toModel.unpack) ?_
  have hshape : ∀ f : UnpackedFloat, (UnpackedFloat.zero .positive).lt f = true →
      f = .infinity .positive ∨ ∃ m e hm, f = .finite .positive m e hm := fun f hf => by
    rcases f with (_ | _) | _ | _ | ⟨_ | _, m, e, hm⟩
    · cases hf
    · exact .inl rfl
    · cases hf
    · cases hf
    · cases hf
    · exact .inr ⟨m, e, hm, rfl⟩
  rcases hshape _ ha with ha | ⟨m, e, hm, ha⟩
  · rcases hshape _ hb with hb | ⟨m', e', hm', hb⟩
    · rw [ha, hb]
      trivial
    · rw [ha, hb]
      trivial
  · rcases hshape _ hb with hb | ⟨m', e', hm', hb⟩
    · rw [ha, hb]
      trivial
    · rw [ha, hb]
      exact hround _ _

/-! ## Whole numbers -/

/-- The binary places after the point. -/
def places : ℕ := 1074

/-- The value of one. -/
def unity : ℕ := 2 ^ places

/-- The numbers that integer parts, tolerances and slacks are made of. -/
theorem constants : (Scalar.isNaN (0 : Float) = false ∧ value 0 = 0) ∧ (Scalar.isNaN (1 : Float) = false ∧ value 1 = unity) ∧
    (Scalar.isNaN (-1 : Float) = false ∧ value (-1) = -unity) ∧ (Scalar.isNaN (0.5 : Float) = false ∧ 2 * value 0.5 = unity) ∧
      (Scalar.isNaN (4503599627370496.0 : Float) = false ∧ value 4503599627370496.0 = 2 ^ 52 * unity) ∧
        (Scalar.isNaN (1e-9 : Float) = false ∧ 0 < value 1e-9) := by
  decide +kernel

theorem defined_zero : Scalar.isNaN (0 : Float) = false := constants.1.1

theorem value_zero : value 0 = 0 := constants.1.2

theorem defined_one : Scalar.isNaN (1 : Float) = false := constants.2.1.1

theorem value_one : value 1 = unity := constants.2.1.2

theorem defined_half : Scalar.isNaN (0.5 : Float) = false := constants.2.2.2.1.1

theorem value_half : 2 * value 0.5 = unity := constants.2.2.2.1.2

theorem exact_of_fits {r x : ℤ} (h : Near r x) (hx : Fits x) (hlimit : x.natAbs ≤ limit) : r = x := by
  have := h x hx hlimit
  omega

theorem fits_whole {n : ℤ} (h : n.natAbs < 2 ^ 53) : Fits (n * unity) ∧ (n * (unity : ℤ)).natAbs < limit := by
  have habs : (n * (unity : ℤ)).natAbs = n.natAbs * 2 ^ places := by
    rw [Int.natAbs_mul, Int.natAbs_natCast]
    rfl
  refine ⟨⟨n.natAbs, places, h, habs⟩, ?_⟩
  have hpow : 2 ^ places ≤ 2 ^ greatest := Nat.pow_le_pow_right Nat.two_pos (by decide)
  rw [habs]
  exact Nat.lt_of_lt_of_le (Nat.mul_lt_mul_of_pos_right h (Nat.two_pow_pos _)) (Nat.mul_le_mul_left _ hpow)

theorem unity_pos : 0 < unity := Nat.two_pow_pos _

/-- What is too large for a fractional part is whole. -/
theorem dvd_of_large {a : Float} (ha : Scalar.isNaN a = false) (h : 2 ^ 52 * unity ≤ (value a).natAbs) : (unity : ℤ) ∣ value a := by
  obtain ⟨⟨m, k, hm, heq⟩, -⟩ := fits_value ha
  rw [Int.natCast_dvd, heq]
  have hk : places ≤ k := by
    by_contra hlt
    have hpow : 2 ^ k * 2 ≤ unity := by
      rw [← Nat.pow_succ]
      exact Nat.pow_le_pow_right Nat.two_pos (by omega)
    have hless : m * 2 ^ k < 2 ^ 53 * 2 ^ k := Nat.mul_lt_mul_of_pos_right hm (Nat.two_pow_pos k)
    omega
  exact Nat.dvd_mul_left_of_dvd (Nat.pow_dvd_pow 2 hk) m

/-- A positive number that is not too large, in its parts. -/
theorem exists_finite {a : Float} (hpos : 0 < value a) (hlt : value a < limit) :
    ∃ m k : ℕ, ∃ hm, a.toModel.unpack = .finite .positive m (k - 1074) hm ∧ value a = (m * 2 ^ k : ℕ) := by
  have hcanonical := canonical a
  unfold value at hpos hlt ⊢
  cases hunpack : a.toModel.unpack with
  | notANumber =>
    rw [hunpack] at hpos
    cases hpos
  | infinity sign =>
    rw [hunpack] at hpos hlt
    cases sign with
    | positive => exact (lt_irrefl _ hlt).elim
    | negative =>
      change 0 < -(limit : ℤ) at hpos
      omega
  | zero sign =>
    rw [hunpack] at hpos
    cases hpos
  | finite sign m e hm =>
    rw [hunpack] at hcanonical hpos
    obtain ⟨k, rfl, -⟩ := hcanonical
    rw [units_finite] at hpos
    cases sign with
    | positive => exact ⟨m, k, hm, rfl, units_finite ..⟩
    | negative =>
      change 0 < -((m * 2 ^ k : ℕ) : ℤ) at hpos
      omega

theorem roundToInt_positive (m k : ℕ) : roundToInt .positive m (k - 1074) = (m * 2 ^ k / unity : ℕ) := by
  unfold roundToInt decreaseExponent shiftToExponent
  dsimp only
  rw [shiftRight_exact, Nat.shiftLeft_eq]
  change ((m * 2 ^ ((k : ℤ) - 1074 - 0).toNat / 2 ^ (0 - ((k : ℤ) - 1074 - ((k : ℤ) - 1074 - 0).toNat)).toNat : ℕ) : ℤ) = _
  have hpos : ∀ i : ℕ, 0 < 2 ^ i := Nat.two_pow_pos
  have hplaces : places = 1074 := rfl
  unfold unity
  congr 1
  rcases Nat.le_total k places with hle | hle
  · obtain ⟨i, hi⟩ := Nat.exists_eq_add_of_le' hle
    rw [show ((k : ℤ) - 1074 - 0).toNat = 0 by omega, show (0 - ((k : ℤ) - 1074 - (0 : ℕ))).toNat = i by omega, hi, Nat.pow_add,
      Nat.mul_div_mul_right _ _ (hpos k), Nat.pow_zero, Nat.mul_one]
  · obtain ⟨i, rfl⟩ := Nat.exists_eq_add_of_le hle
    rw [show (((places + i : ℕ) : ℤ) - 1074 - 0).toNat = i by omega,
      show (0 - (((places + i : ℕ) : ℤ) - 1074 - (i : ℕ))).toNat = 0 by omega, Nat.pow_zero, Nat.div_one, Nat.pow_add,
      Nat.mul_left_comm, Nat.mul_div_cancel_left _ (hpos places)]

theorem large_lt_limit : 2 ^ 52 * unity < limit :=
  Nat.lt_of_lt_of_le (Nat.mul_lt_mul_of_pos_right (by norm_num) unity_pos)
    (Nat.mul_le_mul_left _ (Nat.pow_le_pow_right Nat.two_pos (by decide)))

/-- **The integer part of a number** is that of its value. -/
theorem toUInt64_value {a : Float} (hpos : 0 < value a) (hsmall : value a < 2 ^ 52 * unity) :
    (a.toUInt64.toNat : ℤ) = value a / unity := by
  have hlarge := large_lt_limit
  obtain ⟨m, k, hm, hunpack, hvalue⟩ := exists_finite hpos (by omega)
  change ((UInt64.ofNatClamp (a.toModel.unpack.toInt 0 (UInt64.size - 1)).toNat).toNat : ℤ) = _
  rw [hunpack]
  change ((UInt64.ofNatClamp (roundToInt .positive m (k - 1074)).toNat).toNat : ℤ) = _
  rw [roundToInt_positive, Int.toNat_natCast, hvalue]
  have hquotient : m * 2 ^ k / unity < 2 ^ 52 := by
    rw [Nat.div_lt_iff_lt_mul unity_pos]
    omega
  rw [UInt64.toNat_ofNatClamp_of_lt (Nat.lt_trans hquotient (by decide))]
  exact Int.natCast_div _ _

/-- **A natural number of at most 53 places is exact.** -/
theorem toFloat_value {n : UInt64} (hn : n.toNat < 2 ^ 53) : Scalar.isNaN n.toFloat = false ∧ value n.toFloat = n.toNat * unity := by
  have hround := packed_normalize n.toNat places .positive
  have hzero : ((places : ℕ) : ℤ) - 1074 = 0 := rfl
  rw [hzero] at hround
  obtain ⟨hfits, hlimit⟩ := fits_whole (n := n.toNat) (by rwa [Int.natAbs_natCast])
  have hnear : Near (value n.toFloat) (n.toNat * unity) := by
    rw [show ((unity : ℕ) : ℤ) = 2 ^ places from Nat.cast_pow 2 places]
    exact hround.2
  exact ⟨hround.1, exact_of_fits hnear hfits hlimit.le⟩

/-! ### Rounding to whole numbers -/

theorem Canonical.abs {a : UnpackedFloat} (h : Canonical a) : Canonical a.abs := by
  cases a with
  | finite sign m e hm => exact h
  | _ => trivial

theorem unpack_abs (a : Float) : a.abs.toModel.unpack = a.toModel.unpack.abs := packed_canonical (canonical a).abs

theorem isNaN_abs (a : Float) : Scalar.isNaN a.abs = Scalar.isNaN a := by
  change a.abs.toModel.unpack.isNaN = a.toModel.unpack.isNaN
  rw [unpack_abs]
  cases a.toModel.unpack <;> rfl

theorem value_abs (a : Float) : value a.abs = (value a).natAbs := by
  have happly : ∀ (sign : Sign) (n : ℕ), ((sign.apply (n : ℤ)).natAbs : ℤ) = n := fun sign n => by
    cases sign with
    | positive => exact congrArg _ (Int.natAbs_natCast n)
    | negative => exact congrArg _ ((Int.natAbs_neg _).trans (Int.natAbs_natCast n))
  unfold value
  rw [unpack_abs]
  cases a.toModel.unpack with
  | notANumber => rfl
  | infinity sign => exact (happly sign limit).symm
  | zero sign => rfl
  | finite sign m e hm => exact (happly sign _).symm

/-- The integer part of a positive number, as a number again. -/
theorem toFloat_toUInt64 {a : Float} (hpos : 0 < value a) (hsmall : value a < 2 ^ 52 * unity) :
    Scalar.isNaN a.toUInt64.toFloat = false ∧ value a.toUInt64.toFloat = value a / unity * unity := by
  have hinteger := toUInt64_value hpos hsmall
  have hquotient : value a / unity < 2 ^ 52 := Int.ediv_lt_of_lt_mul (by exact_mod_cast unity_pos) hsmall
  rw [← hinteger]
  exact toFloat_value (by omega)

theorem not_lt_self {a : Float} (ha : Scalar.isNaN a = false) : ¬ a < a :=
  Scalar.Ordered.not_lt_of_le (Scalar.Ordered.le_refl ha)

theorem zero_lt_iff {a : Float} (ha : Scalar.isNaN a = false) : 0 < a ↔ 0 < value a := by
  rw [lt_iff defined_zero ha, value_zero]

theorem lt_zero_iff {a : Float} (ha : Scalar.isNaN a = false) : a < 0 ↔ value a < 0 := by
  rw [lt_iff ha defined_zero, value_zero]

/-- Both zeros are their own integer parts. -/
theorem trunc_of_zero {a : Float} (ha : Scalar.isNaN a = false) (h : value a = 0) : floatTrunc a = a := by
  have hpos : ¬ 0 < a := fun hlt => ((zero_lt_iff ha).mp hlt).ne' h
  have hneg : ¬ a < 0 := fun hlt => ((lt_zero_iff ha).mp hlt).ne h
  unfold floatTrunc
  rw [if_neg hpos, if_neg hneg, ite_self]

/-- **The integer part of a number** is that of its value: numbers that are too large for a
fractional part are left as they are. -/
theorem value_trunc {a : Float} (ha : Scalar.isNaN a = false) : Scalar.isNaN (floatTrunc a) = false ∧
    value (floatTrunc a) = (value a).tdiv unity * unity := by
  by_cases hzero : value a = 0
  · rw [trunc_of_zero ha hzero, hzero, Int.zero_tdiv, zero_mul]
    exact ⟨ha, rfl⟩
  have hbound : a.abs < 4503599627370496.0 ↔ (value a).natAbs < 2 ^ 52 * unity := by
    obtain ⟨-, -, -, -, ⟨hdefined, hvalue⟩, -⟩ := constants
    rw [lt_iff ((isNaN_abs a).trans ha) hdefined, value_abs, hvalue]
    exact_mod_cast Iff.rfl
  unfold floatTrunc
  by_cases hlarge : 2 ^ 52 * unity ≤ (value a).natAbs
  · rw [if_neg fun h => Nat.not_lt.mpr hlarge (hbound.mp h), Int.tdiv_mul_cancel (dvd_of_large ha hlarge)]
    exact ⟨ha, rfl⟩
  rw [if_pos (hbound.mpr (Nat.not_le.mp hlarge))]
  by_cases hpos : 0 < value a
  · rw [if_pos ((zero_lt_iff ha).mpr hpos), Int.tdiv_eq_ediv_of_nonneg hpos.le]
    exact toFloat_toUInt64 hpos (by omega)
  · have hneg : value a < 0 := by omega
    rw [if_neg fun h => hpos ((zero_lt_iff ha).mp h), if_pos ((lt_zero_iff ha).mpr hneg), isNaN_neg, value_neg]
    obtain ⟨hdefined, hvalue⟩ := toFloat_toUInt64 (a := -a) (by rw [value_neg]; omega) (by rw [value_neg]; omega)
    refine ⟨hdefined, ?_⟩
    rw [hvalue, value_neg, ← Int.tdiv_eq_ediv_of_nonneg (by omega), Int.neg_tdiv, neg_mul, neg_neg]

/-- A number is whole. -/
def Integral (a : Float) : Prop := (unity : ℤ) ∣ value a

theorem trunc_of_integral {a : Float} (ha : Scalar.isNaN a = false) (h : Integral a) : floatTrunc a = a := by
  obtain ⟨hdefined, hvalue⟩ := value_trunc ha
  rw [Int.tdiv_mul_cancel h] at hvalue
  by_cases hzero : value a = 0
  · exact trunc_of_zero ha hzero
  · exact eq_of_value hdefined ha hvalue (hvalue ▸ hzero)

/-- Sums of whole numbers of at most 53 places are exact. -/
theorem add_whole {a e : Float} {n δ : ℤ} (ha : Scalar.isNaN a = false) (he : Scalar.isNaN e = false)
    (hn : value a = n * unity) (hδ : value e = δ * unity) (hfits : n.natAbs < 2 ^ 53 ∧ δ.natAbs < 2 ^ 53 ∧ (n + δ).natAbs < 2 ^ 53) :
    Scalar.isNaN (a + e) = false ∧ value (a + e) = (n + δ) * unity := by
  have hfa : Scalar.isFinite a = true := (isFinite_iff ha).mpr (hn ▸ (fits_whole hfits.1).2)
  have hfe : Scalar.isFinite e = true := (isFinite_iff he).mpr (hδ ▸ (fits_whole hfits.2.1).2)
  obtain ⟨hdefined, hnear⟩ := add_finite hfa hfe
  rw [hn, hδ, ← add_mul] at hnear
  obtain ⟨hsum, hlimit⟩ := fits_whole hfits.2.2
  exact ⟨hdefined, exact_of_fits hnear hsum hlimit.le⟩

/-- **One more or less than the integer part** of a number that is not whole is whole. -/
theorem integral_step {a e : Float} {δ : ℤ} (ha : Scalar.isNaN a = false) (hne : floatTrunc a ≠ a) (he : Scalar.isNaN e = false)
    (hδ : value e = δ * unity) (hunit : δ.natAbs = 1) : Scalar.isNaN (floatTrunc a + e) = false ∧ Integral (floatTrunc a + e) := by
  obtain ⟨hdefined, hvalue⟩ := value_trunc ha
  have hsmall : (value a).natAbs < 2 ^ 52 * unity := by
    by_contra hlarge
    exact hne (trunc_of_integral ha (dvd_of_large ha (Nat.not_lt.mp hlarge)))
  have hquotient : ((value a).tdiv unity).natAbs < 2 ^ 52 := by
    rw [Int.natAbs_tdiv, Int.natAbs_natCast]
    exact Nat.div_lt_of_lt_mul (by rwa [Nat.mul_comm])
  obtain ⟨hsum, hexact⟩ := add_whole hdefined he hvalue hδ ⟨by omega, by omega, by omega⟩
  exact ⟨hsum, _, hexact.trans (mul_comm _ _)⟩

theorem integral_floor {a : Float} (ha : Scalar.isNaN a = false) : Scalar.isNaN (floatFloor a) = false ∧ Integral (floatFloor a) := by
  obtain ⟨hdefined, hvalue⟩ := value_trunc ha
  unfold floatFloor
  dsimp only
  split
  · next hlt =>
    have hne : floatTrunc a ≠ a := fun heq => not_lt_self ha (by rwa [heq] at hlt)
    rw [sub_eq_add_neg]
    obtain ⟨-, -, ⟨hone, hstep⟩, -⟩ := constants
    exact integral_step ha hne hone (hstep.trans (neg_one_mul _).symm) rfl
  · exact ⟨hdefined, _, hvalue.trans (mul_comm _ _)⟩

theorem integral_ceil {a : Float} (ha : Scalar.isNaN a = false) : Scalar.isNaN (floatCeil a) = false ∧ Integral (floatCeil a) := by
  obtain ⟨hdefined, hvalue⟩ := value_trunc ha
  unfold floatCeil
  dsimp only
  split
  · next hlt =>
    have hne : floatTrunc a ≠ a := fun heq => not_lt_self ha (by rwa [heq] at hlt)
    exact integral_step ha hne defined_one (value_one.trans (one_mul _).symm) rfl
  · exact ⟨hdefined, _, hvalue.trans (mul_comm _ _)⟩

/-- **Whole numbers are those with whole values.** -/
theorem floor_eq_iff {a : Float} (ha : Scalar.isNaN a = false) : Scalar.floor a = a ↔ Integral a := by
  change floatFloor a = a ↔ _
  refine ⟨fun h => h ▸ (integral_floor ha).2, fun h => ?_⟩
  unfold floatFloor
  dsimp only
  rw [trunc_of_integral ha h, if_neg (not_lt_self ha)]

/-- The undefined value is its own integer part. -/
theorem floor_of_undefined {a : Float} (ha : Scalar.isNaN a = true) : Scalar.floor a = a ∧ Scalar.ceil a = a := by
  have hne : ∀ {b c : Float}, Scalar.isNaN b = true ∨ Scalar.isNaN c = true → ¬ b < c := fun {b c} h hlt => by
    obtain ⟨hb, hc⟩ := Scalar.Ordered.defined_of_le (Scalar.Ordered.le_of_lt hlt)
    rw [hb, hc] at h
    exact h.elim nofun nofun
  have htrunc : floatTrunc a = a := by
    unfold floatTrunc
    rw [if_neg (hne (.inl ((isNaN_abs a).trans ha)))]
  constructor
  · change floatFloor a = a
    unfold floatFloor
    rw [htrunc]
    exact if_neg (hne (.inl ha))
  · change floatCeil a = a
    unfold floatCeil
    rw [htrunc]
    exact if_neg (hne (.inl ha))

/-- Whole values that differ do so by one at least. -/
theorem add_unity_le {a b : Float} (ha : Integral a) (hb : Integral b) (h : value a < value b) : value a + unity ≤ value b := by
  obtain ⟨m, hm⟩ := ha
  obtain ⟨n, hn⟩ := hb
  rw [hm, hn] at h ⊢
  have hpos : (0 : ℤ) < unity := by exact_mod_cast unity_pos
  have hless : m + 1 ≤ n := lt_of_mul_lt_mul_left h hpos.le
  calc unity * m + unity = unity * (m + 1) := by ring
    _ ≤ unity * n := mul_le_mul_of_nonneg_left hless hpos.le

/-- Whole numbers are equal if their difference is less than one half. -/
theorem eq_of_sub_lt {l u : Float} (hl : Integral l) (hu : Integral u) (hle : value l ≤ value u)
    (hfl : Scalar.isFinite l = true) (hfu : Scalar.isFinite u = true) (h : 2 * value (u - l) < unity) : value l = value u := by
  by_contra hne
  have hstep := add_unity_le hl hu (lt_of_le_of_ne hle hne)
  obtain ⟨hfits, hlimit⟩ := fits_whole (n := 1) (by norm_num)
  have hnear := (add_finite hfu ((isFinite_neg l).trans hfl)).2 _ hfits hlimit.le
  rw [← sub_eq_add_neg, value_neg] at hnear
  have hone : (unity : ℤ) ≤ value (u - l) := by
    clear h
    omega
  linarith

/-- An infinity and its opposite have no sum. -/
theorem isNaN_add_opposite {a b : Float} {sign : Sign} (ha : a.toModel.unpack = .infinity sign)
    (hb : b.toModel.unpack = .infinity (-sign)) : Scalar.isNaN (a + b) = true := by
  change (packed (UnpackedFloat.add Format.binary64 a.toModel.unpack b.toModel.unpack)).isNaN = true
  have hsum : UnpackedFloat.add Format.binary64 (.infinity sign) (.infinity (-sign)) = .notANumber := by
    cases sign <;> rfl
  have hcanonical : Canonical .notANumber := trivial
  rw [ha, hb, hsum, packed_canonical hcanonical]
  rfl

/-- **A difference of numbers in order that is defined and less than an infinity** is one of
finite numbers. -/
theorem finite_of_sub_lt {l u : Float} (hl : Scalar.isNaN l = false) (hu : Scalar.isNaN u = false) (hle : value l ≤ value u)
    (hd : Scalar.isNaN (u - l) = false) (h : value (u - l) < limit) : Scalar.isFinite l = true ∧ Scalar.isFinite u = true := by
  rw [sub_eq_add_neg] at hd h
  have hlimit := limit_pos
  rcases finite_or_infinite hl with ⟨hfl, -, hlt⟩ | ⟨-, sign, hunpack, hvalue⟩
  · refine ⟨hfl, ?_⟩
    rcases finite_or_infinite hu with ⟨hfu, -⟩ | ⟨-, sign, hunpack, hvalue⟩
    · exact hfu
    · obtain ⟨-, hsum⟩ := defined_of_infinite (add_infinite hunpack (.inl ((isFinite_neg l).trans hfl)))
      cases sign with
      | positive => exact (h.ne hsum).elim
      | negative =>
        change value u = -limit at hvalue
        omega
  · have hneg : (-l).toModel.unpack = .infinity (-sign) := by rw [unpack_neg, hunpack]; rfl
    rcases finite_or_infinite hu with ⟨hfu, -, hlt⟩ | ⟨-, sign', hunpack', hvalue'⟩
    · obtain ⟨-, hsum⟩ := defined_of_infinite (infinite_add hfu hneg)
      cases sign with
      | positive =>
        change value l = limit at hvalue
        omega
      | negative => exact (h.ne hsum).elim
    · rcases eq_or_ne sign sign' with rfl | hne
      · exact (Bool.false_ne_true (hd.symm.trans (isNaN_add_opposite hunpack' hneg))).elim
      · cases sign <;> cases sign' <;> try exact (hne rfl).elim
        · obtain ⟨-, hsum⟩ := defined_of_infinite (add_infinite hunpack' (.inr hneg))
          exact (h.ne hsum).elim
        · change value l = limit at hvalue
          change value u = -limit at hvalue'
          omega

/-- A whole number is the one next to it. -/
theorem round_of_integral {x : Float} (hx : Scalar.isFinite x = true) (h : Integral x) :
    Scalar.isNaN (x - Scalar.round x) = false ∧ value (x - Scalar.round x) = 0 := by
  have hdefined : Scalar.isNaN x = false := Scalar.Ordered.defined_of_isFinite hx
  have htrunc := trunc_of_integral hdefined h
  obtain ⟨hdiff, hnear⟩ := add_finite hx ((isFinite_neg x).trans hx)
  rw [← sub_eq_add_neg] at hdiff hnear
  have hzero : value (x - x) = 0 := by
    rw [value_neg, add_neg_cancel] at hnear
    exact exact_of_fits hnear ⟨0, 0, by norm_num, rfl⟩ (Nat.zero_le _)
  have hsmall : ¬ 0.5 ≤ (x - x).abs := by
    have hhalf := value_half
    have hpos := unity_pos
    rw [le_iff defined_half ((isNaN_abs _).trans hdiff), value_abs, hzero, Int.natAbs_zero]
    omega
  have hround : Scalar.round x = x := by
    change floatRound x = x
    unfold floatRound
    dsimp only
    rw [htrunc, if_neg hsmall]
  rw [hround]
  exact ⟨hdiff, hzero⟩

end BranchAndCut.Machine
