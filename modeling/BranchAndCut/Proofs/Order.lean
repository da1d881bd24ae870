import BranchAndCut.Proofs.Exact

/-! # Numbers in order

What comparisons obey, of exact numbers and of machine numbers alike: all values but the
undefined one are in linear order, and the infinities are its ends. Nothing is said of
arithmetic, which machine numbers round; that differences are exact is a law of its own,
and so is that positive numbers have a product. -/

namespace BranchAndCut

/-! ## The order of machine numbers

The total order of machine numbers is that of their bit patterns. The comparison is
transitive as well, though it fails on the undefined value. -/

instance : Std.TransCmp (Scalar.totalOrder : Float → Float → Ordering) :=
  inferInstanceAs (Std.TransCmp (compareOn floatRank))

namespace FloatOrder

open Float.Model

/-- Sign, exponent and mantissa, so that numbers compare by the first that differs; the
infinities stand beyond both signs. -/
def key : UnpackedFloat → Option (Int × Int × Int)
  | .notANumber => none
  | .infinity .negative => some (-2, 0, 0)
  | .finite .negative m e _ => some (-1, -e, -m)
  | .zero _ => some (0, 0, 0)
  | .finite .positive m e _ => some (1, e, m)
  | .infinity .positive => some (2, 0, 0)

/-- The lexicographic order of keys. -/
def Before (x y : Int × Int × Int) : Prop :=
  x.1 < y.1 ∨ x.1 = y.1 ∧ (x.2.1 < y.2.1 ∨ x.2.1 = y.2.1 ∧ x.2.2 < y.2.2)

theorem lt_iff_before (a b : UnpackedFloat) :
    a.lt b = true ↔ ∃ x y, key a = some x ∧ key b = some y ∧ Before x y := by
  have hsign : compare UnpackedFloat.Sign.negative UnpackedFloat.Sign.positive = .lt := rfl
  have hsign' : compare UnpackedFloat.Sign.positive UnpackedFloat.Sign.negative = .gt := rfl
  have hsame : ∀ s : UnpackedFloat.Sign, compare s s = .eq := fun s => by cases s <;> rfl
  unfold UnpackedFloat.lt
  rw [beq_iff_eq]
  rcases a with (_ | _) | _ | _ | ⟨_ | _, m, e, _⟩ <;>
    rcases b with (_ | _) | _ | _ | ⟨_ | _, m', e', _⟩ <;>
    simp [UnpackedFloat.compare, key, Before, hsign, hsign', hsame, Ordering.then_eq_lt,
      Ordering.then_eq_gt, compare_lt_iff_lt, compare_gt_iff_gt]

theorem Before.trans {x y z : Int × Int × Int} (hxy : Before x y) (hyz : Before y z) : Before x z := by
  unfold Before at *
  omega

theorem lt_trans {a b c : UnpackedFloat} (hab : a.lt b = true) (hbc : b.lt c = true) :
    a.lt c = true := by
  obtain ⟨x, y, hx, hy, hxy⟩ := (lt_iff_before a b).mp hab
  obtain ⟨y', z, hy', hz, hyz⟩ := (lt_iff_before b c).mp hbc
  obtain rfl := Option.some.inj (hy.symm.trans hy')
  exact (lt_iff_before a c).mpr ⟨x, z, hx, hz, hxy.trans hyz⟩

theorem lt_iff (a b : Float) : a < b ↔ a.toModel.unpack.lt b.toModel.unpack = true := by
  show Float.lt a b = true ↔ _
  unfold Float.lt
  rw [decide_eq_true_iff]
  exact Iff.rfl

end FloatOrder

instance isTrans_float : IsTrans Float (· < ·) where
  trans _ _ _ hab hbc := by
    rw [FloatOrder.lt_iff] at *
    exact FloatOrder.lt_trans hab hbc

/-! ## All values but the undefined one -/

/-- All values but the undefined one are in linear order between the two infinities. -/
class Scalar.Ordered (K : Type) [Scalar K] : Prop where
  le_trans : ∀ {a b c : K}, a ≤ b → b ≤ c → a ≤ c
  lt_trans : ∀ {a b c : K}, a < b → b < c → a < c
  le_of_lt : ∀ {a b : K}, a < b → a ≤ b
  not_lt_of_le : ∀ {a b : K}, a ≤ b → ¬ b < a
  le_of_not_lt : ∀ {a b : K}, isNaN a = false → isNaN b = false → ¬ b < a → a ≤ b
  defined_of_le : ∀ {a b : K}, a ≤ b → isNaN a = false ∧ isNaN b = false
  defined_of_isFinite : ∀ {a : K}, isFinite a = true → isNaN a = false
  defined_inf : isNaN (inf : K) = false
  le_inf : ∀ {a : K}, isNaN a = false → a ≤ inf
  negInf_le : ∀ {a : K}, isNaN a = false → negInf ≤ a

namespace Scalar.Ordered

variable {K : Type} [Scalar K] [Scalar.Ordered K] {a b c : K}

instance : IsTrans K (· < ·) := ⟨fun _ _ _ => lt_trans⟩

theorem le_refl (h : isNaN a = false) : a ≤ a := by
  by_cases hlt : a < a
  · exact le_of_lt hlt
  · exact le_of_not_lt h h hlt

theorem not_le_of_lt (h : a < b) : ¬ b ≤ a := fun hle => not_lt_of_le hle h

theorem lt_of_le_of_lt (hab : a ≤ b) (hbc : b < c) : a < c := by
  by_contra h
  have hca := le_of_not_lt (defined_of_le (le_of_lt hbc)).2 (defined_of_le hab).1 h
  exact not_lt_of_le (le_trans hca hab) hbc

theorem lt_of_lt_of_le (hab : a < b) (hbc : b ≤ c) : a < c := by
  by_contra h
  have hca := le_of_not_lt (defined_of_le hbc).2 (defined_of_le (le_of_lt hab)).1 h
  exact not_lt_of_le (le_trans hbc hca) hab

theorem defined_negInf : isNaN (negInf : K) = false := (defined_of_le (negInf_le defined_inf)).1

theorem min_le_left (h : isNaN a = false) : min a b ≤ a := by
  unfold min
  rw [if_neg (by rw [h]; nofun)]
  split
  · next hlt => exact le_of_lt hlt
  · exact le_refl h

theorem min_le_right (h : isNaN b = false) : min a b ≤ b := by
  unfold min
  split
  · exact le_refl h
  · next ha =>
    split
    · exact le_refl h
    · next hlt => exact le_of_not_lt (Bool.eq_false_iff.mpr ha) h hlt

theorem le_max_left (h : isNaN a = false) : a ≤ max a b := by
  unfold max
  rw [if_neg (by rw [h]; nofun)]
  split
  · next hlt => exact le_of_lt hlt
  · exact le_refl h

theorem le_max_right (h : isNaN b = false) : b ≤ max a b := by
  unfold max
  split
  · exact le_refl h
  · next ha =>
    split
    · exact le_refl h
    · next hlt => exact le_of_not_lt h (Bool.eq_false_iff.mpr ha) hlt

end Scalar.Ordered

/-- Differences from finite values compare as in a field. -/
class Scalar.ExactSub (K : Type) [Scalar K] : Prop where
  sub_le_comm : ∀ {a b c : K}, isFinite a = true → a - b ≤ c → a - c ≤ b
  sub_le_of_le : ∀ {a b c : K}, isFinite a = true → a ≤ b → 0 ≤ c → a - c ≤ b

theorem Scalar.min_cases {K : Type} [Scalar K] (a b : K) : min a b = a ∨ min a b = b := by
  unfold min
  split
  · exact .inr rfl
  · split
    · exact .inr rfl
    · exact .inl rfl

theorem Scalar.max_cases {K : Type} [Scalar K] (a b : K) : max a b = a ∨ max a b = b := by
  unfold max
  split
  · exact .inr rfl
  · split
    · exact .inr rfl
    · exact .inl rfl

theorem Scalar.le_min {K : Type} [Scalar K] {a b c : K} (ha : c ≤ a) (hb : c ≤ b) : c ≤ min a b := by
  rcases min_cases a b with heq | heq
  · rwa [heq]
  · rwa [heq]

theorem Scalar.max_le {K : Type} [Scalar K] {a b c : K} (ha : a ≤ c) (hb : b ≤ c) : max a b ≤ c := by
  rcases max_cases a b with heq | heq
  · rwa [heq]
  · rwa [heq]

/-! ## Exact numbers -/

instance {F : Type} [Field F] [LinearOrder F] [IsStrictOrderedRing F] [FloorRing F] [Rooted F] :
    Scalar.Ordered (Exact F) where
  le_trans := Exact.le_trans'
  lt_trans hab hbc := Exact.lt_of_lt_of_le' hab (Exact.le_of_lt hbc)
  le_of_lt := Exact.le_of_lt
  not_lt_of_le := Exact.not_lt_of_le
  le_of_not_lt ha hb h := Exact.le_of_not_lt (fun heq => by rw [heq] at ha; cases ha)
    (fun heq => by rw [heq] at hb; cases hb) h
  defined_of_le h := by
    obtain ⟨ha, hb⟩ := Exact.ne_nan_of_le h
    exact ⟨Bool.eq_false_iff.mpr fun hn => ha (Exact.isNaN_iff.mp hn),
      Bool.eq_false_iff.mpr fun hn => hb (Exact.isNaN_iff.mp hn)⟩
  defined_of_isFinite {a} h := by
    obtain ⟨x, rfl⟩ := Exact.isFinite_iff.mp h
    rfl
  defined_inf := rfl
  le_inf {a} h := by
    cases a with
    | nan => cases h
    | negInf => trivial
    | fin x => trivial
    | posInf => trivial
  negInf_le {a} h := by
    cases a with
    | nan => cases h
    | negInf => trivial
    | fin x => trivial
    | posInf => trivial

instance {F : Type} [Field F] [LinearOrder F] [IsStrictOrderedRing F] [FloorRing F] [Rooted F] :
    Scalar.ExactSub (Exact F) where
  sub_le_comm {a b c} ha h := by
    obtain ⟨x, rfl⟩ := Exact.isFinite_iff.mp ha
    cases b <;> cases c <;> try trivial
    rw [Exact.fin_sub, Exact.fin_le] at *
    exact sub_le_comm.mp h
  sub_le_of_le {a b c} ha h hc := by
    obtain ⟨x, rfl⟩ := Exact.isFinite_iff.mp ha
    cases b <;> cases c <;> try trivial
    rw [Exact.zero_def, Exact.fin_le] at hc
    rw [Exact.fin_sub, Exact.fin_le] at *
    exact (sub_le_self _ hc).trans h

namespace Exact

variable {F : Type} [Field F] [LinearOrder F] [FloorRing F] [Rooted F]

theorem totalOrder_eq : (Scalar.totalOrder : Exact F → Exact F → Ordering) =
    compareLex (compareOn place) (compareOn toField) := by
  funext a b
  have hself : compare (0 : F) 0 = .eq := compare_eq_iff_eq.mpr rfl
  cases a <;> cases b <;> first | rfl | exact hself.symm

instance : Std.TransCmp (Scalar.totalOrder : Exact F → Exact F → Ordering) := by
  rw [totalOrder_eq]
  infer_instance

/-- The total order agrees with the comparison of defined values. -/
theorem le_of_totalOrder {a b : Exact F} (ha : a ≠ nan) (hb : b ≠ nan) (h : Scalar.totalOrder a b ≠ .lt) : b ≤ a := by
  refine le_of_not_lt hb ha fun hlt => h ?_
  cases a <;> cases b <;> first | exact compare_lt_iff_lt.mpr hlt | rfl | exact hlt.elim

end Exact

/-! ## Machine numbers -/

namespace FloatOrder

open Float.Model

theorem le_iff_not_before (a b : UnpackedFloat) :
    a.le b = true ↔ ∃ x y, key a = some x ∧ key b = some y ∧ ¬ Before y x := by
  have hsign : compare UnpackedFloat.Sign.negative UnpackedFloat.Sign.positive = .lt := rfl
  have hsign' : compare UnpackedFloat.Sign.positive UnpackedFloat.Sign.negative = .gt := rfl
  have hsame : ∀ s : UnpackedFloat.Sign, compare s s = .eq := fun s => by cases s <;> rfl
  unfold UnpackedFloat.le
  rcases a with (_ | _) | _ | _ | ⟨_ | _, m, e, _⟩ <;>
    rcases b with (_ | _) | _ | _ | ⟨_ | _, m', e', _⟩ <;>
    simp [UnpackedFloat.compare, key, Before, hsign, hsign', hsame, Ordering.isLE_iff_ne_gt,
      Ordering.isGE_iff_ne_lt, Ordering.then_eq_gt, Ordering.then_eq_lt, compare_gt_iff_gt,
      compare_lt_iff_lt] <;>
    omega

theorem key_isSome (a : UnpackedFloat) : a.isNaN = false ↔ ∃ x, key a = some x := by
  rcases a with (_ | _) | _ | _ | ⟨_ | _, m, e, _⟩ <;> simp [UnpackedFloat.isNaN, key]

/-- The infinities are the ends of the order. -/
theorem key_between {a : UnpackedFloat} {x : Int × Int × Int} (h : key a = some x) :
    ¬ Before x (-2, 0, 0) ∧ ¬ Before (2, 0, 0) x := by
  rcases a with (_ | _) | _ | _ | ⟨_ | _, m, e, _⟩ <;> simp [key] at h <;> subst h <;>
    simp [Before]

end FloatOrder

open FloatOrder in
instance : Scalar.Ordered Float := by
  have hle : ∀ a b : Float, a ≤ b ↔ a.toModel.unpack.le b.toModel.unpack = true := fun a b => by
    show Float.le a b = true ↔ _
    unfold Float.le
    rw [decide_eq_true_iff]
    exact Iff.rfl
  have hdefined : ∀ a : Float, Scalar.isNaN a = false ↔ ∃ x, key a.toModel.unpack = some x :=
    fun a => key_isSome a.toModel.unpack
  have hinf : key (Scalar.inf : Float).toModel.unpack = some (2, 0, 0) := by decide +kernel
  have hnegInf : key (Scalar.negInf : Float).toModel.unpack = some (-2, 0, 0) := by decide +kernel
  refine ⟨?_, ?_, ?_, ?_, ?_, ?_, ?_, ?_, ?_, ?_⟩
  · intro a b c hab hbc
    rw [hle, le_iff_not_before] at *
    obtain ⟨x, y, hx, hy, hxy⟩ := hab
    obtain ⟨y', z, hy', hz, hyz⟩ := hbc
    obtain rfl := Option.some.inj (hy.symm.trans hy')
    refine ⟨x, z, hx, hz, ?_⟩
    unfold Before at *
    omega
  · exact fun hab hbc => IsTrans.trans _ _ _ hab hbc
  · intro a b hab
    rw [lt_iff, lt_iff_before] at hab
    rw [hle, le_iff_not_before]
    obtain ⟨x, y, hx, hy, hxy⟩ := hab
    refine ⟨x, y, hx, hy, ?_⟩
    unfold Before at *
    omega
  · intro a b hab hba
    rw [hle, le_iff_not_before] at hab
    rw [lt_iff, lt_iff_before] at hba
    obtain ⟨x, y, hx, hy, hxy⟩ := hab
    obtain ⟨y', x', hy', hx', hyx⟩ := hba
    obtain rfl := Option.some.inj (hx.symm.trans hx')
    obtain rfl := Option.some.inj (hy.symm.trans hy')
    exact hxy hyx
  · intro a b ha hb hba
    obtain ⟨x, hx⟩ := (hdefined a).mp ha
    obtain ⟨y, hy⟩ := (hdefined b).mp hb
    rw [hle, le_iff_not_before]
    refine ⟨x, y, hx, hy, fun hyx => hba ?_⟩
    rw [lt_iff, lt_iff_before]
    exact ⟨y, x, hy, hx, hyx⟩
  · intro a b hab
    rw [hle, le_iff_not_before] at hab
    obtain ⟨x, y, hx, hy, -⟩ := hab
    exact ⟨(hdefined a).mpr ⟨x, hx⟩, (hdefined b).mpr ⟨y, hy⟩⟩
  · intro a ha
    change a.toModel.unpack.isFinite = true at ha
    refine (hdefined a).mpr ?_
    cases hu : a.toModel.unpack with
    | notANumber =>
      rw [hu] at ha
      cases ha
    | infinity s =>
      rw [hu] at ha
      cases ha
    | zero s => exact ⟨_, rfl⟩
    | finite s m e hm => cases s <;> exact ⟨_, rfl⟩
  · exact (hdefined _).mpr ⟨_, hinf⟩
  · intro a ha
    obtain ⟨x, hx⟩ := (hdefined a).mp ha
    rw [hle, le_iff_not_before]
    exact ⟨x, _, hx, hinf, (key_between hx).2⟩
  · intro a ha
    obtain ⟨x, hx⟩ := (hdefined a).mp ha
    rw [hle, le_iff_not_before]
    exact ⟨_, x, hnegInf, hx, (key_between hx).1⟩

/-! ## Products of positive numbers

A product of machine numbers may overflow or vanish, but that of two positive ones is always
a number. So the products that scores are made of can be compared. -/

/-- Products of positive values are defined, however large or small they get. -/
class Scalar.PositiveMul (K : Type) [Scalar K] : Prop where
  zero_lt_millionth : (0 : K) < 1e-6
  defined_mul : ∀ {a b : K}, 0 < a → 0 < b → isNaN (a * b) = false

instance {F : Type} [Field F] [LinearOrder F] [IsStrictOrderedRing F] [FloorRing F] [Rooted F] :
    Scalar.PositiveMul (Exact F) where
  zero_lt_millionth := by
    rw [Exact.zero_def, Exact.scientific_def, Exact.fin_lt]
    norm_num
  defined_mul {a b} ha hb := by
    rw [Exact.zero_def] at ha hb
    cases a <;> cases b <;> first | exact ha.elim | exact hb.elim | rfl | skip
    · rw [Exact.fin_mul_posInf ((Exact.fin_lt _ _).mp ha)]
      rfl
    · have hcomm : ∀ x : F, (Exact.posInf : Exact F) * .fin x = .fin x * .posInf := fun _ => rfl
      rw [hcomm, Exact.fin_mul_posInf ((Exact.fin_lt _ _).mp hb)]
      rfl

namespace FloatOrder

open Float.Model UnpackedFloat

/-- Bits mean a number if the exponent is not the greatest, or nothing is left besides it. -/
theorem isNaN_unpack_packComponents {sign : Sign} {exponent : BitVec Format.binary64.exponentBits}
    {mantissa : BitVec Format.binary64.mantissaBitsWithoutImplicit}
    (h : exponent ≠ BitVec.allOnes _ ∨ mantissa = 0) :
    (unpack Format.binary64 (packComponents Format.binary64 sign exponent mantissa)).isNaN = false := by
  simp only [UnpackedFloat.unpack, unpackMantissa_packComponents, unpackExponent_packComponents]
  split
  · next hexponent =>
    obtain rfl := h.resolve_left (not_not.mpr hexponent)
    rfl
  · split
    · split <;> rfl
    · rfl

/-- A number stays one when it is packed. -/
theorem isNaN_unpack_pack {f : UnpackedFloat} (h : f.isNaN = false) :
    (unpack Format.binary64 (UnpackedFloat.pack Format.binary64 f)).isNaN = false := by
  cases f with
  | notANumber => cases h
  | infinity sign => exact isNaN_unpack_packComponents (.inr rfl)
  | zero sign => exact isNaN_unpack_packComponents (.inr rfl)
  | finite sign m e hm =>
    simp only [UnpackedFloat.pack]
    split
    · exact isNaN_unpack_packComponents (.inr rfl)
    · next hsmall =>
      have hexponent : BitVec.ofNat Format.binary64.exponentBits
          (e + Format.binary64.exponentBias + Format.binary64.mantissaBitsWithoutImplicit).toNat ≠
            BitVec.allOnes _ := by
        generalize
          (e + Format.binary64.exponentBias + Format.binary64.mantissaBitsWithoutImplicit).toNat = biased at hsmall
        intro heq
        have hnat : biased % 2048 = 2047 := congrArg BitVec.toNat heq
        have hlt : ¬ 2048 ≤ biased + 1 := hsmall
        omega
      split
      · exact isNaN_unpack_packComponents (.inl hexponent)
      · exact isNaN_unpack_packComponents (.inl (by decide))

/-- Positive factors have a product. -/
theorem isNaN_mul {a b : UnpackedFloat} (ha : (UnpackedFloat.zero .positive).lt a = true)
    (hb : (UnpackedFloat.zero .positive).lt b = true) : (UnpackedFloat.mul Format.binary64 a b).isNaN = false := by
  have hround : ∀ sign m e, (roundWithAccuracy Format.binary64 sign m e .exact).isNaN = false := fun sign m e => by
    unfold roundWithAccuracy
    dsimp only
    split <;> rfl
  cases a with
  | notANumber => cases ha
  | zero sign => cases ha
  | infinity sign =>
    cases b with
    | notANumber => cases hb
    | zero sign => cases hb
    | infinity sign' => rfl
    | finite sign' m e hm => rfl
  | finite sign m e hm =>
    cases b with
    | notANumber => cases hb
    | zero sign => cases hb
    | infinity sign' => rfl
    | finite sign' m' e' hm' => exact hround ..

end FloatOrder

instance : Scalar.PositiveMul Float where
  zero_lt_millionth := by decide +kernel
  defined_mul {a b} ha hb := by
    have hzero : (0 : Float).toModel.unpack = .zero .positive := rfl
    rw [FloatOrder.lt_iff, hzero] at ha hb
    exact FloatOrder.isNaN_unpack_pack (FloatOrder.isNaN_mul ha hb)

end BranchAndCut
