/-! Exact decimal rounding of binary numbers. A finite binary number is a
quotient of naturals, so all rounding is integer division with an exact rule
for halves; no step goes through floating point. -/

namespace BranchAndCut.Decimal

/-- The nonnegative number `mantissa * 2 ^ exponent`. -/
structure Binary where
  mantissa : Nat
  exponent : Int
deriving DecidableEq, Repr

/-- A floating point number taken apart. -/
inductive Parts where
  | undefined
  | infinite (negative : Bool)
  | finite (negative : Bool) (magnitude : Binary)
deriving DecidableEq, Repr

/-- Reads the parts of a double precision number off its bits. -/
def partsOf (x : Float) : Parts :=
  let bits := x.toBits.toNat
  let negative := decide (Nat.pow 2 63 ≤ bits)
  let exponent : Nat := bits / Nat.pow 2 52 % Nat.pow 2 11
  let fraction : Nat := bits % Nat.pow 2 52
  if exponent = 2047 then
    if fraction = 0 then .infinite negative else .undefined
  else if exponent = 0 then .finite negative ⟨fraction, -1074⟩
  else .finite negative ⟨Nat.pow 2 52 + fraction, Int.ofNat exponent - 1075⟩

/-- The number as a quotient of naturals. -/
def Binary.ratio (b : Binary) : Nat × Nat :=
  if 0 ≤ b.exponent then (b.mantissa * Nat.pow 2 b.exponent.toNat, 1)
  else (b.mantissa, Nat.pow 2 (-b.exponent).toNat)

/-- The quotient rounded to the nearest natural, a half to the even one. -/
def roundHalfEven (num den : Nat) : Nat :=
  let q := num / den
  let r := num % den
  if 2 * r < den then q
  else if den < 2 * r then q + 1
  else if q % 2 = 0 then q else q + 1

/-- The quotient `num / den` divided by `10 ^ e`, as a quotient. -/
def unscale (num den : Nat) (e : Int) : Nat × Nat :=
  if 0 ≤ e then (num, den * Nat.pow 10 e.toNat) else (num * Nat.pow 10 (-e).toNat, den)

/-- The exponent of the leading decimal digit of a positive quotient: the
greatest `e` with `10 ^ e ≤ num / den`. It differs from the estimate by the
binary lengths by at most one. -/
def leadingExponent (num den : Nat) : Int :=
  let estimate : Int := (((num.log2 : Int) - den.log2 + 1) * 30103) / 100000
  let reached (e : Int) : Bool :=
    let (n, d) := unscale num den e
    decide (d ≤ n)
  ([estimate + 1, estimate, estimate - 1].find? reached).getD (estimate - 2)

/-- Decimal digits, most significant first, with the exponent of the first:
`d₁.d₂d₃… * 10 ^ exponent`. -/
structure Digits where
  digits : List Nat
  exponent : Int
deriving DecidableEq, Repr

/-- The decimal digits of a natural, at least one. -/
def natDigits (n : Nat) : List Nat :=
  (Nat.toDigits 10 n).map fun c => c.toNat - '0'.toNat

/-- The number with `coefficient * 10 ^ exponent`, without zeros at the end. -/
def Digits.ofScaled (coefficient : Nat) (exponent : Int) : Digits :=
  let ds := natDigits coefficient
  let trimmed := (ds.reverse.dropWhile (· == 0)).reverse
  { digits := if trimmed.isEmpty then [0] else trimmed
    exponent := exponent + ds.length - 1 }

/-- A positive number rounded to `count` significant digits, halves to even. -/
def significant (count : Nat) (b : Binary) : Digits :=
  let (num, den) := b.ratio
  let unit := leadingExponent num den - count + 1
  let (n, d) := unscale num den unit
  Digits.ofScaled (roundHalfEven n d) unit

/-- The digits as text. -/
def digitString (ds : List Nat) : String := String.ofList (ds.map Nat.digitChar)

/-- Positional notation, without a point when no digit follows the units. -/
def Digits.positional (d : Digits) : String :=
  let count : Int := d.digits.length
  if d.exponent < 0 then
    "0." ++ digitString (List.replicate (-d.exponent - 1).toNat 0 ++ d.digits)
  else if count ≤ d.exponent + 1 then
    digitString (d.digits ++ List.replicate (d.exponent + 1 - count).toNat 0)
  else
    let whole := (d.exponent + 1).toNat
    digitString (d.digits.take whole) ++ "." ++ digitString (d.digits.drop whole)

/-- Scientific notation: one digit, a point if more follow, and the exponent. -/
def Digits.scientific (d : Digits) : String :=
  let first := digitString (d.digits.take 1)
  let rest := d.digits.drop 1
  first ++ (if rest.isEmpty then "" else "." ++ digitString rest) ++ "e" ++ toString d.exponent

/-- A sign in front of the text of a magnitude. -/
def signed (negative : Bool) (text : String) : String := if negative then "-" ++ text else text

/-- A number with a fixed count of digits after the point, halves to even. -/
def fixed (places : Nat) (x : Float) : String :=
  match partsOf x with
  | .undefined => "NaN"
  | .infinite negative => signed negative "inf"
  | .finite negative b =>
    let (num, den) := b.ratio
    let scaled := roundHalfEven (num * Nat.pow 10 places) den
    let fraction := natDigits (scaled % Nat.pow 10 places)
    let text :=
      if places = 0 then toString scaled
      else
        toString (scaled / Nat.pow 10 places) ++ "." ++
          digitString (List.replicate (places - fraction.length) 0 ++ fraction)
    signed negative text

/-- Scientific notation with a fixed count of digits after the point. -/
def fixedScientific (places : Nat) (x : Float) : String :=
  match partsOf x with
  | .undefined => "NaN"
  | .infinite negative => signed negative "inf"
  | .finite negative b =>
    let d : Digits := if b.mantissa = 0 then ⟨[0], 0⟩ else significant (places + 1) b
    let rest := d.digits.drop 1
    let padded := rest ++ List.replicate (places - rest.length) 0
    signed negative <|
      digitString (d.digits.take 1) ++ (if padded.isEmpty then "" else "." ++ digitString padded) ++
        "e" ++ toString d.exponent

end BranchAndCut.Decimal
