import BranchAndCut.Json.Value

/-! Reading values out of documents. A field that is missing, null or of another
form counts as absent; the reader names the value that stands for it. -/

namespace BranchAndCut.Json

/-- Types with a form in documents. -/
class Decode (α : Type) where
  decode? : Value → Option α

namespace Number

/-- A whole number, however it is written; digits after the point are dropped. -/
def truncated (n : Number) : Nat :=
  if 0 ≤ n.exponent then n.digits * Nat.pow 10 n.exponent.toNat
  else n.digits / Nat.pow 10 (-n.exponent).toNat

end Number

instance : Decode Value where
  decode? := some

instance : Decode Bool where
  decode?
    | .bool b => some b
    | _ => none

instance : Decode String where
  decode?
    | .str text => text
    | _ => none

instance : Decode Nat where
  decode?
    | .num n => if n.negative then none else some n.truncated
    | _ => none

instance : Decode Int where
  decode?
    | .num n => some (if n.negative then -n.truncated else n.truncated)
    | _ => none

/-- A double. The values that no number denotes have names. -/
instance : Decode Float where
  decode?
    | .num n => some n.toFloat
    | .str (some "inf") => some (1 / 0)
    | .str (some "-inf") => some (-1 / 0)
    | .str (some "nan") => some (0 / 0)
    | _ => none

variable {α β γ : Type}

instance [Decode α] : Decode (List α) where
  decode?
    | .arr items => items.mapM Decode.decode?
    | _ => none

instance [Decode α] : Decode (Array α) where
  decode? v := (Decode.decode? v : Option (List α)).map List.toArray

/-- A value, or null. -/
instance [Decode α] : Decode (Option α) where
  decode?
    | .null => some none
    | v => (Decode.decode? v).map some

instance [Decode α] [Decode β] : Decode (α × β) where
  decode?
    | .arr [a, b] => do return (← Decode.decode? a, ← Decode.decode? b)
    | _ => none

instance [Decode α] [Decode β] [Decode γ] : Decode (α × β × γ) where
  decode?
    | .arr [a, b, c] => do return (← Decode.decode? a, ← Decode.decode? b, ← Decode.decode? c)
    | _ => none

namespace Value

/-- The first member with a name, null if there is none. -/
def field (v : Value) (name : String) : Value :=
  match v with
  | .obj members => (membersNamed members name).headD .null
  | _ => .null

/-- A field that may be absent. -/
def get? [Decode α] (v : Value) (name : String) : Option α :=
  match v.field name with
  | .null => none
  | a => Decode.decode? a

/-- A field with a value for its absence. -/
def get [Decode α] (v : Value) (name : String) (absent : α) : α := (v.get? name).getD absent

/-- Whether a field is there. -/
def has (v : Value) (name : String) : Bool := (v.get? name : Option Value).isSome

end Value

end BranchAndCut.Json
