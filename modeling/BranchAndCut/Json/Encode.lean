import BranchAndCut.Decimal.Rounding
import BranchAndCut.Json.Layout

/-! Writing values into documents. How a number is written is a parameter, so
that one type has one layout for every precision. -/

namespace BranchAndCut.Json

/-- Types with a form in documents, given the text of a number. -/
class Encode (K α : Type) where
  encode : (K → String) → α → Layout

export Encode (encode)

/-- Types whose values have fixed names, each in one place of the list. -/
class Named (α : Type) where
  names : List (String × α)

variable {K α β γ : Type}

/-- The name of a value. -/
def nameOf [Named α] [BEq α] (a : α) : String :=
  ((Named.names.find? fun (_, b) => b == a).map Prod.fst).getD ""

/-- The value with a name. -/
def ofName? [Named α] (name : String) : Option α := Named.names.lookup name

instance : Encode K Layout where
  encode _ := id

instance : Encode K K where
  encode text x := .atom (text x)

instance : Encode K Nat where
  encode _ n := .atom (toString n)

instance : Encode K Int where
  encode _ n := .atom (toString n)

instance : Encode K Bool where
  encode _ b := .atom (if b then "true" else "false")

instance : Encode K String where
  encode _ s := .atom (quote s)

instance (priority := low) [Named α] [BEq α] : Encode K α where
  encode _ a := .atom (quote (nameOf a))

instance [Encode K α] : Encode K (List α) where
  encode text l := .list (l.map (encode text))

instance [Encode K α] : Encode K (Array α) where
  encode text a := .list (a.toList.map (encode text))

instance [Encode K α] : Encode K (Option α) where
  encode text
    | some a => encode text a
    | none => .atom "null"

instance [Encode K α] [Encode K β] : Encode K (α × β) where
  encode text p := .list [encode text p.1, encode text p.2]

instance [Encode K α] [Encode K β] [Encode K γ] : Encode K (α × β × γ) where
  encode text p := .list [encode text p.1, encode text p.2.1, encode text p.2.2]

/-- A number with some significant digits. Values that no number denotes have
names, as in reading. -/
def number (count : Nat) (x : Float) : String :=
  match Decimal.partsOf x with
  | .undefined => quote "nan"
  | .infinite negative => quote (Decimal.signed negative "inf")
  | .finite negative b =>
    if b.mantissa = 0 then "0"
    else
      let d := Decimal.significant count b
      Decimal.signed negative (if -7 ≤ d.exponent ∧ d.exponent < 15 then d.positional else d.scientific)

/-- A number that carries the error of a computation: magnitudes below `1e-9` are zero. -/
def computed (x : Float) : String := if x.abs < 1e-9 then "0" else number 9 x

namespace Layout

mutual

/-- The text of a document on one line, without blanks. -/
def compact : Layout → String
  | .atom text => text
  | .list items => "[" ++ String.intercalate "," (compactItems items) ++ "]"
  | .record fields => "\x7b" ++ String.intercalate "," (compactFields fields) ++ "\x7d"

def compactItems : List Layout → List String
  | [] => []
  | l :: ls => l.compact :: compactItems ls

def compactFields : List (String × Layout) → List String
  | [] => []
  | (name, l) :: ls => (quote name ++ ":" ++ l.compact) :: compactFields ls

end

end Layout

end BranchAndCut.Json
