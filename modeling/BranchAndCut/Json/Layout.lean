/-! Writing JSON texts: quoted strings, and documents with one member or item
a line, indented by two blanks a level. -/

namespace BranchAndCut.Json

/-- The four hexadecimal digits of a character code below `2 ^ 16`. -/
def hexCode (n : Nat) : String :=
  let ds := Nat.toDigits 16 n
  String.ofList (List.replicate (4 - ds.length) '0' ++ ds)

/-- A character inside a quoted string. Only quotes, backslashes and control
characters are escaped. -/
def escaped (c : Char) : String :=
  match c with
  | '"' => "\\\""
  | '\\' => "\\\\"
  | '\x08' => "\\b"
  | '\x0c' => "\\f"
  | '\n' => "\\n"
  | '\r' => "\\r"
  | '\t' => "\\t"
  | c => if c.toNat < 0x20 then "\\u" ++ hexCode c.toNat else String.singleton c

/-- A string in quotes. -/
def quote (s : String) : String := "\"" ++ String.join (s.toList.map escaped) ++ "\""

/-- A document to be written. -/
inductive Layout where
  | atom (text : String)
  | list (items : List Layout)
  | record (fields : List (String × Layout))

namespace Layout

/-- The start of a line at some depth of nesting. -/
def lineStart (depth : Nat) : String := "\n" ++ String.ofList (List.replicate (2 * depth) ' ')

mutual

/-- The text of a document whose first line is already indented. -/
def pretty (depth : Nat) : Layout → String
  | .atom text => text
  | .list [] => "[]"
  | .list (l :: ls) =>
    "[" ++ lineStart (depth + 1) ++ pretty (depth + 1) l ++ prettyItems depth ls ++
      lineStart depth ++ "]"
  | .record [] => "\x7b\x7d"
  | .record ((name, l) :: ls) =>
    "\x7b" ++ lineStart (depth + 1) ++ quote name ++ ": " ++ pretty (depth + 1) l ++
      prettyFields depth ls ++ lineStart depth ++ "\x7d"

/-- The items after the first one. -/
def prettyItems (depth : Nat) : List Layout → String
  | [] => ""
  | l :: ls => "," ++ lineStart (depth + 1) ++ pretty (depth + 1) l ++ prettyItems depth ls

/-- The fields after the first one. -/
def prettyFields (depth : Nat) : List (String × Layout) → String
  | [] => ""
  | (name, l) :: ls =>
    "," ++ lineStart (depth + 1) ++ quote name ++ ": " ++ pretty (depth + 1) l ++
      prettyFields depth ls

end

end Layout

end BranchAndCut.Json
