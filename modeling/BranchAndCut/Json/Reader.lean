import BranchAndCut.Json.Value

/-! Reading a JSON text. Every function takes the characters left and returns
what it read with the characters after it; nesting and lists are bounded by the
number of characters, from which the fuel is taken. -/

namespace BranchAndCut.Json

/-- What is left after blanks. -/
def skipBlanks (cs : List Char) : List Char :=
  cs.dropWhile fun c => c == ' ' || c == '\n' || c == '\t' || c == '\r'

/-- The rest after the given characters. -/
def expect? (word : List Char) (cs : List Char) : Option (List Char) :=
  if cs.take word.length == word then some (cs.drop word.length) else none

/-- The value of a hexadecimal digit. -/
def hexDigit? (c : Char) : Option Nat :=
  if '0' ≤ c ∧ c ≤ '9' then some (c.toNat - '0'.toNat)
  else if 'a' ≤ c ∧ c ≤ 'f' then some (c.toNat - 'a'.toNat + 10)
  else if 'A' ≤ c ∧ c ≤ 'F' then some (c.toNat - 'A'.toNat + 10)
  else none

/-- Four hexadecimal digits. -/
def hexUnit? (cs : List Char) : Option (Nat × List Char) := do
  let ds ← (cs.take 4).mapM hexDigit?
  if ds.length = 4 then some (ds.foldl (fun n d => 16 * n + d) 0, cs.drop 4) else none

/-- The character of an escape of one letter. -/
def simpleEscape? : Char → Option Char
  | '"' => some '"'
  | '\\' => some '\\'
  | '/' => some '/'
  | 'b' => some '\x08'
  | 'f' => some '\x0c'
  | 'n' => some '\n'
  | 'r' => some '\r'
  | 't' => some '\t'
  | _ => none

/-- A character of a string body, or one that no text can hold. -/
structure Piece where
  char : Option Char
  rest : List Char

/-- An escape, after its backslash. A high surrogate needs a low one behind it. -/
def escape? (cs : List Char) : Option Piece :=
  match cs with
  | 'u' :: cs => do
    let (unit, rest) ← hexUnit? cs
    if 0xD800 ≤ unit ∧ unit < 0xDC00 then
      match rest with
      | '\\' :: 'u' :: more =>
        let (low, rest) ← hexUnit? more
        if 0xDC00 ≤ low ∧ low < 0xE000 then
          some ⟨some (Char.ofNat (0x10000 + (unit - 0xD800) * 0x400 + (low - 0xDC00))), rest⟩
        else some ⟨none, rest⟩
      | _ => some ⟨none, rest⟩
    else if 0xDC00 ≤ unit ∧ unit < 0xE000 then some ⟨none, rest⟩
    else some ⟨some (Char.ofNat unit), rest⟩
  | c :: cs => (simpleEscape? c).map fun c => ⟨some c, cs⟩
  | [] => none

/-- The body of a string up to its closing quote, the characters in reverse. -/
def stringBody? (acc : Option (List Char)) (cs : List Char) :
    Nat → Option (Option String × List Char)
  | 0 => none
  | fuel + 1 =>
    match cs with
    | [] => none
    | '"' :: cs => some (acc.map fun l => String.ofList l.reverse, cs)
    | '\\' :: cs => do
      let piece ← escape? cs
      stringBody? (piece.char.bind fun c => acc.map (c :: ·)) piece.rest fuel
    | c :: cs => if c.toNat < 0x20 then none else stringBody? (acc.map (c :: ·)) cs fuel

/-- A run of decimal digits, as a number and as a count. -/
def digitRun (cs : List Char) : Nat × Nat × List Char :=
  let ds := cs.takeWhile Char.isDigit
  (ds.foldl (fun n c => 10 * n + (c.toNat - '0'.toNat)) 0, ds.length, cs.dropWhile Char.isDigit)

/-- The exponent of a number, if there is one. -/
def exponentPart? (cs : List Char) : Option (Option Int × List Char) :=
  match cs with
  | c :: cs' =>
    if c == 'e' || c == 'E' then
      let (negative, cs) :=
        match cs' with
        | '+' :: cs => (false, cs)
        | '-' :: cs => (true, cs)
        | cs => (false, cs)
      let (e, count, rest) := digitRun cs
      if count = 0 then none else some (some (if negative then -(e : Int) else e), rest)
    else some (none, cs)
  | [] => some (none, [])

/-- A number: no digit stands before a leading zero or after it in the whole
part, and digits follow a point. -/
def number? (cs : List Char) : Option (Number × List Char) := do
  let (negative, cs) :=
    match cs with
    | '-' :: cs => (true, cs)
    | cs => (false, cs)
  let (n, count, rest) := digitRun cs
  if count = 0 ∨ (1 < count ∧ cs.head? = some '0') then none
  let (fraction, places, rest) ←
    match rest with
    | '.' :: rest =>
      let (f, places, rest) := digitRun rest
      if places = 0 then none else some (f, places, rest)
    | rest => some (0, 0, rest)
  let (e, rest) ← exponentPart? rest
  return ({ negative
            digits := n * Nat.pow 10 places + fraction
            exponent := e.getD 0 - places
            whole := places == 0 && e.isNone }, rest)

mutual

/-- A value, blanks before it skipped. -/
def value? (cs : List Char) : Nat → Option (Value × List Char)
  | 0 => none
  | fuel + 1 =>
    match skipBlanks cs with
    | [] => none
    | '"' :: cs => (stringBody? (some []) cs (cs.length + 1)).map fun (s, rest) => (.str s, rest)
    | '[' :: cs =>
      match skipBlanks cs with
      | ']' :: rest => some (.arr [], rest)
      | _ => (items? cs fuel).map fun (l, rest) => (.arr l, rest)
    | '\x7b' :: cs =>
      match skipBlanks cs with
      | '\x7d' :: rest => some (.obj [], rest)
      | _ => (members? cs fuel).map fun (l, rest) => (.obj l, rest)
    | 'n' :: cs => (expect? ['u', 'l', 'l'] cs).map fun rest => (.null, rest)
    | 't' :: cs => (expect? ['r', 'u', 'e'] cs).map fun rest => (.bool true, rest)
    | 'f' :: cs => (expect? ['a', 'l', 's', 'e'] cs).map fun rest => (.bool false, rest)
    | cs => (number? cs).map fun (n, rest) => (.num n, rest)

/-- The items of a list that is not empty, up to its closing bracket. -/
def items? (cs : List Char) : Nat → Option (List Value × List Char)
  | 0 => none
  | fuel + 1 => do
    let (v, rest) ← value? cs fuel
    match skipBlanks rest with
    | ']' :: rest => some ([v], rest)
    | ',' :: rest =>
      let (l, rest) ← items? rest fuel
      some (v :: l, rest)
    | _ => none

/-- The members of an object that is not empty, up to its closing brace. -/
def members? (cs : List Char) : Nat → Option (List (Option String × Value) × List Char)
  | 0 => none
  | fuel + 1 =>
    match skipBlanks cs with
    | '"' :: cs => do
      let (name, rest) ← stringBody? (some []) cs (cs.length + 1)
      let rest ← expect? [':'] (skipBlanks rest)
      let (v, rest) ← value? rest fuel
      match skipBlanks rest with
      | '\x7d' :: rest => some ([(name, v)], rest)
      | ',' :: rest =>
        let (l, rest) ← members? rest fuel
        some ((name, v) :: l, rest)
      | _ => none
    | _ => none

end

/-- The value of a whole text; only blanks may follow it. -/
def read? (text : String) : Option Value := do
  let cs := text.toList
  let (v, rest) ← value? cs (2 * cs.length + 2)
  if (skipBlanks rest).isEmpty then some v else none

end BranchAndCut.Json
