import AtomArray.Data
import AtomArray.Decimal.Style

/-! Writing JSON text, on one line or with a line for each member. -/

namespace AtomArray.Json

open Data (Key)

def hexChar (n : Nat) : Char := if n < 10 then Char.ofNat (n + 48) else Char.ofNat (n + 87)

/-- Quotes, backslashes and control characters are escaped, and nothing else. -/
def escape (c : Char) : List Char :=
  match c with
  | '"' => ['\\', '"']
  | '\\' => ['\\', '\\']
  | '\x08' => ['\\', 'b']
  | '\x0c' => ['\\', 'f']
  | '\n' => ['\\', 'n']
  | '\r' => ['\\', 'r']
  | '\t' => ['\\', 't']
  | c =>
    if c < ' ' then ['\\', 'u', '0', '0', hexChar (c.toNat / 16), hexChar (c.toNat % 16)]
    else [c]

def quote (s : String) : List Char := '"' :: s.toList.flatMap escape ++ ['"']

/-- Only finite numbers have a text. -/
def number (x : Float) : List Char :=
  if x.isFinite then (Decimal.Style.json.render x).toList else ['n', 'u', 'l', 'l']

def scalar : Data → List Char
  | .bool true => ['t', 'r', 'u', 'e']
  | .bool false => ['f', 'a', 'l', 's', 'e']
  | .integer n => (toString n).toList
  | .real x => number x
  | .text s => quote s
  | _ => ['n', 'u', 'l', 'l']

mutual

def compactChars : Data → List Char
  | .list items => '[' :: compactItems items ++ [']']
  | .record members => '\x7b' :: compactMembers members ++ ['\x7d']
  | value => scalar value

def compactItems : List Data → List Char
  | [] => []
  | [item] => compactChars item
  | item :: rest => compactChars item ++ ',' :: compactItems rest

def compactMembers : List (Key × Data) → List Char
  | [] => []
  | [(key, value)] => quote key.text ++ ':' :: compactChars value
  | (key, value) :: rest =>
    quote key.text ++ ':' :: compactChars value ++ ',' :: compactMembers rest

end

/-- A line break and two blanks for each level. -/
def lineBreak (depth : Nat) : List Char := '\n' :: List.replicate (2 * depth) ' '

mutual

def prettyChars (depth : Nat) : Data → List Char
  | .list [] => ['[', ']']
  | .list items => '[' :: prettyItems (depth + 1) items ++ lineBreak depth ++ [']']
  | .record [] => ['\x7b', '\x7d']
  | .record members => '\x7b' :: prettyMembers (depth + 1) members ++ lineBreak depth ++ ['\x7d']
  | value => scalar value

def prettyItems (depth : Nat) : List Data → List Char
  | [] => []
  | [item] => lineBreak depth ++ prettyChars depth item
  | item :: rest => lineBreak depth ++ prettyChars depth item ++ ',' :: prettyItems depth rest

def prettyMembers (depth : Nat) : List (Key × Data) → List Char
  | [] => []
  | [(key, value)] => lineBreak depth ++ quote key.text ++ ':' :: ' ' :: prettyChars depth value
  | (key, value) :: rest =>
    lineBreak depth ++ quote key.text ++ ':' :: ' ' :: prettyChars depth value ++ ',' ::
      prettyMembers depth rest

end

def compact (value : Data) : String := String.ofList (compactChars value)

def pretty (value : Data) : String := String.ofList (prettyChars 0 value)

end AtomArray.Json
