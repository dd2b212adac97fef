import AtomArray.Decimal.Style
import AtomArray.Data

/-! Writing values as YAML text, nested by indentation. -/

namespace AtomArray.Yaml

/-- Texts stand without quotes, which is right for the names of kinds. -/
def scalarChars : Data → List Char
  | .bool true => ['t', 'r', 'u', 'e']
  | .bool false => ['f', 'a', 'l', 's', 'e']
  | .integer n => (toString n).toList
  | .real x => (Decimal.Style.yaml.render x).toList
  | .text s => s.toList
  | .list _ => ['[', ']']
  | .record _ => ['\x7b', '\x7d']
  | .null | .unreadable => ['n', 'u', 'l', 'l']

def indentation (depth : Nat) : List Char := List.replicate (2 * depth) ' '

mutual

/-- A value behind its key: on the same line, or on lines of its own. A list is not indented. -/
def valueChars (depth : Nat) : Data → List Char
  | .record (member :: rest) =>
    '\n' :: indentation (depth + 1) ++ membersChars (depth + 1) (member :: rest)
  | .list (item :: rest) => '\n' :: indentation depth ++ itemsChars depth (item :: rest)
  | value => ' ' :: scalarChars value ++ ['\n']

/-- A value from where the text stands. -/
def blockChars (depth : Nat) : Data → List Char
  | .record (member :: rest) => membersChars depth (member :: rest)
  | .list (item :: rest) => itemsChars depth (item :: rest)
  | value => scalarChars value ++ ['\n']

def membersChars (depth : Nat) : List (Data.Key × Data) → List Char
  | [] => []
  | [(key, value)] => key.text.toList ++ ':' :: valueChars depth value
  | (key, value) :: rest =>
    key.text.toList ++ ':' :: valueChars depth value ++ indentation depth ++ membersChars depth rest

def itemsChars (depth : Nat) : List Data → List Char
  | [] => []
  | [item] => '-' :: ' ' :: blockChars (depth + 1) item
  | item :: rest =>
    '-' :: ' ' :: blockChars (depth + 1) item ++ indentation depth ++ itemsChars depth rest

end

/-- The text of a value; it ends with a line break. -/
def write (value : Data) : String := String.ofList (blockChars 0 value)

end AtomArray.Yaml
