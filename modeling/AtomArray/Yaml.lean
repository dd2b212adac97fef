import AtomArray.Decimal.Numeral
import AtomArray.Data

/-! YAML values: scalars as they are written, and what plain scalars stand for. -/

namespace AtomArray

/-- A plain scalar is one without quotes; only such a scalar can stand for more than its text. -/
inductive Yaml
  | scalar (plain : Bool) (text : String)
  | list (items : List Yaml)
  | mapping (members : List (Yaml × Yaml))

namespace Yaml

def absent : Yaml := .scalar true ""

def isNullText (text : String) : Bool := ["", "~", "null", "Null", "NULL"].contains text

/-- Decimal digits after a needless zero, which are no number. -/
def hasNeedlessZero : List Char → Bool
  | '0' :: d :: ds => (d :: ds).all Char.isDigit
  | _ => false

/-- An unsigned integer in base ten, or in base 16, 8 or 2 after its mark. -/
def size? : List Char → Option Nat
  | '0' :: 'x' :: ds => Decimal.readNat? 16 ds
  | '0' :: 'o' :: ds => Decimal.readNat? 8 ds
  | '0' :: 'b' :: ds => Decimal.readNat? 2 ds
  | ds => if hasNeedlessZero ds then none else Decimal.readNat? 10 ds

def integerOf? (text : String) : Option Int :=
  let (negative, ds) := Decimal.spanSign text.toList
  (size? ds).map fun n => if negative then -n else n

/-- The double that a plain text stands for. A numeral beyond the doubles is none. -/
def floatOf? (text : String) : Option Float :=
  if [".inf", ".Inf", ".INF", "+.inf", "+.Inf", "+.INF"].contains text then some (1 / 0)
  else if ["-.inf", "-.Inf", "-.INF"].contains text then some (-1 / 0)
  else if [".nan", ".NaN", ".NAN"].contains text then some (0 / 0)
  else (Decimal.readFloat? text).filter Float.isFinite

def realOrText (text : String) : Data :=
  if hasNeedlessZero (Decimal.spanSign text.toList).2 then .text text
  else match floatOf? text with
    | some x => .real x
    | none => .text text

/-- What a plain text stands for. An integer of more than 64 bits has no value, and one of more than
128 bits is taken for a double. -/
def resolve (text : String) : Data :=
  if isNullText text then .null
  else if ["true", "True", "TRUE"].contains text then .bool true
  else if ["false", "False", "FALSE"].contains text then .bool false
  else match integerOf? text with
    | some n =>
      if Int64.minValue.toInt ≤ n ∧ n < UInt64.size then .integer n
      else if -Nat.pow 2 127 ≤ n ∧ n < Nat.pow 2 128 then .unreadable
      else realOrText text
    | none => realOrText text

def maxDepth : Nat := 128

mutual

/-- Whether a value can be read as a whole: every scalar in it has a value, and it nests no deeper
than the given depth. -/
def fits : Nat → Yaml → Bool
  | _, .scalar true text => (resolve text).fits 0
  | _, .scalar false _ => true
  | n + 1, .list items => fitsItems n items
  | n + 1, .mapping members => fitsMembers n members
  | 0, _ => false

def fitsItems : Nat → List Yaml → Bool
  | _, [] => true
  | n, item :: rest => fits n item && fitsItems n rest

def fitsMembers : Nat → List (Yaml × Yaml) → Bool
  | _, [] => true
  | n, (key, value) :: rest => fits n key && fits n value && fitsMembers n rest

end

/-- What a value tells of a field when it stands as a key: a text is a name, and a plain integer
without a minus sign the position of the field. -/
def toKey : Yaml → Data.Key
  | .scalar true text =>
    match resolve text with
    | .text name => .name name
    | .integer n => if text.toList.head? = some '-' then .other else .position n.toNat
    | _ => .other
  | .scalar false text => .name text
  | _ => .other

mutual

def toData : Yaml → Data
  | .scalar true text => resolve text
  | .scalar false text => .text text
  | .list items => .list (itemsToData items)
  | .mapping members => .record (membersToData members)

def itemsToData : List Yaml → List Data
  | [] => []
  | item :: rest => toData item :: itemsToData rest

def membersToData : List (Yaml × Yaml) → List (Data.Key × Data)
  | [] => []
  | (key, value) :: rest => (key.toKey, toData value) :: membersToData rest

end

def float? : Yaml → Option Float
  | .scalar true text => floatOf? text
  | _ => none

/-- A plain scalar where an unsigned number is wanted; it has no minus sign. -/
def uint64? : Yaml → Option UInt64
  | .scalar true text =>
    if text.toList.head? = some '-' then none
    else match integerOf? text with
      | some n => if n < UInt64.size then some (UInt64.ofNat n.toNat) else none
      | none => none
  | _ => none

def scalarText? : Yaml → Option String
  | .scalar _ text => some text
  | _ => none

/-- The values of a record by name, in the order of the names. Keys are scalars; other members are
skipped, and none that is wanted is given twice. Where nothing stands, the record has no members. -/
def fields? (names : List String) : Yaml → Option (List (Option Yaml))
  | .mapping members => do
    let keys ← members.mapM fun member => member.1.scalarText?
    names.mapM fun name =>
      match (keys.zip members).filter (·.1 == name) with
      | [] => some none
      | [(_, _, value)] => some (some value)
      | _ => none
  | .scalar true "" => some (names.map fun _ => none)
  | _ => none

def fieldOr {α : Type} (default : α) (read? : Yaml → Option α) : Option Yaml → Option α
  | none => some default
  | some value => read? value

end Yaml
end AtomArray
