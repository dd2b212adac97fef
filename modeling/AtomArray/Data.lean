import AtomArray.Binary64

/-! Structured values, and the members of records and tagged unions in them. -/

namespace AtomArray

/-- What a member of a record is known by: its name, or its position among the fields of the record.
Nothing else tells a field. -/
inductive Data.Key
  | name (s : String)
  | position (n : Nat)
  | other
  deriving DecidableEq

instance : Coe String Data.Key := ⟨.name⟩

def Data.Key.text : Data.Key → String
  | .name s => s
  | .position n => toString n
  | .other => ""

/-- `unreadable` stands for well-formed text that names no value here: a number beyond the doubles,
or a string with half of a surrogate pair. Only a member that is skipped may hold it. -/
inductive Data
  | null
  | bool (b : Bool)
  | integer (n : Int)
  | real (x : Float)
  | text (s : String)
  | list (items : List Data)
  | record (members : List (Data.Key × Data))
  | unreadable

namespace Data

mutual

/-- Whether a value can be read as a whole: nothing in it is unreadable, and it nests no deeper than
the given depth. -/
def fits : Nat → Data → Bool
  | _, .unreadable => false
  | 0, .list _ => false
  | 0, .record _ => false
  | n + 1, .list items => fitsItems n items
  | n + 1, .record members => fitsMembers n members
  | _, _ => true

def fitsItems : Nat → List Data → Bool
  | _, [] => true
  | n, item :: rest => fits n item && fitsItems n rest

def fitsMembers : Nat → List (Key × Data) → Bool
  | _, [] => true
  | n, (_, value) :: rest => fits n value && fitsMembers n rest

end

def text? : Data → Option String
  | .text s => some s
  | _ => none

def list? : Data → Option (List Data)
  | .list items => some items
  | _ => none

/-- An integer is read as the nearest double where a number is wanted, but never the reverse. -/
def float? : Data → Option Float
  | .real x => some x
  | .integer n =>
    let size := (UInt64.ofNat n.natAbs).toFloat
    some (if n < 0 then -size else size)
  | _ => none

def uint32? : Data → Option UInt32
  | .integer n => if 0 ≤ n ∧ n < UInt32.size then some (UInt32.ofNat n.toNat) else none
  | _ => none

def uint64? : Data → Option UInt64
  | .integer n => if 0 ≤ n ∧ n < UInt64.size then some (UInt64.ofNat n.toNat) else none
  | _ => none

def int64? : Data → Option Int64
  | .integer n =>
    if Int64.minValue.toInt ≤ n ∧ n ≤ Int64.maxValue.toInt then some (Int64.ofInt n) else none
  | _ => none

/-- The value of the member whose key is wanted, if there is one; refused if it is given twice. -/
def member? (members : List (Key × Data)) (wanted : Key → Bool) : Option (Option Data) :=
  match members.filter fun member => wanted member.1 with
  | [] => some none
  | [(_, value)] => some (some value)
  | _ => none

/-- The members of a record, in the order of the names; other members are skipped. A record may also
be a list of its members in order, the last ones left out. -/
def fields? (names : List String) : Data → Option (List (Option Data))
  | .record members =>
    if members.any (·.1 = .other) then none
    else names.zipIdx.mapM fun (name, n) =>
      member? members fun key => key = .name name || key = .position n
  | .list items =>
    if items.length ≤ names.length then
      some (items.map some ++ List.replicate (names.length - items.length) none)
    else none
  | _ => none

/-- The name of a kind, which may be given by its number where the kinds are numbered. -/
def kind? (numbered : List String) : Data → Option String
  | .text name => some name
  | .integer n => if 0 ≤ n then numbered[n.toNat]? else none
  | _ => none

/-- The tag of a union and the record that belongs to it. A union may also be a list that starts
with its tag. -/
def tagged? (numbered : List String) (tag : String) : Data → Option (String × Data)
  | .record members =>
    match member? members (· = .name tag) with
    | some (some kind) =>
      (kind.kind? numbered).map (·, .record (members.filter (·.1 ≠ .name tag)))
    | _ => none
  | .list (kind :: rest) => (kind.kind? numbered).map (·, .list rest)
  | _ => none

def fieldOr {α : Type} (default : α) (read? : Data → Option α) : Option Data → Option α
  | none => some default
  | some value => read? value

def noFields? : Data → Option Unit
  | .record _ | .list [] => some ()
  | _ => none

end Data
end AtomArray
