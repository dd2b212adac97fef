import AtomArray.Data
import AtomArray.Decimal.Numeral

/-! Reading JSON text. -/

namespace AtomArray.Json

def maxDepth : Nat := 127

def skipBlanks (cs : List Char) : List Char :=
  cs.dropWhile fun c => c = ' ' || c = '\n' || c = '\t' || c = '\r'

/-- A power of ten times a number, by one multiplication or division for each factor of at most
`10 ^ 308`; refused when it is beyond the doubles. Two divisions by `10 ^ 308` leave nothing of a
64-bit significand. -/
def scale? : Nat → Float → Int → Option Float
  | 0, x, _ => some x
  | n + 1, x, e =>
    if e.natAbs ≤ 308 then
      let power := Float.ofScientific 1 false e.natAbs
      if 0 ≤ e then
        let r := x * power
        if r.isInf then none else some r
      else some (x / power)
    else if x == 0 then some x
    else if 0 ≤ e then none
    else scale? n (x / 1e308) (e + 308)

/-- Appends digits while the significand fits in 64 bits, and tells how many did. -/
def significand : List Nat → Nat → Nat → Nat × Nat
  | [], n, used => (n, used)
  | d :: ds, n, used =>
    if n * 10 + d < UInt64.size then significand ds (n * 10 + d) (used + 1) else (n, used)

/-- The double of a numeral: its leading digits as a 64-bit significand, rounded, then scaled by the
power of ten that accounts for the point and for the digits left out. -/
def realOf (n : Decimal.Numeral) : Data :=
  let whole := significand n.whole 0 0
  let fraction := significand (n.fraction.getD []) whole.1 0
  let dropped := n.whole.length - whole.2
  let e : Int := n.exponent.getD 0 + dropped - fraction.2
  match scale? 4 (UInt64.ofNat fraction.1).toFloat e with
  | some x => .real (if n.negative then -x else x)
  | none => .unreadable

/-- Whole numerals in the range of 64-bit numbers, signed or not, are integers. Minus zero is a
double, since it has a sign. -/
def numberOf (n : Decimal.Numeral) : Data :=
  match n.fraction, n.exponent with
  | none, none =>
    let size := Decimal.ofDigits n.whole
    if !n.negative then if size < UInt64.size then .integer size else realOf n
    else if size ≠ 0 ∧ size ≤ Int64.minValue.toInt.natAbs then .integer (-size)
    else realOf n
  | _, _ => realOf n

/-- A numeral without a plus sign or needless zeros, and with digits around its point. -/
def isStrict (n : Decimal.Numeral) : Bool :=
  (match n.whole with
    | [] => false
    | 0 :: _ :: _ => false
    | _ => true) && n.fraction != some []

def readNumber (cs : List Char) : Option (Data × List Char) :=
  match Decimal.Numeral.scan? cs with
  | some (n, rest) => if isStrict n then some (numberOf n, rest) else none
  | none => none

def hexDigit? (c : Char) : Option Nat :=
  if c.isDigit then some (c.toNat - '0'.toNat)
  else if 'a' ≤ c ∧ c ≤ 'f' then some (c.toNat - 'a'.toNat + 10)
  else if 'A' ≤ c ∧ c ≤ 'F' then some (c.toNat - 'A'.toNat + 10)
  else none

def hex4? (a b c d : Char) : Option Nat := do
  return (((← hexDigit? a) * 16 + (← hexDigit? b)) * 16 + (← hexDigit? c)) * 16 + (← hexDigit? d)

def escape? : Char → Option Char
  | '"' => some '"'
  | '\\' => some '\\'
  | '/' => some '/'
  | 'b' => some '\x08'
  | 'f' => some '\x0c'
  | 'n' => some '\n'
  | 'r' => some '\r'
  | 't' => some '\t'
  | _ => none

def isLead (u : Nat) : Bool := 0xd800 ≤ u && u < 0xdc00

def isTrail (u : Nat) : Bool := 0xdc00 ≤ u && u < 0xe000

/-- What a string holds, none if it is unreadable, and the text behind its closing quote. -/
abbrev StringRest := Option (List Char) × List Char

def StringRest.push (c : Char) (r : StringRest) : StringRest := (r.1.map (c :: ·), r.2)

def StringRest.spoil (r : StringRest) : StringRest := (none, r.2)

/-- Reads a string behind its opening quote. `lead` is the first half of a surrogate pair, which
the next escape has to complete. -/
def readString (lead : Option Nat) : List Char → Option StringRest
  | [] => none
  | '"' :: rest => some (if lead.isSome then none else some [], rest)
  | '\\' :: 'u' :: a :: b :: c :: d :: rest =>
    match hex4? a b c d with
    | none => none
    | some u =>
      match lead with
      | some high =>
        if isTrail u then
          (readString none rest).map
            (.push (Char.ofNat (0x10000 + (high - 0xd800) * 0x400 + (u - 0xdc00))))
        else (readString none rest).map .spoil
      | none =>
        if isLead u then readString (some u) rest
        else if isTrail u then (readString none rest).map .spoil
        else (readString none rest).map (.push (Char.ofNat u))
  | '\\' :: e :: rest =>
    match escape? e with
    | none => none
    | some c =>
      (readString none rest).map fun r => if lead.isSome then r.spoil else r.push c
  | c :: rest =>
    if c < ' ' ∨ c = '\\' then none
    else (readString none rest).map fun r => if lead.isSome then r.spoil else r.push c

def readWord (word : List Char) (value : Data) (cs : List Char) : Option (Data × List Char) :=
  if word.isPrefixOf cs then some (value, cs.drop word.length) else none

/-- A record, unreadable if one of its names is. -/
def recordOf (members : List (Option (List Char) × Data)) : Data :=
  match members.mapM fun (name, value) => name.map fun cs => (.name (String.ofList cs), value) with
  | some named => .record named
  | none => .unreadable

mutual

/-- Reads one value at the front of the text. Every level takes a character and at most two steps,
so twice the length of the text is fuel enough. -/
def readValue : Nat → List Char → Option (Data × List Char)
  | 0, _ => none
  | n + 1, cs =>
    match skipBlanks cs with
    | '[' :: rest =>
      match skipBlanks rest with
      | ']' :: rest => some (.list [], rest)
      | _ => (readItems n rest).map fun (items, rest) => (.list items, rest)
    | '\x7b' :: rest =>
      match skipBlanks rest with
      | '\x7d' :: rest => some (.record [], rest)
      | _ => (readMembers n rest).map fun (members, rest) => (recordOf members, rest)
    | '"' :: rest =>
      (readString none rest).map fun (content, rest) =>
        (match content with
          | some cs => .text (String.ofList cs)
          | none => .unreadable, rest)
    | 'n' :: rest => readWord ['u', 'l', 'l'] .null rest
    | 't' :: rest => readWord ['r', 'u', 'e'] (.bool true) rest
    | 'f' :: rest => readWord ['a', 'l', 's', 'e'] (.bool false) rest
    | '+' :: _ => none
    | cs => readNumber cs

def readItems : Nat → List Char → Option (List Data × List Char)
  | 0, _ => none
  | n + 1, cs =>
    match readValue n cs with
    | none => none
    | some (item, rest) =>
      match skipBlanks rest with
      | ',' :: rest => (readItems n rest).map fun (items, rest) => (item :: items, rest)
      | ']' :: rest => some ([item], rest)
      | _ => none

def readMembers : Nat → List Char → Option (List (Option (List Char) × Data) × List Char)
  | 0, _ => none
  | n + 1, cs =>
    match skipBlanks cs with
    | '"' :: rest =>
      match readString none rest with
      | none => none
      | some (name, rest) =>
        match skipBlanks rest with
        | ':' :: rest =>
          match readValue n rest with
          | none => none
          | some (value, rest) =>
            match skipBlanks rest with
            | ',' :: rest =>
              (readMembers n rest).map fun (members, rest) => ((name, value) :: members, rest)
            | '\x7d' :: rest => some ([(name, value)], rest)
            | _ => none
        | _ => none
    | _ => none

end

def readFront? (cs : List Char) : Option (Data × List Char) := readValue (2 * cs.length + 2) cs

/-- Reads a text that holds one value and blanks around it. -/
def read? (text : String) : Option Data :=
  match readFront? text.toList with
  | some (value, rest) => if (skipBlanks rest).isEmpty then some value else none
  | none => none

/-- Reads a value in which nothing is unreadable or nested too deep. -/
def readWhole? (text : String) : Option Data := (read? text).filter (·.fits maxDepth)

end AtomArray.Json
