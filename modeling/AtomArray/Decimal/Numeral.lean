import AtomArray.Binary64

/-! Decimal numerals in text, and the doubles they name. -/

namespace AtomArray.Decimal

/-- A numeral as it stands: digits before and after the point, and the power of ten. -/
structure Numeral where
  negative : Bool
  whole : List Nat
  fraction : Option (List Nat)
  exponent : Option Int

def digit? (c : Char) : Option Nat := if c.isDigit then some (c.toNat - '0'.toNat) else none

def spanDigits : List Char → List Nat × List Char
  | [] => ([], [])
  | c :: cs =>
    match digit? c with
    | none => ([], c :: cs)
    | some d => let (ds, rest) := spanDigits cs; (d :: ds, rest)

def ofDigits (ds : List Nat) : Nat := ds.foldl (fun n d => n * 10 + d) 0

def spanSign : List Char → Bool × List Char
  | '-' :: cs => (true, cs)
  | '+' :: cs => (false, cs)
  | cs => (false, cs)

/-- The power of ten behind an `e`, which must have digits. -/
def exponent? (cs : List Char) : Option (Option Int × List Char) :=
  match cs with
  | c :: rest =>
    if c = 'e' ∨ c = 'E' then
      let (negative, rest) := spanSign rest
      match spanDigits rest with
      | ([], _) => none
      | (ds, rest) =>
        let n : Int := ofDigits ds
        some (some (if negative then -n else n), rest)
    else some (none, cs)
  | [] => some (none, [])

/-- The longest numeral at the front of the text: an optional sign, digits with an optional point
among them, and an optional power of ten. -/
def Numeral.scan? (cs : List Char) : Option (Numeral × List Char) :=
  let (negative, cs) := spanSign cs
  let (whole, cs) := spanDigits cs
  let (fraction, cs) := match cs with
    | '.' :: rest => let (ds, rest) := spanDigits rest; (some ds, rest)
    | _ => (none, cs)
  (exponent? cs).map fun (exponent, rest) => (⟨negative, whole, fraction, exponent⟩, rest)

def signed (negative : Bool) (x : Float) : Float := if negative then -x else x

/-- The double nearest to the numeral. Beyond the powers of ten that doubles reach, the size alone
decides. -/
def Numeral.nearest (n : Numeral) : Float :=
  let fraction := n.fraction.getD []
  let digits := n.whole ++ fraction
  let exponent := n.exponent.getD 0 - fraction.length
  let size := (digits.dropWhile (· = 0)).length + exponent
  signed n.negative <|
    if ofDigits digits = 0 ∨ size < -330 then 0
    else if 330 < size then 1 / 0
    else Float.ofScientific (ofDigits digits) (exponent < 0) exponent.natAbs

/-- Reads a whole text as a double, rounding to nearest: a numeral with a digit on some side of its
point, or the name of a special value in any case. -/
def readFloat? (text : String) : Option Float :=
  let cs := text.toList
  let (negative, word) := spanSign cs
  let word := String.ofList (word.map Char.toLower)
  if word = "inf" ∨ word = "infinity" then some (signed negative (1 / 0))
  else if word = "nan" then some (0 / 0)
  else match Numeral.scan? cs with
    | some (n, []) =>
      if n.whole = [] ∧ n.fraction.getD [] = [] then none else some n.nearest
    | _ => none

/-- Digits in a base of at most 36, in either case. -/
def readNat? (base : Nat) (cs : List Char) : Option Nat :=
  let digit (c : Char) : Nat :=
    if c.isDigit then c.toNat - '0'.toNat
    else if c.isAlpha then c.toLower.toNat - 'a'.toNat + 10 else base
  if cs = [] then none
  else cs.foldlM (fun n c => if digit c < base then some (n * base + digit c) else none) 0

/-- Reads a whole text as a decimal integer with an optional sign. -/
def readInt? (text : String) : Option Int :=
  let (negative, ds) := spanSign text.toList
  (readNat? 10 ds).map fun n => if negative then -n else n

end AtomArray.Decimal
