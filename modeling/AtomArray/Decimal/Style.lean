import AtomArray.Decimal.Shortest

/-! How a double is laid out as text: plainly, with an exponent, or by a special name. -/

namespace AtomArray.Decimal

/-- The choices a format makes. A positional layout is taken when the decimal point stands at a
place `k` with `low < k ≤ high`, counted from the first digit; without limits it is always taken. -/
structure Style where
  tie : Tie
  limits : Option (Int × Int)
  pointZero : Bool
  exponentPlus : Bool
  infinity : String
  nan : String

/-- Error messages and listings: never an exponent, whole numbers bare. -/
def Style.plain : Style := ⟨.up, none, false, false, "inf", "NaN"⟩

/-- Inspection: whole numbers keep a zero after the point. -/
def Style.debug : Style := ⟨.up, some (-4, 16), true, false, "inf", "NaN"⟩

/-- JSON numbers; the special values have none and are written as null. -/
def Style.json : Style := ⟨.even, some (-5, 16), true, true, "null", "null"⟩

def Style.yaml : Style := ⟨.even, some (-5, 16), true, false, ".inf", ".nan"⟩

def zeros (n : Nat) : List Char := List.replicate n '0'

/-- Digits around a point at place `k`. -/
def Style.positional (s : Style) (ds : List Char) (k : Int) : List Char :=
  if k ≤ 0 then ['0', '.'] ++ zeros (-k).toNat ++ ds
  else if ds.length ≤ k.toNat then
    ds ++ zeros (k.toNat - ds.length) ++ if s.pointZero then ['.', '0'] else []
  else ds.take k.toNat ++ '.' :: ds.drop k.toNat

def Style.scientific (s : Style) (ds : List Char) (k : Int) : List Char :=
  let mantissa := match ds with
    | d :: e :: rest => d :: '.' :: e :: rest
    | short => short
  let sign := if k ≤ 0 then ['-'] else if s.exponentPlus then ['+'] else []
  mantissa ++ 'e' :: sign ++ Nat.toDigits 10 (k - 1).natAbs

def Style.layout (s : Style) (d : Decimal) : List Char :=
  let ds := Nat.toDigits 10 d.digits
  let k := ds.length + d.exponent
  match s.limits with
  | none => s.positional ds k
  | some (low, high) =>
    if low < k ∧ k ≤ high then s.positional ds k else s.scientific ds k

def Style.unsigned (s : Style) (x : Float) : List Char :=
  if x.isInf then s.infinity.toList
  else if Binary64.magnitude x = 0 then s.positional ['0'] 1
  else s.layout (shortest s.tie x)

/-- The text of a double; the sign of zero is kept and NaN has none. -/
def Style.render (s : Style) (x : Float) : String :=
  if x.isNaN then s.nan
  else String.ofList ((if Binary64.isNegative x then ['-'] else []) ++ s.unsigned x)

end AtomArray.Decimal
