/-! Doubles as words: the fields of a finite value, the total order, the nearest whole number. -/

namespace AtomArray.Binary64

/-- The eleven exponent bits; 2047 marks the infinities and NaN. -/
def exponentField (x : Float) : Nat := ((x.toBits >>> 52) &&& 0x7ff).toNat

def fractionField (x : Float) : Nat := (x.toBits &&& 0xfffffffffffff).toNat

def isNegative (x : Float) : Bool := x.toBits >>> 63 == 1

/-- A finite double is `significand x * 2 ^ (exponent x) / 2 ^ 1074` up to its sign. -/
def significand (x : Float) : Nat :=
  if exponentField x = 0 then fractionField x else Nat.pow 2 52 + fractionField x

def exponent (x : Float) : Nat := exponentField x - 1

/-- The size of a finite double in units of `2 ^ (-1074)`, of which every double is a multiple. -/
def magnitude (x : Float) : Nat := significand x * Nat.pow 2 (exponent x)

/-- Ascending words in the total order of doubles: by sign, then size, with NaN above all. -/
def rank (x : Float) : UInt64 :=
  let bits := x.toBits
  if bits >>> 63 == 1 then ~~~bits else bits ||| 0x8000000000000000

/-- The nearest whole number, a half going away from zero; infinities and NaN stay.
From the exponent field 1075 on the fraction bits hold whole units, and below 1022 the size is
less than a half. -/
def nearestWhole (x : Float) : Float :=
  let field := exponentField x
  if 1075 ≤ field then x
  else
    let n := if field < 1022 then 0
      else (significand x + Nat.pow 2 (1074 - field)) / Nat.pow 2 (1075 - field)
    let r := (UInt64.ofNat n).toFloat
    if isNegative x then -r else r

def offWhole (x : Float) : Nat :=
  let r := magnitude x % Nat.pow 2 1074
  min r (Nat.pow 2 1074 - r)

/-- A finite double less than `tolerance` away from a whole number. -/
def isWholeWithin (tolerance x : Float) : Bool :=
  x.isFinite && offWhole x < magnitude tolerance

def ofInt64 (n : Int64) : Float :=
  if n < 0 then -(UInt64.ofNat n.toInt.natAbs).toFloat else n.toUInt64.toFloat

end AtomArray.Binary64
