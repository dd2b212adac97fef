import AtomArray.Decimal.Style

/-! Quantum gates: powers of named families, and the few gates that have no power. -/

namespace AtomArray

inductive Family
  | x | y | z | h
  | cz | cnot | swap
  | ccz | ccx
  deriving DecidableEq, Repr

namespace Family

def all : List Family := [.x, .y, .z, .h, .cz, .cnot, .swap, .ccz, .ccx]

def name : Family → String
  | .x => "x" | .y => "y" | .z => "z" | .h => "h"
  | .cz => "cz" | .cnot => "cnot" | .swap => "swap"
  | .ccz => "ccz" | .ccx => "ccx"

def arity : Family → Nat
  | .x | .y | .z | .h => 1
  | .cz | .cnot | .swap => 2
  | .ccz | .ccx => 3

end Family

/-- `phasedX` turns about the axis at `phase` half turns from X. A custom gate has a name and an
arity and nothing else is known of it. -/
inductive Gate
  | identity
  | measure (key : Option String)
  | power (family : Family) (exponent : Float)
  | phasedX (phase exponent : Float)
  | cswap
  | custom (name : String) (arity : UInt32)
  deriving DecidableEq

namespace Gate

def one (family : Family) : Gate := .power family 1

def name : Gate → String
  | .identity => "id"
  | .measure _ => "measure"
  | .power family _ => family.name
  | .phasedX _ _ => "phased_x"
  | .cswap => "cswap"
  | .custom name _ => name

def arity : Gate → Nat
  | .identity => 1
  | .measure _ => 1
  | .power family _ => family.arity
  | .phasedX _ _ => 1
  | .cswap => 3
  | .custom _ arity => arity.toNat

def exponent? : Gate → Option Float
  | .power _ e => some e
  | .phasedX _ e => some e
  | _ => none

/-- Multiplies the exponent; the identity stays, and the other gates without one have no power. -/
def pow? (g : Gate) (power : Float) : Option Gate :=
  match g with
  | .identity => some .identity
  | .power family e => some (.power family (e * power))
  | .phasedX phase e => some (.phasedX phase (e * power))
  | .measure _ | .cswap | .custom _ _ => none

def isMeasurement : Gate → Bool
  | .measure _ => true
  | _ => false

/-- An exponent is written only when it is not one. -/
def renderExponent (e : Float) : String :=
  if e == 1 then "" else "**" ++ Decimal.Style.plain.render e

def render : Gate → String
  | .phasedX phase e => "phased_x(p=" ++ Decimal.Style.plain.render phase ++ ")" ++ renderExponent e
  | .measure (some key) => "measure(" ++ key ++ ")"
  | .power family e => family.name ++ renderExponent e
  | g => g.name

end Gate

/-- Exponents this close to a whole number count as whole. -/
def exponentTolerance : Float := 1e-9

def isWholeExponent (e : Float) : Bool := Binary64.isWholeWithin exponentTolerance e

end AtomArray
