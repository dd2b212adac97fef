import AtomArray.Binary64

/-! The fewest decimal digits that read back as a given double. -/

namespace AtomArray

structure Decimal where
  digits : Nat
  exponent : Int
  deriving DecidableEq, Repr

namespace Decimal

/-- Which of two equally near digit strings is written. -/
inductive Tie
  | even
  | up
  deriving DecidableEq, Repr

/-- The reals that round to one double, in units of `2 ^ (-1076)`. -/
structure Range where
  low : Nat
  value : Nat
  high : Nat
  closed : Bool

/-- Half a step to each side, a quarter below a power of two; the ends belong to the double
with an even significand. -/
def Range.ofFloat (x : Float) : Range :=
  let m := Binary64.significand x
  let p := Binary64.exponent x
  let step := Nat.pow 2 p
  let value := 4 * m * step
  { low := value - if m = Nat.pow 2 52 ∧ 0 < p then step else 2 * step
    value
    high := value + 2 * step
    closed := m % 2 = 0 }

/-- `10 ^ e` in units of `2 ^ (-1076)`, as a fraction. -/
def gridStep (e : Int) : Nat × Nat :=
  if 0 ≤ e then (Nat.pow 10 e.toNat * Nat.pow 2 1076, 1)
  else (Nat.pow 2 1076, Nat.pow 10 (-e).toNat)

def Range.holds (r : Range) (step : Nat × Nat) (a : Nat) : Bool :=
  let point := a * step.1
  if r.closed then r.low * step.2 ≤ point && point ≤ r.high * step.2
  else r.low * step.2 < point && point < r.high * step.2

/-- The point of the grid `10 ^ e` nearest to the value, if the range holds one: only the value's
two neighbours on the grid can be nearest. -/
def Range.nearest? (r : Range) (tie : Tie) (e : Int) : Option Nat :=
  let step := gridStep e
  let value := r.value * step.2
  let a := value / step.1
  let below := value - a * step.1
  let above := (a + 1) * step.1 - value
  match r.holds step a, r.holds step (a + 1) with
  | false, false => none
  | true, false => some a
  | false, true => some (a + 1)
  | true, true =>
    if below < above then some a
    else if above < below then some (a + 1)
    else match tie with
      | .up => some (a + 1)
      | .even => some (if a % 2 = 0 then a else a + 1)

/-- Tries ever finer grids; the first hit has the fewest digits. -/
def Range.coarsest (r : Range) (tie : Tie) : Nat → Int → Decimal
  | 0, e => ⟨r.value * (gridStep e).2 / (gridStep e).1, e⟩
  | n + 1, e =>
    match r.nearest? tie e with
    | some a => ⟨a, e⟩
    | none => r.coarsest tie n (e - 1)

/-- The shortest decimal of a positive finite double. The search starts at a power of ten above
the value, and seventeen digits always suffice. -/
def shortest (tie : Tie) (x : Float) : Decimal :=
  let bits : Int := (Binary64.magnitude x).log2 - 1074
  (Range.ofFloat x).coarsest tie 24 ((bits + 2) * 30103 / 100000 + 1)

end Decimal
end AtomArray
