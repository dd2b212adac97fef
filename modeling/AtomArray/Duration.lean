/-! Durations, counted in nanoseconds. -/

namespace AtomArray

structure Duration where
  nanoseconds : Nat
  deriving DecidableEq, Repr

namespace Duration

def ofMicroseconds (n : Nat) : Duration := ⟨n * 1000⟩

def ofMilliseconds (n : Nat) : Duration := ⟨n * 1000000⟩

/-- `rest` out of `10 ^ width` as the digits after a point, without zeros at the end. -/
def decimals (rest width : Nat) : List Char :=
  let ds := Nat.toDigits 10 rest
  let padded := List.replicate (width - ds.length) '0' ++ ds
  (padded.reverse.dropWhile (· = '0')).reverse

/-- A number of units of `10 ^ width` nanoseconds. -/
def inUnit (d : Duration) (width : Nat) (unit : String) : String :=
  let whole := toString (d.nanoseconds / Nat.pow 10 width)
  match decimals (d.nanoseconds % Nat.pow 10 width) width with
  | [] => whole ++ unit
  | ds => whole ++ "." ++ String.ofList ds ++ unit

def render (d : Duration) : String :=
  if Nat.pow 10 9 ≤ d.nanoseconds then d.inUnit 9 "s"
  else if Nat.pow 10 6 ≤ d.nanoseconds then d.inUnit 6 "ms"
  else if Nat.pow 10 3 ≤ d.nanoseconds then d.inUnit 3 "µs"
  else d.inUnit 0 "ns"

end Duration
end AtomArray
