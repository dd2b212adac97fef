import AtomArray.Site

/-! The sites of regular lattices, in the order in which they are numbered. -/

namespace AtomArray.Lattice

/-- Site `i` of a box: its position is read off the mixed-radix digits of `i`, with the row first
and the layer last. -/
def boxSite (cols lays : Nat) (top left upper : Int64) (i : Nat) : Site :=
  let place (offset : Int64) (n : Nat) := Binary64.ofInt64 offset + (UInt64.ofNat n).toFloat
  ⟨place top (i / lays / cols), place left (i / lays % cols), place upper (i % lays)⟩

/-- A dense box of `rows * cols * lays` sites from the corner `(top, left, upper)`. -/
def box (rows cols lays : UInt32) (top left upper : Int64) : List Site :=
  (List.range (rows.toNat * cols.toNat * lays.toNat)).map
    (boxSite cols.toNat lays.toNat top left upper)

def cube (diameter : UInt32) (top left upper : Int64) : List Site :=
  box diameter diameter diameter top left upper

def rect (rows cols : UInt32) (top left : Int64) : List Site := box rows cols 1 top left 0

def square (diameter : UInt32) (top left : Int64) : List Site := rect diameter diameter top left

def rowHeight : Float := Float.sqrt 3 / 2

/-- Point `(i, j)` of a triangular packing on layer 0; every other row is moved by a half. -/
def triangularSite (top left : Float) (i j : Nat) : Site :=
  let shift := if j % 2 = 1 then 0.5 else 0
  ⟨(UInt64.ofNat i).toFloat + shift + top, (UInt64.ofNat j).toFloat * rowHeight + left, 0⟩

/-- A triangular packing with `size + 1` points to a side. -/
def triangular (size : UInt32) (top left : Float) : List Site :=
  let side := size.toNat + 1
  (List.range (side * side)).map fun n => triangularSite top left (n / side) (n % side)

end AtomArray.Lattice
