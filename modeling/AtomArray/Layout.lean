import AtomArray.Config.Fault
import AtomArray.Site.Lattice

/-! Site layouts: a lattice shape, or a list of sites. -/

namespace AtomArray

inductive Layout
  | box (rows cols lays : UInt32) (top left upper : Int64)
  | cube (diameter : UInt32) (top left upper : Int64)
  | rect (rows cols : UInt32) (top left : Int64)
  | square (diameter : UInt32) (top left : Int64)
  | triangular (size : UInt32) (top left : Float)
  | explicit (sites : List Site)

namespace Layout

def sites : Layout → List Site
  | .box rows cols lays top left upper => Lattice.box rows cols lays top left upper
  | .cube diameter top left upper => Lattice.cube diameter top left upper
  | .rect rows cols top left => Lattice.rect rows cols top left
  | .square diameter top left => Lattice.square diameter top left
  | .triangular size top left => Lattice.triangular size top left
  | .explicit sites => sites

structure Extent where
  axis : Axis
  offset : Int64
  length : UInt32

/-- The far end of an extent is a 64-bit number. -/
def Extent.fits (e : Extent) : Bool := e.offset.toInt + e.length.toNat ≤ Int64.maxValue.toInt

def checkLimit (count : Nat) : Except ConfigFault Nat :=
  if maxLayoutSites < count then .error (.tooManySites (some count)) else .ok count

/-- Multiplies the extents in order; each has to fit before it counts, and a product beyond 64 bits
is refused at once. -/
def countFrom (count : Nat) : List Extent → Except ConfigFault Nat
  | [] => checkLimit count
  | e :: rest =>
    if e.fits then
      let product := count * e.length.toNat
      if product < UInt64.size then countFrom product rest else .error (.tooManySites none)
    else .error (.axisOverflow e.axis e.offset e.length)

def countGrid (extents : List Extent) : Except ConfigFault Nat := countFrom 1 extents

/-- The number of sites, without generating them. -/
def siteCount : Layout → Except ConfigFault Nat
  | .box rows cols lays top left upper =>
    countGrid [⟨.x, top, rows⟩, ⟨.y, left, cols⟩, ⟨.z, upper, lays⟩]
  | .cube diameter top left upper =>
    countGrid [⟨.x, top, diameter⟩, ⟨.y, left, diameter⟩, ⟨.z, upper, diameter⟩]
  | .rect rows cols top left => countGrid [⟨.x, top, rows⟩, ⟨.y, left, cols⟩]
  | .square diameter top left => countGrid [⟨.x, top, diameter⟩, ⟨.y, left, diameter⟩]
  | .triangular size top left =>
    let side := size.toNat + 1
    if !top.isFinite || !left.isFinite then .error .offsetNotFinite
    else if side * side < UInt64.size then checkLimit (side * side)
    else .error (.tooManySites none)
  | .explicit sites => .ok sites.length

end Layout
end AtomArray
