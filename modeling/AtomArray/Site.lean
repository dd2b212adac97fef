import AtomArray.Decimal.Style

/-! Sites in space. Two sites are the same when their axes agree to nine decimals. -/

namespace AtomArray

structure Site where
  x : Float
  y : Float
  z : Float

namespace Site

def comparisonScale : Float := 1e9

/-- The coordinate to nine decimals, with a single zero. -/
def roundAxis (v : Float) : Float :=
  let r := Binary64.nearestWhole (v * comparisonScale) / comparisonScale
  if r == 0 then 0 else r

def rounded (s : Site) : Site := ⟨roundAxis s.x, roundAxis s.y, roundAxis s.z⟩

/-- The place of a site: the ranks of its rounded axes, which decide equality and order. -/
structure Place where
  x : UInt64
  y : UInt64
  z : UInt64
  deriving DecidableEq, Hashable, Repr

/-- By row, then column, then layer. -/
instance : Ord Place where
  compare a b := (compare a.x b.x).then ((compare a.y b.y).then (compare a.z b.z))

def place (s : Site) : Place :=
  ⟨Binary64.rank (roundAxis s.x), Binary64.rank (roundAxis s.y), Binary64.rank (roundAxis s.z)⟩

instance : BEq Site := ⟨fun a b => a.place == b.place⟩

instance : Ord Site := ⟨fun a b => compare a.place b.place⟩

def dimension (_ : Site) : Nat := 2

/-- The Euclidean distance of the coordinates as they stand. -/
def distance (a b : Site) : Float :=
  let dx := a.x - b.x
  let dy := a.y - b.y
  let dz := a.z - b.z
  (dx * dx + dy * dy + dz * dz).sqrt

def translate (s : Site) (dx dy dz : Float) : Site := ⟨s.x + dx, s.y + dy, s.z + dz⟩

def negate (s : Site) : Site := ⟨-s.x, -s.y, -s.z⟩

instance : Neg Site := ⟨negate⟩

def render (s : Site) : String :=
  let axis := Decimal.Style.plain.render
  "(" ++ axis s.x ++ ", " ++ axis s.y ++ ", " ++ axis s.z ++ ")"

/-- The inspection form, which tells whole coordinates from integers. -/
def inspect (s : Site) : String :=
  let axis := Decimal.Style.debug.render
  "ThreeDGridQubit::new(" ++ axis s.x ++ ", " ++ axis s.y ++ ", " ++ axis s.z ++ ")"

/-- Numbers that can be the components of an offset. -/
class AxisValue (α : Type) where
  toAxis : α → Float

instance : AxisValue Float := ⟨id⟩
instance : AxisValue Float32 := ⟨Float32.toFloat⟩
instance : AxisValue Int64 := ⟨Binary64.ofInt64⟩
instance : AxisValue Int32 := ⟨fun n => Binary64.ofInt64 n.toInt64⟩
instance : AxisValue UInt32 := ⟨UInt32.toFloat⟩

open AxisValue (toAxis)

instance {α : Type} [AxisValue α] : HAdd Site (α × α × α) Site where
  hAdd s t := s.translate (toAxis t.1) (toAxis t.2.1) (toAxis t.2.2)

instance {α : Type} [AxisValue α] : HSub Site (α × α × α) Site where
  hSub s t := s.translate (-toAxis t.1) (-toAxis t.2.1) (-toAxis t.2.2)

instance {α : Type} [AxisValue α] : HAdd (α × α × α) Site Site where
  hAdd t s := s + t

/-- An offset less a site is the negated site moved by the offset. -/
instance {α : Type} [AxisValue α] : HSub (α × α × α) Site Site where
  hSub t s := -s + t

end Site
end AtomArray
