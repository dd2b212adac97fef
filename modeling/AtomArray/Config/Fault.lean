import AtomArray.Timing
import AtomArray.Decimal.Style

/-! What can be wrong with a configuration that reads well. -/

namespace AtomArray

inductive Axis
  | x | y | z
  deriving DecidableEq, Repr

def Axis.name : Axis → String
  | .x => "x"
  | .y => "y"
  | .z => "z"

def maxLayoutSites : Nat := 1 <<< 20

/-- A count that exceeds the limit is named only while it fits in 64 bits. -/
inductive ConfigFault
  | radiusNotPositive (radius : Float)
  | axisOverflow (axis : Axis) (offset : Int64) (extent : UInt32)
  | tooManySites (count : Option Nat)
  | offsetNotFinite
  | noSites
  | identityZero
  | measurementZero

def ConfigFault.reason : ConfigFault → String
  | .radiusNotPositive radius =>
    "control_radius must be positive, got " ++ Decimal.Style.plain.render radius
  | .axisOverflow axis offset extent =>
    "layout extent along " ++ axis.name ++ " overflows: offset " ++ toString offset ++ " + " ++
      toString extent
  | .tooManySites (some count) =>
    "layout has " ++ toString count ++ " sites, more than the limit of " ++ toString maxLayoutSites
  | .tooManySites none => "layout exceeds the limit of " ++ toString maxLayoutSites ++ " sites"
  | .offsetNotFinite => "triangular lattice offsets must be finite"
  | .noSites => "layout has no sites"
  | .identityZero => "identity_ns must be non-zero"
  | .measurementZero => "measurement_ns must be non-zero"

def ConfigFault.message (f : ConfigFault) : String := "Invalid configuration: " ++ f.reason

/-- Recorded durations are not zero; the identity is judged first. -/
def TimingRecord.check (r : TimingRecord) : Except ConfigFault Unit :=
  if r.identity = 0 then .error .identityZero
  else if r.measurement = 0 then .error .measurementZero
  else .ok ()

end AtomArray
