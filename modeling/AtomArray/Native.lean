import AtomArray.Operation

/-! The operations that the hardware executes directly. -/

namespace AtomArray

/-- What a native operation does; the last three act on many sites at once. -/
inductive NativeKind
  | identity
  | measurement
  | xyRotation
  | zRotation
  | twoQubitEntangler
  | threeQubitEntangler
  | parallelZ
  | parallelXy
  | parallelPassive
  deriving DecidableEq, Repr

def NativeKind.isParallel : NativeKind → Bool
  | .parallelZ | .parallelXy | .parallelPassive => true
  | _ => false

namespace Gate

/-- Rotations about X, Y and Z and the passive gates are native at any exponent. -/
def singleKind? : Gate → Option NativeKind
  | .identity => some .identity
  | .measure _ => some .measurement
  | .power .x _ | .power .y _ | .phasedX _ _ => some .xyRotation
  | .power .z _ => some .zRotation
  | _ => none

/-- The controlled families are native at whole exponents only. -/
def nativeKind? : Gate → Option NativeKind
  | .power .cz e | .power .cnot e =>
    if isWholeExponent e then some .twoQubitEntangler else none
  | .power .ccz e | .power .ccx e =>
    if isWholeExponent e then some .threeQubitEntangler else none
  | g => g.singleKind?

def isNative (g : Gate) : Bool := g.nativeKind?.isSome

end Gate

/-- The kind that a rotation or passive gate has when it acts on many sites at once. -/
def NativeKind.inParallel : NativeKind → NativeKind
  | .zRotation => .parallelZ
  | .xyRotation => .parallelXy
  | _ => .parallelPassive

namespace Operation

def nativeKind? : Operation → Option NativeKind
  | .gate op => op.gate.nativeKind?
  | .parallel op => op.gate.singleKind?.map NativeKind.inParallel
  | .block _ _ => none

def isNative (op : Operation) : Bool := op.nativeKind?.isSome

end Operation
end AtomArray
