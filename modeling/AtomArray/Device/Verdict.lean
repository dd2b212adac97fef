import AtomArray.Device

/-! Verdicts on the operations of a circuit, one by one. -/

namespace AtomArray

/-- The native operations that come of an operation, and the first error there is. -/
structure Verdict where
  native : List Operation
  error : Option DeviceError

namespace Device

def firstError? (d : Device) (ops : List Operation) : Option DeviceError :=
  ops.findSome? fun op =>
    match d.check op with
    | .ok () => none
    | .error e => some e

/-- The verdict on an operation, which is lowered first if it is a gate and that is wanted. -/
def verdict (d : Device) (lowering : Bool) (op : Operation) : Verdict :=
  match if lowering && op.isGate then d.lower op else .ok [op] with
  | .ok native => ⟨native, d.firstError? native⟩
  | .error e => ⟨[], some e⟩

end Device
end AtomArray
