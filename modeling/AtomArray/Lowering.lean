import AtomArray.Rewriting
import AtomArray.Device.Error

/-! Rewriting a gate operation until only native operations are left. -/

namespace AtomArray.Lowering

/-- The native operations that a strategy makes of an operation, in order, within a number of
rewriting steps one below the other. The first operation that has no rule, or is not native when
the steps are used up, is reported. -/
def expand (step : GateOperation → Option (List GateOperation)) :
    Nat → GateOperation → Except DeviceError (List GateOperation)
  | 0, op => if op.gate.isNative then .ok [op] else .error (.notLowered op .depthLimit)
  | n + 1, op =>
    if op.gate.isNative then .ok [op]
    else match step op with
      | none => .error (.notLowered op .noRule)
      | some ops => do return (← ops.mapM (expand step n)).flatten

end AtomArray.Lowering
