import AtomArray.Config.Fault
import AtomArray.Operation

/-! Why a device cannot be built, or refuses a request. -/

namespace AtomArray

/-- The depth of rewriting steps at which lowering gives up. -/
def maxLoweringDepth : Nat := 16

inductive LoweringFailure
  | noRule
  | depthLimit
  deriving DecidableEq

inductive DeviceError
  | unsupportedQubitType (qubit : Qubit)
  | notAGate (op : Operation)
  | invalidRadius (radius : Float)
  | unsupportedDuration (op : Operation)
  | unsupportedQubit (qubit : Qubit)
  | unsupportedOperation (op : Operation)
  | notOnDevice (qubit : Qubit)
  | tooFarApart (a b : Qubit) (distance radius : Float)
  | tooManyZ (count sites : Nat)
  | badXyCount (count sites : Nat)
  | notLowered (op : GateOperation) (failure : LoweringFailure)
  | operation (error : OperationError)
  | config (fault : ConfigFault)

/-- A request has the wrong sort of operand, or the right sort with a value that breaks a rule. -/
inductive ErrorClass
  | typeMismatch
  | value
  deriving DecidableEq

namespace DeviceError

def errorClass : DeviceError → ErrorClass
  | .unsupportedQubitType _ | .notAGate _ => .typeMismatch
  | _ => .value

def message : DeviceError → String
  | .unsupportedQubitType q => "Unsupported qubit type: " ++ q.sort ++ " " ++ q.render
  | .notAGate op => op.render ++ " is not a gate operation"
  | .invalidRadius r => "Control radius must be positive, got " ++ Decimal.Style.plain.render r
  | .unsupportedDuration op => "Unsupported gate for duration lookup: " ++ op.render
  | .unsupportedQubit q => "Unsupported qubit for distance: " ++ q.render
  | .unsupportedOperation op => "Unsupported operation: " ++ op.render
  | .notOnDevice q => "Qubit not on device: " ++ q.render
  | .tooFarApart a b distance radius =>
    "Qubits " ++ a.render ++ ", " ++ b.render ++ " are too far away (distance " ++
      Decimal.Style.plain.render distance ++ " > control radius " ++
      Decimal.Style.plain.render radius ++ ")"
  | .tooManyZ count sites =>
    "Too many Z gates in parallel: " ++ toString count ++ " on a device with " ++
      toString sites ++ " sites"
  | .badXyCount count sites =>
    "Bad number of X/Y gates in parallel: " ++ toString count ++ " on a device with " ++
      toString sites ++ " sites"
  | .notLowered op failure =>
    let limit := match failure with
      | .noRule => ""
      | .depthLimit => " (depth limit " ++ toString maxLoweringDepth ++ " reached)"
    "Cannot decompose " ++ op.render ++ limit ++ " into device-native operations"
  | .operation e => "IR error: " ++ e.message
  | .config fault => "Configuration error: " ++ fault.message

end DeviceError
end AtomArray
