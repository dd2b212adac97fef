import AtomArray.Gate.Data
import AtomArray.Json.Reader
import AtomArray.Operation
import AtomArray.Qubit.Data

/-! Operations as data. They are built anew when they are read, so no ill-formed one comes in. -/

namespace AtomArray

/-- Why a text cannot be read: it is malformed, or it names a value that is refused. -/
inductive ReadError (ε : Type)
  | malformed
  | refused (error : ε)

/-- A value, or malformed text where there is none. -/
def ReadError.ofOption {ε α : Type} : Option α → Except (ReadError ε) α
  | some a => .ok a
  | none => .error .malformed

theorem ReadError.ofOption_eq_ok_iff {ε α : Type} {o : Option α} {a : α} :
    (ofOption o : Except (ReadError ε) α) = .ok a ↔ o = some a := by
  cases o with
  | none => exact iff_of_false (nomatch ·) (nomatch ·)
  | some b => rw [ofOption, Except.ok.injEq, Option.some.injEq]

namespace Operation

def targetsData (gate : Gate) (qubits : List Qubit) : List (Data.Key × Data) :=
  [("gate", gate.toData), ("qubits", .list (qubits.map Qubit.toData))]

def toData : Operation → Data
  | .gate op => .record (("type", .text "gate") :: targetsData op.gate op.qubits)
  | .parallel op => .record (("type", .text "parallel") :: targetsData op.gate op.qubits)
  | .block name qubits =>
    .record [("type", .text "opaque"), ("name", .text name),
      ("qubits", .list (qubits.map Qubit.toData))]

def qubitsOf? (value : Data) : Option (List Qubit) := do (← value.list?).mapM Qubit.ofData?

def targetsOf? (value : Data) : Option (Gate × List Qubit) :=
  match value.fields? ["gate", "qubits"] with
  | some [some g, some targets] => do return (← Gate.ofPart? g, ← qubitsOf? targets)
  | _ => none

def blockOf? (value : Data) : Option Operation :=
  match value.fields? ["name", "qubits"] with
  | some [some label, some targets] => do return .block (← label.text?) (← qubitsOf? targets)
  | _ => none

def refuse {α : Type} : Except OperationError α → Except (ReadError OperationError) α
  | .ok a => .ok a
  | .error e => .error (.refused e)

theorem refuse_eq_ok_iff {α : Type} {r : Except OperationError α} {a : α} :
    refuse r = .ok a ↔ r = .ok a := by
  cases r with
  | error e => exact iff_of_false (nomatch ·) (nomatch ·)
  | ok b => rw [refuse, Except.ok.injEq, Except.ok.injEq]

theorem refuse_eq_refused_iff {α : Type} {r : Except OperationError α} {e : OperationError} :
    refuse r = .error (.refused e) ↔ r = .error e := by
  cases r with
  | error e => rw [refuse, Except.error.injEq, Except.error.injEq, ReadError.refused.injEq]
  | ok a => exact iff_of_false (nomatch ·) (nomatch ·)

def ofData? (value : Data) : Except (ReadError OperationError) Operation := do
  match ← ReadError.ofOption (value.tagged? [] "type") with
  | ("gate", rest) =>
    let (g, targets) ← ReadError.ofOption (targetsOf? rest)
    return .gate (← refuse (GateOperation.on? g targets))
  | ("parallel", rest) =>
    let (g, targets) ← ReadError.ofOption (targetsOf? rest)
    return .parallel (← refuse (ParallelOperation.onEach? g targets))
  | ("opaque", rest) => ReadError.ofOption (blockOf? rest)
  | _ => throw .malformed

/-- A value that is read as a whole before it is judged. -/
def ofWhole? (depth : Nat) (value : Data) : Except (ReadError OperationError) Operation :=
  if value.fits depth then ofData? value else .error .malformed

/-- An operation alone in a text. It is judged before what follows it. -/
def ofText? (text : String) : Except (ReadError OperationError) Operation := do
  let (value, rest) ← ReadError.ofOption (Json.readFront? text.toList)
  let op ← ofWhole? Json.maxDepth value
  if (Json.skipBlanks rest).isEmpty then return op else throw .malformed

/-- Reads the operations of a list up to its closing bracket. Each is judged before the next is
read. -/
def readList : Nat → List Char → Except (ReadError OperationError) (List Operation × List Char)
  | 0, _ => throw .malformed
  | n + 1, cs => do
    let (value, rest) ← ReadError.ofOption (Json.readFront? cs)
    let op ← ofWhole? (Json.maxDepth - 1) value
    match Json.skipBlanks rest with
    | ',' :: rest =>
      let (ops, rest) ← readList n rest
      return (op :: ops, rest)
    | ']' :: rest => return ([op], rest)
    | _ => throw .malformed

def listOfText? (text : String) : Except (ReadError OperationError) (List Operation) := do
  match Json.skipBlanks text.toList with
  | '[' :: rest =>
    let (ops, rest) ← match Json.skipBlanks rest with
      | ']' :: rest => pure ([], rest)
      | _ => readList rest.length rest
    if (Json.skipBlanks rest).isEmpty then return ops else throw .malformed
  | _ => throw .malformed

end Operation
end AtomArray
