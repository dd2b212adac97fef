import AtomArray.Gate
import AtomArray.Qubit

/-! Operations: gates bound to the qubits they act on. -/

namespace AtomArray

inductive OperationError
  | arityMismatch (gate : String) (expected got : Nat)
  | repeatedQubit (qubit : Qubit) (gate : String)
  | notSingleQubit (gate : String)
  | noTargets (gate : String)

def OperationError.message : OperationError → String
  | .arityMismatch gate expected got =>
    "Gate '" ++ gate ++ "' requires " ++ toString expected ++ " qubits, got " ++ toString got
  | .repeatedQubit q gate =>
    "Duplicate qubit " ++ q.render ++ " in operation (gate: " ++ gate ++ ")"
  | .notSingleQubit gate =>
    "Gate '" ++ gate ++ "' is not a single-qubit gate and cannot be applied in parallel"
  | .noTargets gate => "Operation '" ++ gate ++ "' has no target qubits"

/-- A gate on as many distinct qubits as it acts on. -/
structure GateOperation where
  gate : Gate
  qubits : List Qubit
  arity : qubits.length = gate.arity
  distinct : Qubit.Distinct qubits

/-- A single-qubit gate on several distinct qubits at once. -/
structure ParallelOperation where
  gate : Gate
  qubits : List Qubit
  single : gate.arity = 1
  nonempty : qubits ≠ []
  distinct : Qubit.Distinct qubits

/-- A block is a part of a circuit of which only the name and the qubits are known. -/
inductive Operation
  | gate (op : GateOperation)
  | parallel (op : ParallelOperation)
  | block (name : String) (qubits : List Qubit)

/-- Refuses the first qubit that repeats an earlier one. -/
def Qubit.distinct? (gate : Gate) (qs : List Qubit) :
    Except OperationError (PLift (Qubit.Distinct qs)) :=
  match h : Qubit.firstRepeat? qs with
  | some q => .error (.repeatedQubit q gate.name)
  | none => .ok ⟨Qubit.firstRepeat?_eq_none.1 h⟩

theorem Qubit.distinct?_eq_ok {qs : List Qubit} (gate : Gate) (h : Qubit.Distinct qs) :
    Qubit.distinct? gate qs = .ok ⟨h⟩ := by
  fun_cases distinct? gate qs with
  | case1 q hq => cases (Qubit.firstRepeat?_eq_none.2 h).symm.trans hq
  | case2 => rfl

namespace GateOperation

/-- Binds a gate to its qubits; a wrong number of them is reported before a repeated one, as the
largest 32-bit number if it is beyond. -/
def on? (gate : Gate) (qs : List Qubit) : Except OperationError GateOperation :=
  if arity : qs.length = gate.arity then
    match Qubit.distinct? gate qs with
    | .ok distinct => .ok ⟨gate, qs, arity, distinct.down⟩
    | .error e => .error e
  else .error (.arityMismatch gate.name gate.arity (min qs.length (UInt32.size - 1)))

theorem on?_eq_ok {gate : Gate} {qs : List Qubit} (arity : qs.length = gate.arity)
    (distinct : Qubit.Distinct qs) : on? gate qs = .ok ⟨gate, qs, arity, distinct⟩ := by
  rw [on?, dif_pos arity, Qubit.distinct?_eq_ok gate distinct]

def single (gate : Gate) (a : Qubit) (arity : gate.arity = 1 := by rfl) : GateOperation :=
  ⟨gate, [a], arity.symm, Qubit.distinct_one a⟩

def measure (q : Qubit) : GateOperation := single (.measure none) q

end GateOperation

namespace ParallelOperation

/-- Applies a gate to every qubit at once; the gate is judged before the qubits. -/
def onEach? (gate : Gate) (qs : List Qubit) : Except OperationError ParallelOperation :=
  if single : gate.arity = 1 then
    if nonempty : qs = [] then .error (.noTargets gate.name)
    else match Qubit.distinct? gate qs with
      | .ok distinct => .ok ⟨gate, qs, single, nonempty, distinct.down⟩
      | .error e => .error e
  else .error (.notSingleQubit gate.name)

theorem onEach?_eq_ok {gate : Gate} {qs : List Qubit} (single : gate.arity = 1)
    (nonempty : qs ≠ []) (distinct : Qubit.Distinct qs) :
    onEach? gate qs = .ok ⟨gate, qs, single, nonempty, distinct⟩ := by
  rw [onEach?, dif_pos single, dif_neg nonempty, Qubit.distinct?_eq_ok gate distinct]

end ParallelOperation

namespace Operation

def qubits : Operation → List Qubit
  | .gate op => op.qubits
  | .parallel op => op.qubits
  | .block _ qs => qs

def gate? : Operation → Option Gate
  | .gate op => some op.gate
  | .parallel op => some op.gate
  | .block _ _ => none

def gateOperation? : Operation → Option GateOperation
  | .gate op => some op
  | _ => none

def isGate (op : Operation) : Bool := op.gateOperation?.isSome

def isParallel : Operation → Bool
  | .parallel _ => true
  | _ => false

def name : Operation → String
  | .gate op => op.gate.name
  | .parallel op => op.gate.name
  | .block name _ => name

/-- The gate or block name, and the qubits in parentheses. -/
def render (op : Operation) : String :=
  let label := match op with
    | .gate op => op.gate.render
    | .parallel op => "parallel[" ++ op.gate.render ++ "]"
    | .block name _ => name
  label ++ "(" ++ Qubit.renderList op.qubits ++ ")"

end Operation

def GateOperation.render (op : GateOperation) : String := (Operation.gate op).render

end AtomArray
