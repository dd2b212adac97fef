import AtomArray.Native

/-! Strategies that rewrite a gate as a sequence of simpler ones, and the standard strategy. -/

namespace AtomArray

/-- One rewriting step, or none where the strategy has no answer. The answer need not be native:
it is rewritten again until it is. -/
structure Strategy where
  name : String
  step : GateOperation → Option (List GateOperation)

namespace Rewriting

/-- A gate and the qubits it is meant for, before they are checked. -/
structure Draft where
  gate : Gate
  qubits : List Qubit

def z (e : Float) (q : Qubit) : Draft := ⟨.power .z e, [q]⟩

def y (e : Float) (q : Qubit) : Draft := ⟨.power .y e, [q]⟩

def idle (q : Qubit) : Draft := ⟨.identity, [q]⟩

def cnot (a b : Qubit) : Draft := ⟨.one .cnot, [a, b]⟩

/-- A Hadamard gate is half a turn about Z and then a quarter turn about Y. -/
def hadamard (q : Qubit) : List Draft := [z 1 q, y 0.5 q]

def conjugate (q : Qubit) (middle : Draft) : List Draft := hadamard q ++ middle :: hadamard q

/-- A power of the Hadamard gate turns about an axis half way between X and Z. -/
def hadamardPower (t : Float) (q : Qubit) : List Draft :=
  if isWholeExponent t then
    if isWholeExponent (t / 2) then [idle q] else hadamard q
  else [y (-0.25) q, z t q, y 0.25 q]

/-- With bits `a` and `b` the phase is `t/2 * (a + b - a xor b) = t * a * b`. -/
def czPower (t : Float) (a b : Qubit) : List Draft :=
  [z (t / 2) a, z (t / 2) b, cnot a b, z (-(t / 2)) b, cnot a b]

/-- An even power does nothing. -/
def swapPower (t : Float) (a b : Qubit) : List Draft :=
  if isWholeExponent (t / 2) then [idle a, idle b]
  else [cnot a b, ⟨.power .cnot t, [b, a]⟩, cnot a b]

/-- Four sweeps of controlled gates along the line `a`, `b`, `c`. The rotations in between see every
parity of the three bits, and their phases add up to `t * a * b * c`; `a` and `c` never interact. -/
def cczPower (t : Float) (a b c : Qubit) : List Draft :=
  let p := t / 4
  let sweep := [cnot a b, cnot b c]
  [z p a, z p b, z p c] ++ sweep ++ [z (-p) b, z p c] ++ sweep ++ [z (-p) c] ++ sweep ++
    [z (-p) c] ++ sweep

/-- Exchanges `b` and `c` when `a` is set. -/
def controlledSwap (a b c : Qubit) : List Draft :=
  [cnot c b, ⟨.one .ccx, [a, b, c]⟩, cnot c b]

/-- The standard rewriting into rotations and whole powers of controlled gates. The powers of `cnot`
and `ccx` are those of `cz` and `ccz` between Hadamard gates on the target. -/
def draft? : Gate → List Qubit → Option (List Draft)
  | .power .h t, [q] => some (hadamardPower t q)
  | .power .cz t, [a, b] => some (czPower t a b)
  | .power .cnot t, [a, b] => some (conjugate b ⟨.power .cz t, [a, b]⟩)
  | .power .swap t, [a, b] => some (swapPower t a b)
  | .power .ccz t, [a, b, c] => some (cczPower t a b c)
  | .power .ccx t, [a, b, c] => some (conjugate c ⟨.power .ccz t, [a, b, c]⟩)
  | .cswap, [a, b, c] => some (controlledSwap a b c)
  | _, _ => none

def Draft.build? (draft : Draft) : Except OperationError GateOperation :=
  GateOperation.on? draft.gate draft.qubits

/-- The operations that a gate on some qubits is rewritten as, if there is a rule for it; the first
one that cannot be built is reported. -/
def rewrite? (gate : Gate) (qs : List Qubit) :
    Except OperationError (Option (List GateOperation)) :=
  match draft? gate qs with
  | none => .ok none
  | some drafts => (drafts.mapM Draft.build?).map some

/-- A rewriting that cannot be built counts as no answer. -/
def step (op : GateOperation) : Option (List GateOperation) :=
  (rewrite? op.gate op.qubits).toOption.join

end Rewriting

def Strategy.standard : Strategy := ⟨"NativeDecomposer", Rewriting.step⟩

end AtomArray
