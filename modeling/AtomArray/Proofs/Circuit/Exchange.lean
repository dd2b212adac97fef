import AtomArray.Proofs.Circuit.Bits
import AtomArray.Proofs.Rewriting.Standard

/-! Lowering an exchange of two qubits, outright or under a control. -/

namespace AtomArray

open Binary64 Rewriting

variable {W : Type} [DecidableEq W] {wire : Qubit.Identity → W} {op : GateOperation} {d : Device}
  {drafts : List Draft} {s s' : W → Bool} {a b c : Qubit} {t : Float} {n : ℤ}

theorem Gate.Permutes.isNative {g : Gate} (h : g.Permutes) : g.isNative = true := by
  cases h with
  | identity => rfl
  | @cnot t n h =>
      obtain ⟨hfinite, hvalue⟩ := integer?_eq_some_iff.1 h
      rw [isNative_cnot, isWholeExponent_of_integer hfinite hvalue]
  | @ccx t n h =>
      obtain ⟨hfinite, hvalue⟩ := integer?_eq_some_iff.1 h
      rw [isNative_ccx, isWholeExponent_of_integer hfinite hvalue]

/-- Lowering leaves gates that only move basis states about, and together they take the bits `s` to
`s'`. -/
def Device.Moves (d : Device) (op : GateOperation) (wire : Qubit.Identity → W) (s s' : W → Bool) :
    Prop :=
  ∃ ls : List GateOperation, d.lower (.gate op) = .ok (ls.map .gate) ∧ (∀ l ∈ ls, l.gate.Permutes) ∧
    Circuit.run? Gate.permute? wire (ls.map GateOperation.draft) s = some s'

/-- A rule that leaves such gates is the whole lowering. -/
theorem Device.moves_of_rule (hd : d.strategy = .standard) (hop : op.gate.isNative = false)
    (hrule : Rule op.gate op.qubits drafts) (hdrafts : ∀ draft ∈ drafts, draft.gate.Permutes)
    (hrun : Circuit.run? Gate.permute? wire drafts s = some s') : d.Moves op wire s s' := by
  obtain ⟨ls, -, hstep, rfl⟩ := step_of_rule hrule
  have hls : ∀ l ∈ ls, l.gate.Permutes := by
    intro l hl
    exact hdrafts l.draft (List.mem_map_of_mem hl)
  obtain ⟨depth, hdepth⟩ : ∃ depth, maxLoweringDepth = depth + 1 := ⟨_, rfl⟩
  refine ⟨ls, ?_, hls, hrun⟩
  rw [lower_eq_expand hd, hdepth,
    Lowering.expand_of_native_step hop hstep fun l hl => (hls l hl).isNative]
  rfl

theorem Gate.permutes_one_cnot : (Gate.one .cnot).Permutes := .cnot integer?_one

theorem Gate.permutes_one_ccx : (Gate.one .ccx).Permutes := .ccx integer?_one

theorem run?_swapPower (hwire : Separates wire [a, b]) (ht : integer? t = some n) :
    (∀ draft ∈ swapPower t a b, draft.gate.Permutes) ∧
      Circuit.run? Gate.permute? wire (swapPower t a b) s =
        some (if Odd n then s ∘ Equiv.swap (wire a.identity) (wire b.identity) else s) := by
  obtain ⟨hfinite, hvalue⟩ := integer?_eq_some_iff.1 ht
  have heven := isWholeExponent_half_iff hfinite hvalue
  unfold swapPower
  split_ifs with h hodd hodd
  · exact absurd (heven.1 h) (Int.not_even_iff_odd.2 hodd)
  · refine ⟨by simp [idle, Gate.Permutes.identity], ?_⟩
    rw [Circuit.run?_cons Gate.permute?_identity, Circuit.run?_cons Gate.permute?_identity,
      Circuit.run?_nil]
  · refine ⟨by simp [cnot, Gate.permutes_one_cnot, Gate.Permutes.cnot ht], ?_⟩
    rw [Circuit.run?_cons (Gate.permute?_cnot integer?_one odd_one),
      Circuit.run?_cons (Gate.permute?_cnot ht hodd),
      Circuit.run?_cons (Gate.permute?_cnot integer?_one odd_one), Circuit.run?_nil,
      Bits.flip_flip_flip s (separates_two.1 hwire)]
  · exact absurd (heven.2 (Int.not_odd_iff_even.1 hodd)) h

theorem run?_controlledSwap (hwire : Separates wire [a, b, c]) :
    Circuit.run? Gate.permute? wire (controlledSwap a b c) s =
        some (if s (wire a.identity) then s ∘ Equiv.swap (wire b.identity) (wire c.identity)
          else s) := by
  obtain ⟨hab, -, hbc⟩ := separates_three.1 hwire
  unfold controlledSwap
  rw [Circuit.run?_cons (Gate.permute?_cnot integer?_one odd_one),
    Circuit.run?_cons (Gate.permute?_ccx integer?_one odd_one),
    Circuit.run?_cons (Gate.permute?_cnot integer?_one odd_one), Circuit.run?_nil,
    Bits.flip_flip_flip_controlled s hab hbc]

/-- A whole power of an exchange trades the bits of its two qubits just when it is odd, and an
exchange under a control just when the control is set. -/
theorem Device.lower_exchange (hd : d.strategy = .standard) (hwire : Separates wire op.qubits)
    (s : W → Bool) :
    (∀ t n a b, op.gate = .power .swap t → integer? t = some n → op.qubits = [a, b] →
      d.Moves op wire s
        (if Odd n then s ∘ Equiv.swap (wire a.identity) (wire b.identity) else s)) ∧
    (∀ a b c, op.gate = .cswap → op.qubits = [a, b, c] →
      d.Moves op wire s
        (if s (wire a.identity) then s ∘ Equiv.swap (wire b.identity) (wire c.identity)
          else s)) := by
  constructor
  · intro t n a b hgate ht hqubits
    rw [hqubits] at hwire
    obtain ⟨hdrafts, hrun⟩ := run?_swapPower (s := s) hwire ht
    have hrule : Rule op.gate op.qubits (swapPower t a b) := by
      rw [hgate, hqubits]
      exact .swap t a b
    exact moves_of_rule hd (by rw [hgate]; rfl) hrule hdrafts hrun
  · intro a b c hgate hqubits
    rw [hqubits] at hwire
    have hrule : Rule op.gate op.qubits (controlledSwap a b c) := by
      rw [hgate, hqubits]
      exact .cswap a b c
    refine moves_of_rule hd (by rw [hgate]; rfl) hrule ?_ (run?_controlledSwap hwire)
    simp [controlledSwap, cnot, Gate.permutes_one_cnot, Gate.permutes_one_ccx]

/-- Only the qubits before the last one of the line are set. -/
def upOnLine (i : Qubit.Identity) : Bool := i != (Qubit.site (.onRow 2)).identity

theorem Device.lower_exchange_onLine : line.strategy = .standard ∧
    Separates id (onPair (.power .swap 3)).qubits ∧ Separates id (onLine .cswap).qubits ∧
    line.Moves (onPair (.power .swap 3)) id upOnLine (if Odd (3 : ℤ) then upOnLine ∘ Equiv.swap
      (Qubit.site (.onRow 0)).identity (Qubit.site (.onRow 1)).identity else upOnLine) ∧
    line.Moves (onLine .cswap) id upOnLine (if upOnLine (Qubit.site (.onRow 0)).identity then
      upOnLine ∘ Equiv.swap (Qubit.site (.onRow 1)).identity (Qubit.site (.onRow 2)).identity
        else upOnLine) := by
  have hswap : Separates id (onPair (.power .swap 3)).qubits :=
    separates_identity (onPair (.power .swap 3)).distinct
  have hcswap : Separates id (onLine .cswap).qubits := separates_identity (onLine .cswap).distinct
  refine ⟨rfl, hswap, hcswap, ?_, ?_⟩
  · exact (lower_exchange (d := line) rfl hswap upOnLine).1 3 3 _ _ rfl integer?_three rfl
  · exact (lower_exchange (d := line) rfl hcswap upOnLine).2 _ _ _ rfl rfl

end AtomArray
