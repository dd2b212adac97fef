import AtomArray.Proofs.Rewriting.Rule
import Mathlib.Tactic.Tauto

/-! What the rules of the standard strategy keep: they go down in a height of at most three, touch
the same qubits, and stay within a bound on the number of native operations. -/

namespace AtomArray
namespace Gate

/-- A custom gate is the only one without a rule. -/
def IsCustom (g : Gate) : Prop := ∃ name arity, g = .custom name arity

/-- The longest chain of rewriting steps from a gate, if it is not native. -/
def rank : Gate → Nat
  | .power .cnot _ | .power .ccx _ => 2
  | .power .swap _ => 3
  | _ => 1

def height (g : Gate) : Nat := if g.isNative then 0 else g.rank

/-- A bound on the number of native operations that a gate is lowered to, if it is not native. -/
def cost : Gate → Nat
  | .power .cz _ => 5
  | .power .cnot _ => 9
  | .power .swap _ => 11
  | .power .ccz _ => 15
  | .power .ccx _ => 19
  | _ => 3

def spread (g : Gate) : Nat := if g.isNative then 1 else g.cost

/-- Every other gate acts on some qubit. -/
theorem arity_pos {g : Gate} (h : ¬ g.IsCustom) : 0 < g.arity := by
  cases g with
  | custom name arity => exact absurd ⟨name, arity, rfl⟩ h
  | power family e => cases family <;> simp [arity, Family.arity]
  | _ => simp [arity]

theorem not_custom_of_native {g : Gate} (h : g.isNative = true) : ¬ g.IsCustom := by
  rintro ⟨name, arity, rfl⟩
  cases h

theorem isNative_cnot (t : Float) : (Gate.power .cnot t).isNative = isWholeExponent t := by
  cases h : isWholeExponent t <;> simp [isNative, nativeKind?, h]

theorem isNative_ccz (t : Float) : (Gate.power .ccz t).isNative = isWholeExponent t := by
  cases h : isWholeExponent t <;> simp [isNative, nativeKind?, h]

theorem isNative_ccx (t : Float) : (Gate.power .ccx t).isNative = isWholeExponent t := by
  cases h : isWholeExponent t <;> simp [isNative, nativeKind?, h]

theorem isWholeExponent_one : isWholeExponent 1 = true := by decide +kernel

theorem isNative_one_cnot : (Gate.one .cnot).isNative = true :=
  (isNative_cnot 1).trans isWholeExponent_one

theorem isNative_one_ccx : (Gate.one .ccx).isNative = true :=
  (isNative_ccx 1).trans isWholeExponent_one

theorem height_of_native {g : Gate} (h : g.isNative = true) : g.height = 0 := if_pos h

theorem height_of_not_native {g : Gate} (h : g.isNative = false) : g.height = g.rank :=
  if_neg (by simp [h])

theorem spread_of_native {g : Gate} (h : g.isNative = true) : g.spread = 1 := if_pos h

theorem spread_of_not_native {g : Gate} (h : g.isNative = false) : g.spread = g.cost :=
  if_neg (by simp [h])

theorem rank_pos (g : Gate) : 0 < g.rank := by
  unfold rank
  split <;> simp

theorem rank_le (g : Gate) : g.rank ≤ 3 := by
  unfold rank
  split <;> simp

theorem cost_pos (g : Gate) : 0 < g.cost := by
  unfold cost
  split <;> simp

theorem cost_le (g : Gate) : g.cost ≤ 19 := by
  unfold cost
  split <;> simp

theorem height_le_rank (g : Gate) : g.height ≤ g.rank := by
  cases h : g.isNative with
  | true =>
      rw [height_of_native h]
      exact Nat.zero_le _
  | false => exact Nat.le_of_eq (height_of_not_native h)

theorem spread_le_cost (g : Gate) : g.spread ≤ g.cost := by
  cases h : g.isNative with
  | true =>
      rw [spread_of_native h]
      exact g.cost_pos
  | false => exact Nat.le_of_eq (spread_of_not_native h)

theorem height_le (g : Gate) : g.height ≤ 3 := g.height_le_rank.trans g.rank_le

theorem spread_le (g : Gate) : g.spread ≤ 19 := g.spread_le_cost.trans g.cost_le

theorem height_eq_zero_iff {g : Gate} : g.height = 0 ↔ g.isNative = true := by
  refine ⟨fun h => ?_, height_of_native⟩
  cases hg : g.isNative with
  | true => rfl
  | false =>
      rw [height_of_not_native hg] at h
      exact absurd h (Nat.ne_of_gt g.rank_pos)

end Gate

theorem GateOperation.exists_qubit (op : GateOperation) (h : ¬ op.gate.IsCustom) :
    ∃ q, q ∈ op.qubits := by
  refine List.exists_mem_of_length_pos ?_
  rw [op.arity]
  exact Gate.arity_pos h

namespace Rewriting

@[simp] theorem height_z (e : Float) (q : Qubit) : (z e q).gate.height = 0 :=
  Gate.height_of_native rfl

@[simp] theorem height_y (e : Float) (q : Qubit) : (y e q).gate.height = 0 :=
  Gate.height_of_native rfl

@[simp] theorem height_idle (q : Qubit) : (idle q).gate.height = 0 := Gate.height_of_native rfl

@[simp] theorem height_cnot (a b : Qubit) : (cnot a b).gate.height = 0 :=
  Gate.height_of_native Gate.isNative_one_cnot

@[simp] theorem spread_z (e : Float) (q : Qubit) : (z e q).gate.spread = 1 :=
  Gate.spread_of_native rfl

@[simp] theorem spread_y (e : Float) (q : Qubit) : (y e q).gate.spread = 1 :=
  Gate.spread_of_native rfl

@[simp] theorem spread_idle (q : Qubit) : (idle q).gate.spread = 1 := Gate.spread_of_native rfl

@[simp] theorem spread_cnot (a b : Qubit) : (cnot a b).gate.spread = 1 :=
  Gate.spread_of_native Gate.isNative_one_cnot

variable {gate : Gate} {qs : List Qubit} {drafts : List Draft} {op : GateOperation}

theorem height_conjugate_lt {q : Qubit} {middle : Draft} {n : Nat} (h : middle.gate.height ≤ n) :
    ∀ draft ∈ conjugate q middle, draft.gate.height < n + 1 := by
  have hmiddle : middle.gate.height < n + 1 := Nat.lt_succ_of_le h
  have hpos : 0 < n + 1 := Nat.succ_pos n
  generalize n + 1 = limit at hmiddle hpos ⊢
  simp [conjugate, hadamard, hmiddle, hpos]

theorem Rule.height_lt (h : Rule gate qs drafts) (hg : gate.isNative = false) :
    ∀ draft ∈ drafts, draft.gate.height < gate.height := by
  rw [Gate.height_of_not_native hg]
  cases h with
  | h t q =>
      unfold hadamardPower hadamard
      split_ifs <;> simp [Gate.rank]
  | cz t a b => simp [czPower, Gate.rank]
  | cnot t a b =>
      exact height_conjugate_lt (Gate.height_le_rank (.power .cz t))
  | swap t a b =>
      have hcnot : (Gate.power .cnot t).height < 3 :=
        Nat.lt_succ_of_le (Gate.height_le_rank (.power .cnot t))
      unfold swapPower
      split_ifs <;> simp [Gate.rank, hcnot]
  | ccz t a b c => simp [cczPower, Gate.rank]
  | ccx t a b c =>
      exact height_conjugate_lt (Gate.height_le_rank (.power .ccz t))
  | cswap a b c =>
      simp [controlledSwap, Gate.height_of_native Gate.isNative_one_ccx, Gate.rank]

theorem spread_conjugate {q : Qubit} {middle : Draft} :
    ((conjugate q middle).map (·.gate.spread)).sum = 4 + middle.gate.spread := by
  simp [conjugate, hadamard]
  omega

theorem Rule.spread_le (h : Rule gate qs drafts) (hg : gate.isNative = false) :
    (drafts.map (·.gate.spread)).sum ≤ gate.spread := by
  rw [Gate.spread_of_not_native hg]
  cases h with
  | h t q =>
      unfold hadamardPower hadamard
      split_ifs <;> simp [Gate.cost]
  | cz t a b => simp [czPower, Gate.cost]
  | cnot t a b =>
      rw [spread_conjugate]
      exact Nat.add_le_add_left (Gate.spread_le_cost (.power .cz t)) 4
  | swap t a b =>
      have hcnot : (Gate.power .cnot t).spread ≤ 9 := Gate.spread_le_cost (.power .cnot t)
      unfold swapPower
      split_ifs <;> simp [Gate.cost]
      omega
  | ccz t a b c => simp [cczPower, Gate.cost]
  | ccx t a b c =>
      rw [spread_conjugate]
      exact Nat.add_le_add_left (Gate.spread_le_cost (.power .ccz t)) 4
  | cswap a b c =>
      simp [controlledSwap, Gate.spread_of_native Gate.isNative_one_ccx, Gate.cost]

/-- A rule touches the qubits of its gate and no others. -/
theorem Rule.mem_qubits (h : Rule gate qs drafts) (q : Qubit) :
    (∃ draft ∈ drafts, q ∈ draft.qubits) ↔ q ∈ qs := by
  cases h with
  | h t a =>
      unfold hadamardPower hadamard
      split_ifs <;> simp [z, y, idle]
  | cz t a b =>
      simp [czPower, z, Rewriting.cnot]
      tauto
  | cnot t a b =>
      simp [conjugate, hadamard, z, y]
      tauto
  | swap t a b =>
      unfold swapPower
      split_ifs
      · simp [idle]
      · simp [Rewriting.cnot]
        tauto
  | ccz t a b c =>
      simp [cczPower, z, Rewriting.cnot]
      tauto
  | ccx t a b c =>
      simp [conjugate, hadamard, z, y]
      tauto
  | cswap a b c =>
      simp [controlledSwap, Rewriting.cnot]
      tauto

/-- A gate that is not native has a rule unless it is a custom gate. -/
theorem exists_rule (op : GateOperation) (hop : op.gate.isNative = false)
    (hcustom : ¬ op.gate.IsCustom) : ∃ drafts, Rule op.gate op.qubits drafts := by
  obtain ⟨gate, qs, arity, distinct⟩ := op
  cases gate with
  | identity => cases hop
  | measure key => cases hop
  | phasedX phase e => cases hop
  | custom name arity => exact absurd ⟨name, _, rfl⟩ hcustom
  | cswap =>
      obtain ⟨a, b, c, rfl⟩ := List.length_eq_three.1 arity
      exact ⟨_, .cswap a b c⟩
  | power family t =>
      cases family with
      | x => cases hop
      | y => cases hop
      | z => cases hop
      | h =>
          obtain ⟨q, rfl⟩ := List.length_eq_one_iff.1 arity
          exact ⟨_, .h t q⟩
      | cz =>
          obtain ⟨a, b, rfl⟩ := List.length_eq_two.1 arity
          exact ⟨_, .cz t a b⟩
      | cnot =>
          obtain ⟨a, b, rfl⟩ := List.length_eq_two.1 arity
          exact ⟨_, .cnot t a b⟩
      | swap =>
          obtain ⟨a, b, rfl⟩ := List.length_eq_two.1 arity
          exact ⟨_, .swap t a b⟩
      | ccz =>
          obtain ⟨a, b, c, rfl⟩ := List.length_eq_three.1 arity
          exact ⟨_, .ccz t a b c⟩
      | ccx =>
          obtain ⟨a, b, c, rfl⟩ := List.length_eq_three.1 arity
          exact ⟨_, .ccx t a b c⟩

theorem Rule.not_custom (h : Rule gate qs drafts) : ∀ draft ∈ drafts, ¬ draft.gate.IsCustom := by
  cases h with
  | h t q =>
      unfold hadamardPower hadamard
      split_ifs <;> simp [z, y, idle, Gate.IsCustom]
  | cz t a b => simp [czPower, z, Rewriting.cnot, Gate.one, Gate.IsCustom]
  | cnot t a b => simp [conjugate, hadamard, z, y, Gate.IsCustom]
  | swap t a b =>
      unfold swapPower
      split_ifs <;> simp [idle, Rewriting.cnot, Gate.one, Gate.IsCustom]
  | ccz t a b c => simp [cczPower, z, Rewriting.cnot, Gate.one, Gate.IsCustom]
  | ccx t a b c => simp [conjugate, hadamard, z, y, Gate.IsCustom]
  | cswap a b c => simp [controlledSwap, Rewriting.cnot, Gate.one, Gate.IsCustom]

end Rewriting
end AtomArray
