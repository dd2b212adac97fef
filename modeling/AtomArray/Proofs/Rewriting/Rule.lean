import AtomArray.Rewriting
import AtomArray.Proofs.Traversal
import Mathlib.Data.Fintype.Basic

/-! The rules of the standard strategy, and why every operation of a rule can be built. -/

namespace AtomArray

def GateOperation.draft (op : GateOperation) : Rewriting.Draft := ⟨op.gate, op.qubits⟩

namespace Rewriting

/-- As many qubits as the gate acts on, and no two of them the same. -/
structure Draft.WellFormed (draft : Draft) : Prop where
  arity : draft.qubits.length = draft.gate.arity
  distinct : Qubit.Distinct draft.qubits

theorem Draft.build?_eq_ok {draft : Draft} (h : draft.WellFormed) :
    draft.build? = .ok ⟨draft.gate, draft.qubits, h.arity, h.distinct⟩ :=
  GateOperation.on?_eq_ok h.arity h.distinct

/-- Well-formed drafts are built as they stand. -/
theorem exists_build {drafts : List Draft} (h : ∀ draft ∈ drafts, draft.WellFormed) :
    ∃ ops, drafts.mapM Draft.build? = .ok ops ∧ ops.map GateOperation.draft = drafts := by
  induction drafts with
  | nil => exact ⟨[], rfl, rfl⟩
  | cons draft drafts ih =>
      obtain ⟨hdraft, hdrafts⟩ := List.forall_mem_cons.1 h
      obtain ⟨ops, hops, rfl⟩ := ih hdrafts
      refine ⟨⟨draft.gate, draft.qubits, hdraft.arity, hdraft.distinct⟩ :: ops, ?_, rfl⟩
      rw [Traversal.mapM_cons_ok (Draft.build?_eq_ok hdraft), hops]
      rfl

/-- The rules of the standard strategy: a gate, its qubits and what it is rewritten as. -/
inductive Rule : Gate → List Qubit → List Draft → Prop
  | h (t : Float) (q : Qubit) : Rule (.power .h t) [q] (hadamardPower t q)
  | cz (t : Float) (a b : Qubit) : Rule (.power .cz t) [a, b] (czPower t a b)
  | cnot (t : Float) (a b : Qubit) :
      Rule (.power .cnot t) [a, b] (conjugate b ⟨.power .cz t, [a, b]⟩)
  | swap (t : Float) (a b : Qubit) : Rule (.power .swap t) [a, b] (swapPower t a b)
  | ccz (t : Float) (a b c : Qubit) : Rule (.power .ccz t) [a, b, c] (cczPower t a b c)
  | ccx (t : Float) (a b c : Qubit) :
      Rule (.power .ccx t) [a, b, c] (conjugate c ⟨.power .ccz t, [a, b, c]⟩)
  | cswap (a b c : Qubit) : Rule .cswap [a, b, c] (controlledSwap a b c)

theorem draft?_eq_some_iff {gate : Gate} {qs : List Qubit} {drafts : List Draft} :
    draft? gate qs = some drafts ↔ Rule gate qs drafts := by
  constructor
  · intro h
    unfold draft? at h
    split at h <;> cases h
    · exact .h _ _
    · exact .cz _ _ _
    · exact .cnot _ _ _
    · exact .swap _ _ _
    · exact .ccz _ _ _ _
    · exact .ccx _ _ _ _
    · exact .cswap _ _ _
  · intro h
    cases h <;> rfl

variable {gate : Gate} {qs : List Qubit} {drafts : List Draft} {op : GateOperation}

/-! Every draft of a rule is well-formed when the qubits of the gate are distinct. -/

theorem wellFormed_z (e : Float) (q : Qubit) : (z e q).WellFormed := ⟨rfl, Qubit.distinct_one q⟩

theorem wellFormed_y (e : Float) (q : Qubit) : (y e q).WellFormed := ⟨rfl, Qubit.distinct_one q⟩

theorem wellFormed_idle (q : Qubit) : (idle q).WellFormed := ⟨rfl, Qubit.distinct_one q⟩

theorem wellFormed_power_cnot {t : Float} {a b : Qubit} (h : Qubit.Apart a b) :
    Draft.WellFormed ⟨.power .cnot t, [a, b]⟩ := ⟨rfl, Qubit.distinct_two.2 h⟩

theorem wellFormed_cnot {a b : Qubit} (h : Qubit.Apart a b) : (cnot a b).WellFormed :=
  wellFormed_power_cnot h

theorem wellFormed_conjugate {q : Qubit} {middle : Draft} (h : middle.WellFormed) :
    ∀ draft ∈ conjugate q middle, draft.WellFormed := by
  simp [conjugate, hadamard, wellFormed_z, wellFormed_y, h]

theorem Rule.wellFormed (h : Rule gate qs drafts) (distinct : Qubit.Distinct qs) :
    ∀ draft ∈ drafts, draft.WellFormed := by
  cases h with
  | h t q =>
      unfold hadamardPower hadamard
      split_ifs <;> simp [wellFormed_z, wellFormed_y, wellFormed_idle]
  | cz t a b =>
      have hab := Qubit.distinct_two.1 distinct
      simp [czPower, wellFormed_z, wellFormed_cnot hab]
  | cnot t a b => exact wellFormed_conjugate ⟨rfl, distinct⟩
  | swap t a b =>
      have hab := Qubit.distinct_two.1 distinct
      unfold swapPower
      split_ifs
      · simp [wellFormed_idle]
      · simp [wellFormed_cnot hab, wellFormed_power_cnot hab.symm]
  | ccz t a b c =>
      obtain ⟨hab, -, hbc⟩ := Qubit.distinct_three.1 distinct
      simp [cczPower, wellFormed_z, wellFormed_cnot hab, wellFormed_cnot hbc]
  | ccx t a b c => exact wellFormed_conjugate ⟨rfl, distinct⟩
  | cswap a b c =>
      obtain ⟨-, -, hbc⟩ := Qubit.distinct_three.1 distinct
      have hccx : Draft.WellFormed ⟨.one .ccx, [a, b, c]⟩ := ⟨rfl, distinct⟩
      simp [controlledSwap, wellFormed_cnot hbc.symm, hccx]

theorem step_of_rule (h : Rule op.gate op.qubits drafts) :
    ∃ ops, rewrite? op.gate op.qubits = .ok (some ops) ∧ step op = some ops ∧
      ops.map GateOperation.draft = drafts := by
  obtain ⟨ops, hops, hdrafts⟩ := exists_build (h.wellFormed op.distinct)
  have hrewrite : rewrite? op.gate op.qubits = .ok (some ops) := by
    rw [rewrite?, draft?_eq_some_iff.2 h]
    simp only [hops]
    rfl
  refine ⟨ops, hrewrite, ?_, hdrafts⟩
  rw [step, hrewrite]
  rfl

theorem rule_of_step {ops : List GateOperation} (h : step op = some ops) :
    Rule op.gate op.qubits (ops.map GateOperation.draft) := by
  cases hd : draft? op.gate op.qubits with
  | none => simp [step, rewrite?, hd, Except.toOption] at h
  | some drafts =>
      have hrule := draft?_eq_some_iff.1 hd
      obtain ⟨ops', -, hops', rfl⟩ := step_of_rule hrule
      cases h.symm.trans hops'
      exact hrule

/-- The rewriting of an operation never fails: every draft of its rule can be built. -/
theorem rewrite?_eq_ok (op : GateOperation) : rewrite? op.gate op.qubits = .ok (step op) := by
  cases h : draft? op.gate op.qubits with
  | none => simp [step, rewrite?, h, Except.toOption]
  | some drafts =>
      obtain ⟨ops, hrewrite, hstep, -⟩ := step_of_rule (draft?_eq_some_iff.1 h)
      rw [hrewrite, hstep]

end Rewriting
end AtomArray
