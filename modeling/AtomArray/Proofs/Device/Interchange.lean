import AtomArray.Proofs.Device.Connectivity
import AtomArray.Proofs.Qubit.Order

/-! Operations on targets that are the same to nine decimals: what the check makes of the one and of
the other. -/

namespace AtomArray

namespace Operation

/-- The same operation, on targets that are the same qubits whatever their coordinates. -/
inductive Matches : Operation → Operation → Prop
  | gate {a b : GateOperation} : a.gate = b.gate →
      List.Forall₂ (fun p q => (p == q) = true) a.qubits b.qubits → Matches (.gate a) (.gate b)
  | parallel {a b : ParallelOperation} : a.gate = b.gate →
      List.Forall₂ (fun p q => (p == q) = true) a.qubits b.qubits →
      Matches (.parallel a) (.parallel b)
  | block (name : String) {ps qs : List Qubit} :
      List.Forall₂ (fun p q => (p == q) = true) ps qs → Matches (.block name ps) (.block name qs)

variable {op op' : Operation}

theorem Matches.identities (h : op.Matches op') :
    op.qubits.map Qubit.identity = op'.qubits.map Qubit.identity := by
  have hmap : ∀ {ps qs : List Qubit}, List.Forall₂ (fun p q => (p == q) = true) ps qs →
      ps.map Qubit.identity = qs.map Qubit.identity := by
    intro ps qs h
    rw [← List.forall₂_eq_eq_eq, List.forall₂_map_left_iff, List.forall₂_map_right_iff]
    exact h.imp fun p q hpq => Qubit.beq_iff_identity_eq.1 hpq
  cases h with
  | gate hgate h => exact hmap h
  | parallel hgate h => exact hmap h
  | block name h => exact hmap h

theorem Matches.length_eq (h : op.Matches op') : op.qubits.length = op'.qubits.length := by
  simpa using congrArg List.length h.identities

end Operation

namespace Device

variable {d : Device} {op op' : Operation}

/-- Every two of the qubits are within reach of each other. -/
def AllNear (d : Device) (qs : List Qubit) : Prop := qs.Pairwise fun a b => ¬ d.FarApart a b

theorem check_eq_ok_iff : d.check op = .ok () ↔
    op.isNative = true ∧ (∀ q ∈ op.qubits, d.OnDevice q) ∧
    (op.IsEntangler → d.AllNear op.qubits) ∧ (op.IsParallelZ → ¬ d.CoveredBy op.qubits) ∧
    (op.IsParallelXy → op.qubits.length = 1 ∨ d.CoveredBy op.qubits) := by
  constructor
  · intro h
    have hruling := d.ruling_check op
    rw [h] at hruling
    cases hruling with
    | ok native targets entangler parallelZ parallelXy =>
        exact ⟨native, targets, entangler, parallelZ, parallelXy⟩
  · rintro ⟨native, targets, entangler, parallelZ, parallelXy⟩
    exact check_of_ok native targets entangler parallelZ parallelXy

end Device
end AtomArray
