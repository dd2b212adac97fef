import AtomArray.Device
import AtomArray.Proofs.Site.Places
import Mathlib.Data.List.Nodup

/-! Qubits and the sites of a device: which qubits are on it, and how many distinct ones can be. -/

namespace AtomArray
namespace Qubit

/-- The qubit is the same as one in a list. -/
def Among (q : Qubit) (qs : List Qubit) : Prop := ∃ p ∈ qs, p.identity = q.identity

variable {q : Qubit} {qs ps : List Qubit}

theorem map_identity_subset_iff :
    qs.map identity ⊆ ps.map identity ↔ ∀ q ∈ qs, q.Among ps := by
  simp only [List.subset_def, List.mem_map, Among, forall_exists_index, and_imp,
    forall_apply_eq_imp_iff₂]

/-- Distinct qubits are no more than the qubits they are among. -/
theorem length_le_of_among (distinct : Distinct qs) (h : ∀ q ∈ qs, q.Among ps) :
    qs.length ≤ ps.length := by
  have hsub := List.subperm_of_subset distinct (map_identity_subset_iff.2 h)
  simpa using hsub.length_le

/-- Distinct qubits among others leave none of these out just when they are as many. -/
theorem length_eq_iff_among (distinct : Distinct qs) (hps : Distinct ps)
    (h : ∀ q ∈ qs, q.Among ps) : qs.length = ps.length ↔ ∀ p ∈ ps, p.Among qs := by
  constructor
  · intro hlength
    have hsub := List.subperm_of_subset distinct (map_identity_subset_iff.2 h)
    have hperm := hsub.perm_of_length_le (by simp [hlength])
    exact map_identity_subset_iff.1 hperm.symm.subset
  · intro hall
    exact Nat.le_antisymm (length_le_of_among distinct h) (length_le_of_among hps hall)

end Qubit

namespace Device

variable {d : Device} {q : Qubit} {qs : List Qubit}

/-- The qubit is a site of the device. -/
def OnDevice (d : Device) (q : Qubit) : Prop := q.Among d.qubits

/-- Every site of the device is one of the qubits. -/
def CoveredBy (d : Device) (qs : List Qubit) : Prop := ∀ s ∈ d.qubits, s.Among qs

theorem length_qubits (d : Device) : d.qubits.length = d.size := List.length_map _

theorem distinct_qubits (d : Device) : Qubit.Distinct d.qubits := by
  have hinj : Function.Injective Qubit.Identity.place := fun _ _ heq => Qubit.Identity.place.inj heq
  have hnodup := List.Nodup.map hinj (Site.nodup_places d.ascending)
  unfold Qubit.Distinct qubits
  rwa [List.map_map] at hnodup ⊢

theorem OnDevice.exists_site (h : d.OnDevice q) : ∃ s, q = .site s := by
  obtain ⟨p, hp, hidentity⟩ := h
  obtain ⟨s, -, rfl⟩ := List.mem_map.1 hp
  cases q with
  | site t => exact ⟨t, rfl⟩
  | line n => cases hidentity
  | named name => cases hidentity

theorem contains_iff : d.contains q = true ↔ d.OnDevice q := by
  constructor
  · intro h
    cases q with
    | site s =>
        obtain ⟨t, ht, hplace⟩ := List.any_eq_true.1 h
        have hst : t.place = s.place := beq_iff_eq.1 hplace
        exact ⟨.site t, List.mem_map_of_mem ht, congrArg Qubit.Identity.place hst⟩
    | line n => cases h
    | named name => cases h
  · intro h
    obtain ⟨s, rfl⟩ := h.exists_site
    obtain ⟨p, hp, hidentity⟩ := h
    obtain ⟨t, ht, rfl⟩ := List.mem_map.1 hp
    exact List.any_eq_true.2 ⟨t, ht, beq_iff_eq.2 (Qubit.Identity.place.inj hidentity)⟩

theorem contains_eq_false_iff : d.contains q = false ↔ ¬ d.OnDevice q := by
  rw [← contains_iff, Bool.not_eq_true]

/-- Distinct targets on the device are no more than its sites. -/
theorem length_le_size (distinct : Qubit.Distinct qs) (h : ∀ q ∈ qs, d.OnDevice q) :
    qs.length ≤ d.size := by
  rw [← length_qubits]
  exact Qubit.length_le_of_among distinct h

theorem length_eq_size_iff (distinct : Qubit.Distinct qs) (h : ∀ q ∈ qs, d.OnDevice q) :
    qs.length = d.size ↔ d.CoveredBy qs := by
  rw [← length_qubits]
  exact Qubit.length_eq_iff_among distinct d.distinct_qubits h

end Device
end AtomArray
