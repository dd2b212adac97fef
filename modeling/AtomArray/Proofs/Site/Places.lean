import AtomArray.Site.Ascending
import Mathlib.Data.List.Perm.Subperm

/-! How many sites a set keeps of a list: as many as there are places in it. -/

namespace AtomArray.Site

instance (sites : List Site) : Decidable (Ascending sites) :=
  inferInstanceAs (Decidable (sites.Pairwise _))

variable {p : Place} {last : Site} {sites : List Site}

theorem mem_places_dropRepeats :
    p ∈ (last :: dropRepeats last sites).map place ↔ p ∈ (last :: sites).map place := by
  induction sites generalizing last with
  | nil => rfl
  | cons s rest ih =>
      unfold dropRepeats
      split
      next hsame =>
        have hplace := beq_iff_place_eq.1 hsame
        rw [ih, List.map_cons, List.map_cons, List.map_cons, hplace]
        simp only [List.mem_cons, or_self_left]
      next =>
        rw [List.map_cons, List.mem_cons, ih]
        simp only [List.map_cons, List.mem_cons]

theorem mem_places_ascending : p ∈ (ascending sites).map place ↔ p ∈ sites.map place := by
  have hsorted := (sites.mergeSort_perm fun a b => (compare a.place b.place).isLE).map place
  rw [← hsorted.mem_iff, ascending]
  cases sites.mergeSort fun a b => (compare a.place b.place).isLE with
  | nil => rfl
  | cons s rest => exact mem_places_dropRepeats

theorem nodup_places (h : Ascending sites) : (sites.map place).Nodup := by
  refine List.pairwise_map.2 (h.imp ?_)
  intro a b hlt heq
  rw [heq, Std.compare_self] at hlt
  cases hlt

theorem places_subperm (sites : List Site) :
    ((ascending sites).map place).Subperm (sites.map place) :=
  List.subperm_of_subset (nodup_places (ascending_ascending sites))
    fun _ => mem_places_ascending.1

theorem length_ascending_le : (ascending sites).length ≤ sites.length := by
  simpa using (places_subperm sites).length_le

/-- Nothing is lost just when all places are distinct. -/
theorem length_ascending_eq_iff :
    (ascending sites).length = sites.length ↔ (sites.map place).Nodup := by
  constructor
  · intro hlength
    have hperm := (places_subperm sites).perm_of_length_le (by simp [hlength])
    exact hperm.nodup_iff.1 (nodup_places (ascending_ascending sites))
  · intro hnodup
    have hsub := List.subperm_of_subset hnodup fun _ => mem_places_ascending.2
    exact Nat.le_antisymm length_ascending_le (by simpa using hsub.length_le)

theorem dropRepeats_of_ascending (h : Ascending (last :: sites)) :
    dropRepeats last sites = sites := by
  induction sites generalizing last with
  | nil => rfl
  | cons s rest ih =>
      obtain ⟨hlast, hrest⟩ := List.pairwise_cons.1 h
      have hne : ¬ (s == last) = true := by
        intro hsame
        have hlt := hlast s List.mem_cons_self
        rw [beq_iff_place_eq.1 hsame, Std.compare_self] at hlt
        cases hlt
      rw [dropRepeats, if_neg hne, ih hrest]

/-- An ascending list is the set of its sites already. -/
theorem ascending_of_ascending (h : Ascending sites) : ascending sites = sites := by
  have hsorted : sites.Pairwise fun a b => (compare a.place b.place).isLE := by
    refine h.imp fun {a b} hlt => ?_
    rw [hlt]
    rfl
  rw [ascending, List.mergeSort_of_pairwise hsorted]
  cases sites with
  | nil => rfl
  | cons s rest => rw [keepFirsts, dropRepeats_of_ascending h]

end AtomArray.Site
