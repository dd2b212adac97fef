import AtomArray.Proofs.Site.Places
import Mathlib.Data.List.Nodup

/-! What a set of sites keeps of a list: of equal sites the first, with its axes as they stand. The
order of the list only decides which site stands for the others. -/

namespace AtomArray.Site

/-- A list without repeats in ascending order, which holds a site just when it is the first of the
given ones that are equal to it. -/
structure Collects (given kept : List Site) : Prop where
  ascending : Ascending kept
  mem_iff : ∀ s, s ∈ kept ↔ given.find? (· == s) = some s

variable {s t last : Site} {sites given kept : List Site}

/-- Sorting leaves equal sites in the order of the list. -/
theorem filter_mergeSort (sites : List Site) (s : Site) :
    (sites.mergeSort fun a b => (compare a.place b.place).isLE).filter (· == s) =
      sites.filter (· == s) := by
  have hplace : ∀ a ∈ sites.filter (· == s), a.place = s.place := by
    intro a ha
    exact beq_iff_place_eq.1 (List.mem_filter.1 ha).2
  have hequal : (sites.filter (· == s)).Pairwise fun a b => (compare a.place b.place).isLE := by
    refine List.pairwise_of_forall_mem_list ?_
    intro a ha b hb
    rw [hplace a ha, hplace b hb, Std.compare_self]
    rfl
  have hkept : (sites.filter (· == s)).Sublist
      (sites.mergeSort fun a b => (compare a.place b.place).isLE) :=
    List.sublist_mergeSort isLE_trans isLE_total hequal List.filter_sublist
  have hsub := hkept.filter (· == s)
  rw [List.filter_filter] at hsub
  simp only [Bool.and_self] at hsub
  have hperm := (sites.mergeSort_perm fun a b => (compare a.place b.place).isLE).filter (· == s)
  exact (hsub.eq_of_length hperm.length_eq.symm).symm

theorem find?_cons_of_place_eq (h : last.place = s.place) :
    (last :: sites).find? (· == s) = some last :=
  List.find?_cons_of_pos (p := (· == s)) (beq_iff_place_eq.2 h)

theorem find?_cons_of_place_ne (h : last.place ≠ s.place) :
    (last :: sites).find? (· == s) = sites.find? (· == s) :=
  List.find?_cons_of_neg (p := (· == s)) fun hbeq => h (beq_iff_place_eq.1 hbeq)

theorem find?_dropRepeats (s : Site) :
    (last :: dropRepeats last sites).find? (· == s) = (last :: sites).find? (· == s) := by
  by_cases hlast : last.place = s.place
  · rw [find?_cons_of_place_eq hlast, find?_cons_of_place_eq hlast]
  rw [find?_cons_of_place_ne hlast, find?_cons_of_place_ne hlast]
  induction sites generalizing last with
  | nil => rfl
  | cons t rest ih =>
      unfold dropRepeats
      split
      next hsame =>
        have ht : t.place ≠ s.place := by
          rw [beq_iff_place_eq.1 hsame]
          exact hlast
        rw [ih hlast, find?_cons_of_place_ne ht]
      next =>
        by_cases ht : t.place = s.place
        · rw [find?_cons_of_place_eq ht, find?_cons_of_place_eq ht]
        · rw [find?_cons_of_place_ne ht, find?_cons_of_place_ne ht, ih ht]

/-- A site is looked up in the set as in the list. -/
theorem find?_ascending (sites : List Site) (s : Site) :
    (ascending sites).find? (· == s) = sites.find? (· == s) := by
  rw [← List.head?_filter (l := sites), ← filter_mergeSort, List.head?_filter, ascending]
  cases sites.mergeSort fun a b => (compare a.place b.place).isLE with
  | nil => rfl
  | cons a rest => exact find?_dropRepeats s

/-- No other site of the set is equal to one in it. -/
theorem Ascending.eq_of_place_eq (h : Ascending kept) (hs : s ∈ kept) (ht : t ∈ kept)
    (heq : s.place = t.place) : s = t :=
  List.inj_on_of_nodup_map (nodup_places h) hs ht heq

theorem exists_find? (hs : s ∈ given) :
    ∃ t, given.find? (· == s) = some t ∧ t ∈ given ∧ t.place = s.place := by
  obtain ⟨t, ht⟩ : ∃ t, given.find? (· == s) = some t := by
    rw [← Option.isSome_iff_exists, List.find?_isSome]
    exact ⟨s, hs, beq_iff_place_eq.2 rfl⟩
  have hbeq : (t == s) = true := List.find?_some (p := (· == s)) ht
  exact ⟨t, ht, List.mem_of_find?_eq_some ht, beq_iff_place_eq.1 hbeq⟩

theorem Ascending.mem_iff (h : Ascending kept) : s ∈ kept ↔ kept.find? (· == s) = some s := by
  constructor
  · intro hs
    obtain ⟨t, hfind, ht, hplace⟩ := exists_find? hs
    rw [hfind, h.eq_of_place_eq ht hs hplace]
  · exact List.mem_of_find?_eq_some

theorem collects_ascending (sites : List Site) : Collects sites (ascending sites) where
  ascending := ascending_ascending sites
  mem_iff s := by
    rw [(ascending_ascending sites).mem_iff, find?_ascending]

/-- Of the sites that are equal to a given one just one is kept, the first. -/
theorem Collects.exists_first (h : Collects given kept) (hs : s ∈ given) :
    ∃ t ∈ kept, given.find? (· == s) = some t ∧ ∀ u ∈ kept, (u == s) = true → u = t := by
  obtain ⟨t, hfind, -, hplace⟩ := exists_find? hs
  have hkept : t ∈ kept := by
    have hsame : (fun a : Site => a == t) = (· == s) := by
      funext a
      rw [Bool.eq_iff_iff, beq_iff_place_eq, beq_iff_place_eq, hplace]
    rw [h.mem_iff, hsame, hfind]
  refine ⟨t, hkept, hfind, ?_⟩
  intro u hu hus
  exact h.ascending.eq_of_place_eq hu hkept ((beq_iff_place_eq.1 hus).trans hplace.symm)

/-! Sets with sites at the same places are equal, whichever sites stand there. -/

theorem list_beq_iff : (given == kept) = true ↔ given.map place = kept.map place := by
  induction given generalizing kept with
  | nil => cases kept <;> simp
  | cons s rest ih =>
      cases kept with
      | nil => simp
      | cons t rest' =>
          rw [List.cons_beq_cons, Bool.and_eq_true, beq_iff_place_eq, ih, List.map_cons,
            List.map_cons, List.cons.injEq]

theorem Ascending.map_place_eq (hgiven : Ascending given) (hkept : Ascending kept)
    (h : ∀ p, p ∈ given.map place ↔ p ∈ kept.map place) : given.map place = kept.map place := by
  have hperm := (List.perm_ext_iff_of_nodup (nodup_places hgiven) (nodup_places hkept)).2 h
  have hsorted : ∀ {sites : List Site}, Ascending sites →
      (sites.map place).Pairwise fun p q => compare p q = .lt := fun h => List.pairwise_map.2 h
  refine hperm.eq_of_pairwise ?_ (hsorted hgiven) (hsorted hkept)
  intro p q _ _ hpq hqp
  have hswap : compare p q = (compare q p).swap := Std.OrientedCmp.eq_swap
  rw [hswap, hqp] at hpq
  cases hpq

theorem map_place_ascending_of_perm (h : given.Perm kept) :
    (ascending given).map place = (ascending kept).map place := by
  refine (ascending_ascending given).map_place_eq (ascending_ascending kept) fun p => ?_
  rw [mem_places_ascending, mem_places_ascending, (h.map place).mem_iff]

end AtomArray.Site
