import AtomArray.Site

/-! Sets of sites as strictly ascending lists. -/

namespace AtomArray.Site

instance : Std.TransOrd Place :=
  inferInstanceAs (Std.TransCmp (compareLex (compareOn Place.x)
    (compareLex (compareOn Place.y) (compareOn Place.z))))

instance : Std.LawfulEqOrd Place where
  eq_of_compare {p q} h := by
    obtain ⟨px, py, pz⟩ := p
    obtain ⟨qx, qy, qz⟩ := q
    change (compare px qx).then ((compare py qy).then (compare pz qz)) = .eq at h
    rw [Ordering.then_eq_eq, Ordering.then_eq_eq] at h
    rw [Std.compare_eq_iff_eq, Std.compare_eq_iff_eq, Std.compare_eq_iff_eq] at h
    obtain ⟨rfl, rfl, rfl⟩ := h
    rfl

def Ascending (sites : List Site) : Prop := sites.Pairwise fun a b => compare a.place b.place = .lt

/-- Drops the sites that are the same as the one before them. -/
def dropRepeats (last : Site) : List Site → List Site
  | [] => []
  | s :: rest => if s == last then dropRepeats last rest else s :: dropRepeats s rest

def keepFirsts : List Site → List Site
  | [] => []
  | s :: rest => s :: dropRepeats s rest

/-- The distinct sites of a list in ascending order; of equal sites the first one is kept, since
sorting leaves them in the order of the list. -/
def ascending (sites : List Site) : List Site :=
  keepFirsts (sites.mergeSort fun a b => (compare a.place b.place).isLE)

theorem beq_iff_place_eq {a b : Site} : (a == b) = true ↔ a.place = b.place :=
  beq_iff_eq (a := a.place)

theorem ascending_cons_dropRepeats {last : Site} {sites : List Site}
    (h : (last :: sites).Pairwise fun a b => (compare a.place b.place).isLE) :
    Ascending (last :: dropRepeats last sites) := by
  induction sites generalizing last with
  | nil => simp [Ascending, dropRepeats]
  | cons s rest ih =>
    rw [List.pairwise_cons, List.pairwise_cons] at h
    obtain ⟨hlast, hs, hrest⟩ := h
    unfold dropRepeats
    split
    next =>
      exact ih (List.pairwise_cons.2 ⟨fun b hb => hlast b (List.mem_cons_of_mem s hb), hrest⟩)
    next hne =>
      have hlt : compare last.place s.place = .lt := by
        have hle := hlast s List.mem_cons_self
        rcases hc : compare last.place s.place with _ | _ | _
        · rfl
        · exact absurd (beq_iff_place_eq.2 (Std.LawfulEqCmp.eq_of_compare hc).symm) hne
        · simp [hc] at hle
      have hasc := ih (List.pairwise_cons.2 ⟨hs, hrest⟩)
      refine List.pairwise_cons.2 ⟨fun b hb => ?_, hasc⟩
      rcases List.mem_cons.1 hb with rfl | hb
      · exact hlt
      · exact Std.TransCmp.lt_trans hlt ((List.pairwise_cons.1 hasc).1 b hb)

theorem ascending_keepFirsts {sites : List Site}
    (h : sites.Pairwise fun a b => (compare a.place b.place).isLE) :
    Ascending (keepFirsts sites) := by
  cases sites with
  | nil => simp [Ascending, keepFirsts]
  | cons s rest => exact ascending_cons_dropRepeats h

theorem isLE_trans (a b c : Site) (hab : (compare a.place b.place).isLE)
    (hbc : (compare b.place c.place).isLE) : (compare a.place c.place).isLE :=
  Std.TransCmp.isLE_trans hab hbc

theorem isLE_total (a b : Site) :
    ((compare a.place b.place).isLE || (compare b.place a.place).isLE) = true := by
  have h : compare b.place a.place = (compare a.place b.place).swap := Std.OrientedCmp.eq_swap
  rw [h]
  cases compare a.place b.place <;> rfl

theorem ascending_ascending (sites : List Site) : Ascending (ascending sites) :=
  ascending_keepFirsts (List.pairwise_mergeSort isLE_trans isLE_total sites)

end AtomArray.Site
