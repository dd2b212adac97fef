import AtomArray.Proofs.Config.Sites

/-! Which layouts are refused before their sites are generated, and for what reason: an axis that
runs out of the integers, a lattice of too many sites, or a packing without a finite corner. -/

namespace AtomArray.Layout

/-- The far end of the extent is beyond the 64-bit integers. -/
def Extent.Overflows (e : Extent) : Prop :=
  Int64.maxValue.toInt < e.offset.toInt + e.length.toNat

instance (e : Extent) : Decidable e.Overflows := inferInstanceAs (Decidable (_ < _))

/-- The product of the extents, however large. -/
def volume (es : List Extent) : ℕ := (es.map fun e => e.length.toNat).prod

/-- A count as far as it has a 64-bit name. -/
def named? (n : ℕ) : Option ℕ := if n < 2 ^ 64 then some n else none

/-- What a layout is refused for. Of several axes that overflow it is the first, and an axis comes
before the number of sites. -/
inductive Refused : Layout → ConfigFault → Prop
  | axis {layout : Layout} {before after : List Extent} {e : Extent}
      (axes : layout.extents = before ++ e :: after) (earlier : ∀ a ∈ before, ¬ a.Overflows)
      (overflows : e.Overflows) : Refused layout (.axisOverflow e.axis e.offset e.length)
  | grid {layout : Layout} (dense : layout.extents ≠ [])
      (axes : ∀ e ∈ layout.extents, ¬ e.Overflows) (large : maxLayoutSites < volume layout.extents) :
      Refused layout (.tooManySites (named? (volume layout.extents)))
  | corner {size : UInt32} {top left : Float}
      (offsets : ¬ (top.isFinite = true ∧ left.isFinite = true)) :
      Refused (.triangular size top left) .offsetNotFinite
  | packing {size : UInt32} {top left : Float}
      (offsets : top.isFinite = true ∧ left.isFinite = true)
      (large : maxLayoutSites < (size.toNat + 1) ^ 2) :
      Refused (.triangular size top left) (.tooManySites (named? ((size.toNat + 1) ^ 2)))

variable {layout : Layout} {fault : ConfigFault} {e : Extent} {es before after : List Extent}
  {k j : ℕ}

theorem Extent.fits_iff : e.fits = true ↔ ¬ e.Overflows := by
  rw [fits, Overflows, decide_eq_true_iff, not_lt]

theorem checkLimit_eq (h : k < 2 ^ 64) :
    checkLimit k = if k ≤ maxLayoutSites then .ok k else .error (.tooManySites (named? k)) := by
  rw [checkLimit, named?, if_pos h]
  by_cases hlimit : k ≤ maxLayoutSites
  · rw [if_pos hlimit, if_neg (not_lt.2 hlimit)]
  · rw [if_neg hlimit, if_pos (not_le.1 hlimit)]

theorem countFrom_cons_of_overflows (h : e.Overflows) :
    countFrom k (e :: es) = .error (.axisOverflow e.axis e.offset e.length) := by
  rw [countFrom, if_neg (fun hfits => Extent.fits_iff.1 hfits h)]

theorem countFrom_cons_of_lt (h : ¬ e.Overflows) (hlt : k * e.length.toNat < 2 ^ 64) :
    countFrom k (e :: es) = countFrom (k * e.length.toNat) es := by
  rw [countFrom, if_pos (Extent.fits_iff.2 h)]
  exact if_pos hlt

theorem countFrom_cons_of_le (h : ¬ e.Overflows) (hle : 2 ^ 64 ≤ k * e.length.toNat) :
    countFrom k (e :: es) = .error (.tooManySites none) := by
  rw [countFrom, if_pos (Extent.fits_iff.2 h)]
  exact if_neg (not_lt.2 hle)

/-! A product of `j` extents is at most `(2 ^ 32 - 1) ^ j`, so that no product of two leaves the
64-bit numbers, and there is nothing to multiply by after a product of three. -/

theorem mul_length_le (h : k ≤ (2 ^ 32 - 1) ^ j) (e : Extent) :
    k * e.length.toNat ≤ (2 ^ 32 - 1) ^ (j + 1) := by
  have hlength : e.length.toNat ≤ 2 ^ 32 - 1 := Nat.le_pred_of_lt e.length.toNat_lt
  rw [pow_succ]
  exact Nat.mul_le_mul h hlength

theorem mul_length_lt (h : k ≤ (2 ^ 32 - 1) ^ j) (hj : j ≤ 1) (e : Extent) :
    k * e.length.toNat < 2 ^ 64 := by
  refine (mul_length_le h e).trans_lt ?_
  calc (2 ^ 32 - 1) ^ (j + 1) ≤ (2 ^ 32 - 1) ^ 2 := Nat.pow_le_pow_right (by decide) (by omega)
    _ < 2 ^ 64 := by decide

theorem countFrom_of_overflows (hk : k ≤ (2 ^ 32 - 1) ^ j) (hj : j + before.length ≤ 2)
    (earlier : ∀ a ∈ before, ¬ a.Overflows) (h : e.Overflows) :
    countFrom k (before ++ e :: after) = .error (.axisOverflow e.axis e.offset e.length) := by
  induction before generalizing k j with
  | nil => exact countFrom_cons_of_overflows h
  | cons a rest ih =>
      rw [List.length_cons] at hj
      have ha := earlier a List.mem_cons_self
      rw [List.cons_append, countFrom_cons_of_lt ha (mul_length_lt hk (by omega) a)]
      exact ih (mul_length_le hk a) (by omega) fun b hb => earlier b (List.mem_cons_of_mem a hb)

theorem countFrom_of_fits (hk : k ≤ (2 ^ 32 - 1) ^ j) (hlt : k < 2 ^ 64)
    (hj : j + es.length ≤ 3) (h : ∀ e ∈ es, ¬ e.Overflows) :
    countFrom k es = if k * volume es ≤ maxLayoutSites then .ok (k * volume es)
      else .error (.tooManySites (named? (k * volume es))) := by
  induction es generalizing k j with
  | nil =>
      have hvolume : k * volume [] = k := mul_one k
      rw [hvolume]
      exact checkLimit_eq hlt
  | cons e rest ih =>
      rw [List.length_cons] at hj
      obtain ⟨he, hrest⟩ := List.forall_mem_cons.1 h
      have hvolume : k * volume (e :: rest) = k * e.length.toNat * volume rest := by
        rw [volume, List.map_cons, List.prod_cons, mul_assoc]
        rfl
      rw [hvolume]
      by_cases hproduct : k * e.length.toNat < 2 ^ 64
      · rw [countFrom_cons_of_lt he hproduct]
        exact ih (mul_length_le hk e) hproduct (by omega) hrest
      · -- only the last product can be this large
        obtain rfl : rest = [] := by
          by_contra hne
          have hpos := List.length_pos_iff.2 hne
          exact hproduct (mul_length_lt hk (by omega) e)
        have hlarge := not_lt.1 hproduct
        have hlimit : ¬ k * e.length.toNat ≤ maxLayoutSites :=
          fun hle => absurd (hlarge.trans hle) (by decide)
        have hone : k * e.length.toNat * volume [] = k * e.length.toNat := mul_one _
        rw [countFrom_cons_of_le he hlarge, hone, if_neg hlimit, named?, if_neg hproduct]

theorem countGrid_of_fits (hes : es.length ≤ 3) (h : ∀ e ∈ es, ¬ e.Overflows) :
    countGrid es = if volume es ≤ maxLayoutSites then .ok (volume es)
      else .error (.tooManySites (named? (volume es))) := by
  have hcount := countFrom_of_fits (k := 1) (j := 0) le_rfl (by decide) (by omega) h
  rwa [one_mul] at hcount

theorem length_extents_le (layout : Layout) : layout.extents.length ≤ 3 := by
  cases layout <;> simp [extents]

theorem siteCount_of_dense (h : layout.extents ≠ []) :
    layout.siteCount = countGrid layout.extents := by
  cases layout with
  | triangular size top left => exact absurd rfl h
  | explicit sites => exact absurd rfl h
  | _ => rfl

theorem siteCount_of_packing {size : UInt32} {top left : Float}
    (h : top.isFinite = true ∧ left.isFinite = true) :
    (triangular size top left).siteCount = if (size.toNat + 1) ^ 2 ≤ maxLayoutSites then
      .ok ((size.toNat + 1) ^ 2) else .error (.tooManySites (named? ((size.toNat + 1) ^ 2))) := by
  have hoffsets : ¬ ((!top.isFinite || !left.isFinite) = true) := by simp [h]
  rw [siteCount, if_neg hoffsets, ← sq]
  by_cases hword : (size.toNat + 1) ^ 2 < 2 ^ 64
  · exact (if_pos hword).trans (checkLimit_eq hword)
  · have hlimit : ¬ (size.toNat + 1) ^ 2 ≤ maxLayoutSites :=
      fun hle => absurd ((not_lt.1 hword).trans hle) (by decide)
    rw [if_neg hlimit, named?, if_neg hword]
    exact if_neg hword

theorem siteCount_of_corner {size : UInt32} {top left : Float}
    (h : ¬ (top.isFinite = true ∧ left.isFinite = true)) :
    (triangular size top left).siteCount = .error .offsetNotFinite := by
  have hoffsets : (!top.isFinite || !left.isFinite) = true := by
    rw [← Bool.not_and, Bool.not_eq_true', ← Bool.not_eq_true, Bool.and_eq_true]
    exact h
  rw [siteCount, if_pos hoffsets]

theorem Refused.siteCount_eq (h : layout.Refused fault) : layout.siteCount = .error fault := by
  cases h with
  | axis axes earlier overflows =>
      have hlength := length_extents_le layout
      rw [axes, List.length_append, List.length_cons] at hlength
      have hdense : layout.extents ≠ [] := by simp [axes]
      rw [siteCount_of_dense hdense, axes, countGrid]
      exact countFrom_of_overflows (j := 0) le_rfl (by omega) earlier overflows
  | grid dense axes large =>
      rw [siteCount_of_dense dense, countGrid_of_fits (length_extents_le layout) axes,
        if_neg (not_le.2 large)]
  | corner offsets => exact siteCount_of_corner offsets
  | packing offsets large => rw [siteCount_of_packing offsets, if_neg (not_le.2 large)]

/-- Of the axes that overflow there is a first one. -/
theorem exists_first_overflow (h : ∃ e ∈ es, e.Overflows) : ∃ before e after,
    es = before ++ e :: after ∧ (∀ a ∈ before, ¬ a.Overflows) ∧ e.Overflows := by
  have hfound : (es.find? fun e => e.Overflows).isSome = true := by
    rw [List.find?_isSome]
    simpa only [decide_eq_true_iff] using h
  obtain ⟨e, he⟩ := Option.isSome_iff_exists.1 hfound
  obtain ⟨hoverflows, before, after, hsplit, hearlier⟩ := List.find?_eq_some_iff_append.1 he
  refine ⟨before, e, after, hsplit, ?_, of_decide_eq_true hoverflows⟩
  intro a ha
  simpa using hearlier a ha

/-- A dense layout is refused just when an axis overflows or there are too many sites. -/
theorem exists_refused_of_dense (h : layout.extents ≠ []) : (∃ fault, layout.Refused fault) ↔
    (∃ e ∈ layout.extents, e.Overflows) ∨ maxLayoutSites < volume layout.extents := by
  constructor
  · rintro ⟨fault, hrefused⟩
    cases hrefused with
    | axis axes earlier overflows => exact .inl ⟨_, by simp [axes], overflows⟩
    | grid dense axes large => exact .inr large
    | corner offsets => exact absurd rfl h
    | packing offsets large => exact absurd rfl h
  · intro hcause
    by_cases hover : ∃ e ∈ layout.extents, e.Overflows
    · obtain ⟨before, e, after, hsplit, earlier, overflows⟩ := exists_first_overflow hover
      exact ⟨_, .axis hsplit earlier overflows⟩
    · have axes : ∀ e ∈ layout.extents, ¬ e.Overflows := fun e he hover' => hover ⟨e, he, hover'⟩
      exact ⟨_, .grid h axes (hcause.resolve_left hover)⟩

theorem exists_refused_of_packing {size : UInt32} {top left : Float} :
    (∃ fault, (triangular size top left).Refused fault) ↔
      ¬ (top.isFinite = true ∧ left.isFinite = true) ∨
        maxLayoutSites < (size.toNat + 1) ^ 2 := by
  constructor
  · rintro ⟨fault, hrefused⟩
    cases hrefused with
    | axis axes earlier overflows => simp [extents] at axes
    | grid dense axes large => exact absurd rfl dense
    | corner offsets => exact .inl offsets
    | packing offsets large => exact .inr large
  · intro hcause
    by_cases hoffsets : top.isFinite = true ∧ left.isFinite = true
    · exact ⟨_, .packing hoffsets (hcause.resolve_left fun h => h hoffsets)⟩
    · exact ⟨_, .corner hoffsets⟩

/-- What is not refused is counted. -/
theorem siteCount_cases (layout : Layout) :
    (∃ n, layout.siteCount = .ok n) ∨ ∃ fault, layout.Refused fault := by
  by_cases hrefused : ∃ fault, layout.Refused fault
  · exact .inr hrefused
  left
  by_cases hdense : layout.extents ≠ []
  · rw [exists_refused_of_dense hdense, not_or, not_exists] at hrefused
    obtain ⟨axes, hlimit⟩ := hrefused
    refine ⟨volume layout.extents, ?_⟩
    rw [siteCount_of_dense hdense, countGrid_of_fits (length_extents_le layout)
      fun e he hover => axes e ⟨he, hover⟩, if_pos (not_lt.1 hlimit)]
  · cases layout with
    | triangular size top left =>
        rw [exists_refused_of_packing, not_or, not_not] at hrefused
        refine ⟨(size.toNat + 1) ^ 2, ?_⟩
        rw [siteCount_of_packing hrefused.1, if_pos (not_lt.1 hrefused.2)]
    | explicit sites => exact ⟨sites.length, rfl⟩
    | _ => exact absurd (List.cons_ne_nil _ _) hdense

theorem siteCount_eq_error_iff : layout.siteCount = .error fault ↔ layout.Refused fault := by
  constructor
  · intro h
    rcases layout.siteCount_cases with ⟨n, hn⟩ | ⟨fault', hrefused⟩
    · cases h.symm.trans hn
    · cases h.symm.trans hrefused.siteCount_eq
      exact hrefused
  · exact Refused.siteCount_eq

/-- A count is the number of sites. There is none just for a dense layout with an axis that overflows
or with too many sites, and for a packing with a corner that is not finite or with too many points. -/
theorem siteCount_exact (layout : Layout) :
    (∀ n, layout.siteCount = .ok n → layout.sites.length = n) ∧
    (∀ fault, layout.siteCount = .error fault ↔ layout.Refused fault) ∧
    (layout.extents ≠ [] → ((∃ fault, layout.siteCount = .error fault) ↔
      (∃ e ∈ layout.extents, e.Overflows) ∨ maxLayoutSites < volume layout.extents)) ∧
    (∀ size top left, layout = .triangular size top left →
      ((∃ fault, layout.siteCount = .error fault) ↔
        ¬ (top.isFinite = true ∧ left.isFinite = true) ∨
          maxLayoutSites < (size.toNat + 1) ^ 2)) ∧
    ∀ sites, layout = .explicit sites → ∃ n, layout.siteCount = .ok n := by
  have hrefused : (∃ fault, layout.siteCount = .error fault) ↔ ∃ fault, layout.Refused fault :=
    exists_congr fun _ => siteCount_eq_error_iff
  refine ⟨fun n => length_sites, fun fault => siteCount_eq_error_iff, ?_, ?_, ?_⟩
  · intro hdense
    exact hrefused.trans (exists_refused_of_dense hdense)
  · rintro size top left rfl
    exact hrefused.trans exists_refused_of_packing
  · rintro sites rfl
    exact ⟨sites.length, rfl⟩

/-- A product of two that is far too large is still multiplied by what comes next. -/
example : (box 4294967295 4294967295 0 0 0 0).siteCount = .ok 0 := rfl

end AtomArray.Layout
