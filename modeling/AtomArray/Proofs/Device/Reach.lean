import AtomArray.Proofs.Device.Sites

/-! The search for two targets that are out of each other's reach. -/

namespace AtomArray.Device

variable {d : Device} {a b p q : Qubit} {qs : List Qubit} {i j : Nat} {distance : Float}

/-- Two sites at a distance beyond the radius. -/
def FarApart (d : Device) (a b : Qubit) : Prop :=
  ∃ distance, d.distance a b = .ok distance ∧ d.radius < distance

/-- The pair of indices `i < j` that comes first among those of qubits far apart, by `i` and then
by `j`. -/
structure FirstFar (d : Device) (qs : List Qubit) (i j : Nat) (a b : Qubit) : Prop where
  lt : i < j
  left : qs[i]? = some a
  right : qs[j]? = some b
  far : d.FarApart a b
  first : ∀ {k l : Nat} {p q : Qubit}, k < l → qs[k]? = some p → qs[l]? = some q →
    d.FarApart p q → i < k ∨ i = k ∧ j ≤ l

theorem FirstFar.unique {k l : Nat} (h : d.FirstFar qs i j a b) (h' : d.FirstFar qs k l p q) :
    a = p ∧ b = q := by
  have hle := h.first h'.lt h'.left h'.right h'.far
  have hge := h'.first h.lt h.left h.right h.far
  have hik : i = k := by omega
  have hjl : j = l := by omega
  subst hik hjl
  exact ⟨Option.some.inj (h.left.symm.trans h'.left), Option.some.inj (h.right.symm.trans h'.right)⟩

/-- A first qubit that is far from a later one has the first far pair. -/
theorem FirstFar.head (hj : qs[j]? = some b) (hfar : d.FarApart a b)
    (hfirst : ∀ (l : Nat) (q : Qubit), qs[l]? = some q → d.FarApart a q → j ≤ l) :
    d.FirstFar (a :: qs) 0 (j + 1) a b := by
  refine ⟨Nat.succ_pos j, rfl, hj, hfar, ?_⟩
  intro k l p q hkl hp hq hpq
  cases l with
  | zero => exact absurd hkl (Nat.not_lt_zero k)
  | succ l =>
      cases k with
      | zero =>
          cases hp
          exact .inr ⟨rfl, Nat.succ_le_succ (hfirst l q hq hpq)⟩
      | succ k => exact .inl (Nat.succ_pos k)

/-- A first qubit that is near the later ones leaves the first far pair to them. -/
theorem FirstFar.tail (hnear : ∀ q ∈ qs, ¬ d.FarApart a q) (h : d.FirstFar qs i j p q) :
    d.FirstFar (a :: qs) (i + 1) (j + 1) p q := by
  refine ⟨Nat.succ_lt_succ h.lt, h.left, h.right, h.far, ?_⟩
  intro k l r s hkl hr hs hrs
  cases l with
  | zero => exact absurd hkl (Nat.not_lt_zero k)
  | succ l =>
      cases k with
      | zero =>
          cases hr
          exact absurd hrs (hnear s (List.mem_of_getElem? hs))
      | succ k =>
          have hle := h.first (Nat.lt_of_succ_lt_succ hkl) hr hs hrs
          omega

theorem FirstFar.not_pairwise (h : d.FirstFar qs i j a b) :
    ¬ qs.Pairwise fun p q => ¬ d.FarApart p q := by
  intro hnear
  obtain ⟨hi, rfl⟩ := List.getElem?_eq_some_iff.1 h.left
  obtain ⟨hj, rfl⟩ := List.getElem?_eq_some_iff.1 h.right
  exact List.pairwise_iff_getElem.1 hnear i j hi hj h.lt h.far

theorem exists_distance (ha : d.OnDevice a) (hb : d.OnDevice b) :
    ∃ distance, d.distance a b = .ok distance := by
  obtain ⟨s, rfl⟩ := ha.exists_site
  obtain ⟨t, rfl⟩ := hb.exists_site
  exact ⟨s.distance t, rfl⟩

theorem checkReach_cons_far (h : d.distance a b = .ok distance) (hfar : d.radius < distance) :
    d.checkReach a (b :: qs) = .error (.tooFarApart a b distance d.radius) := by
  rw [checkReach, h]
  exact if_pos hfar

theorem checkReach_cons_near (h : d.distance a b = .ok distance) (hnear : ¬ d.radius < distance) :
    d.checkReach a (b :: qs) = d.checkReach a qs := by
  rw [checkReach, h]
  exact if_neg hnear

/-- Either no qubit is far from `a`, or the first one that is far is reported. -/
theorem checkReach_cases (ha : d.OnDevice a) (h : ∀ q ∈ qs, d.OnDevice q) :
    (d.checkReach a qs = .ok () ∧ ∀ q ∈ qs, ¬ d.FarApart a q) ∨
    ∃ (j : Nat) (b : Qubit) (distance : Float),
      qs[j]? = some b ∧ d.distance a b = .ok distance ∧ d.radius < distance ∧
      (∀ (l : Nat) (q : Qubit), qs[l]? = some q → d.FarApart a q → j ≤ l) ∧
      d.checkReach a qs = .error (.tooFarApart a b distance d.radius) := by
  induction qs with
  | nil => exact .inl ⟨rfl, by simp⟩
  | cons b qs ih =>
      obtain ⟨hb, hqs⟩ := List.forall_mem_cons.1 h
      obtain ⟨distance, hdistance⟩ := exists_distance ha hb
      by_cases hfar : d.radius < distance
      · exact .inr ⟨0, b, distance, rfl, hdistance, hfar, fun l _ _ _ => Nat.zero_le l,
          checkReach_cons_far hdistance hfar⟩
      · have hnear : ¬ d.FarApart a b := by
          rintro ⟨distance', hdistance', hfar'⟩
          cases hdistance.symm.trans hdistance'
          exact hfar hfar'
        rw [checkReach_cons_near hdistance hfar]
        rcases ih hqs with ⟨hok, hall⟩ | ⟨j, c, far, hj, hc, hlt, hfirst, herror⟩
        · exact .inl ⟨hok, List.forall_mem_cons.2 ⟨hnear, hall⟩⟩
        · refine .inr ⟨j + 1, c, far, hj, hc, hlt, ?_, herror⟩
          intro l q hq hfarq
          cases l with
          | zero =>
              cases hq
              exact absurd hfarq hnear
          | succ l => exact Nat.succ_le_succ (hfirst l q hq hfarq)

/-- Either no two qubits are far apart, or the first two that are far apart are reported. -/
theorem checkPairs_cases (h : ∀ q ∈ qs, d.OnDevice q) :
    (d.checkPairs qs = .ok () ∧ qs.Pairwise fun a b => ¬ d.FarApart a b) ∨
    ∃ i j a b distance, d.FirstFar qs i j a b ∧ d.distance a b = .ok distance ∧
      d.checkPairs qs = .error (.tooFarApart a b distance d.radius) := by
  induction qs with
  | nil => exact .inl ⟨rfl, .nil⟩
  | cons a qs ih =>
      obtain ⟨ha, hqs⟩ := List.forall_mem_cons.1 h
      rw [checkPairs]
      rcases checkReach_cases ha hqs with ⟨hok, hnear⟩ | ⟨j, b, far, hj, hb, hlt, hfirst, herror⟩
      · rw [hok]
        rcases ih hqs with ⟨hpairs, hall⟩ | ⟨i, j, p, q, far, hfirst, hfar, herror⟩
        · exact .inl ⟨hpairs, List.pairwise_cons.2 ⟨hnear, hall⟩⟩
        · exact .inr ⟨i + 1, j + 1, p, q, far, hfirst.tail hnear, hfar, herror⟩
      · rw [herror]
        exact .inr ⟨0, j + 1, a, b, far, .head hj ⟨far, hb, hlt⟩ hfirst, hb, rfl⟩

theorem checkPairs_eq_ok_iff (h : ∀ q ∈ qs, d.OnDevice q) :
    d.checkPairs qs = .ok () ↔ qs.Pairwise fun a b => ¬ d.FarApart a b := by
  rcases checkPairs_cases h with ⟨hok, hnear⟩ | ⟨i, j, a, b, far, hfirst, -, herror⟩
  · exact iff_of_true hok hnear
  · refine iff_of_false ?_ hfirst.not_pairwise
    rw [herror]
    exact (nomatch ·)

theorem checkPairs_eq_error_iff (h : ∀ q ∈ qs, d.OnDevice q) {e : DeviceError} :
    d.checkPairs qs = .error e ↔ ∃ i j a b distance, d.FirstFar qs i j a b ∧
      d.distance a b = .ok distance ∧ e = .tooFarApart a b distance d.radius := by
  rcases checkPairs_cases h with ⟨hok, hnear⟩ | ⟨i, j, a, b, far, hfirst, hfar, herror⟩
  · refine iff_of_false (by rw [hok]; exact (nomatch ·)) ?_
    rintro ⟨i, j, a, b, far, hfirst, -⟩
    exact hfirst.not_pairwise hnear
  · rw [herror]
    constructor
    · intro he
      exact ⟨i, j, a, b, far, hfirst, hfar, (Except.error.inj he).symm⟩
    · rintro ⟨k, l, p, q, far', hfirst', hfar', rfl⟩
      obtain ⟨rfl, rfl⟩ := hfirst.unique hfirst'
      cases hfar.symm.trans hfar'
      rfl

end AtomArray.Device
