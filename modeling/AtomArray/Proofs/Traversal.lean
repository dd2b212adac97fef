import Mathlib.Algebra.GroupWithZero.Nat
import Mathlib.Data.List.Forall2

/-! Traversals that may fail: a run succeeds when every element does, and otherwise ends with the
error of the first element that fails. -/

namespace AtomArray.Traversal

variable {ε α β : Type}

theorem mapM_cons_error {f : α → Except ε β} {x : α} {xs : List α} {e : ε} (h : f x = .error e) :
    (x :: xs).mapM f = .error e := by
  rw [List.mapM_cons, h]
  rfl

theorem mapM_cons_ok {f : α → Except ε β} {x : α} {xs : List α} {y : β} (h : f x = .ok y) :
    (x :: xs).mapM f = (xs.mapM f).map (y :: ·) := by
  rw [List.mapM_cons, h]
  cases xs.mapM f <;> rfl

theorem map_eq_ok_iff {f : α → β} {r : Except ε α} {y : β} :
    r.map f = .ok y ↔ ∃ x, r = .ok x ∧ f x = y := by
  cases r with
  | error e => exact ⟨(nomatch ·), fun ⟨_, h, _⟩ => nomatch h⟩
  | ok x =>
      constructor
      · intro h
        cases h
        exact ⟨x, rfl, rfl⟩
      · rintro ⟨x, hx, rfl⟩
        cases hx
        rfl

theorem bind_eq_ok_iff {r : Except ε α} {f : α → Except ε β} {y : β} :
    (r >>= f) = .ok y ↔ ∃ x, r = .ok x ∧ f x = .ok y := by
  cases r with
  | error e => exact ⟨(nomatch ·), fun ⟨_, h, _⟩ => nomatch h⟩
  | ok x =>
      constructor
      · intro h
        exact ⟨x, rfl, h⟩
      · rintro ⟨_, hx, h⟩
        cases hx
        exact h

theorem map_eq_error_iff {f : α → β} {r : Except ε α} {e : ε} :
    r.map f = .error e ↔ r = .error e := by
  cases r with
  | error e' => exact ⟨fun h => by cases h; rfl, fun h => by cases h; rfl⟩
  | ok x => exact ⟨(nomatch ·), (nomatch ·)⟩

theorem mapM_congr {f g : α → Except ε β} {xs : List α} (h : ∀ x ∈ xs, f x = g x) :
    xs.mapM f = xs.mapM g := by
  induction xs with
  | nil => rfl
  | cons x xs ih =>
      rw [List.mapM_cons, List.mapM_cons, h x List.mem_cons_self,
        ih fun y hy => h y (List.mem_cons_of_mem x hy)]

theorem mapM_eq_ok_iff {f : α → Except ε β} {xs : List α} {ys : List β} :
    xs.mapM f = .ok ys ↔ List.Forall₂ (fun x y => f x = .ok y) xs ys := by
  induction xs generalizing ys with
  | nil =>
      rw [List.forall₂_nil_left_iff]
      exact ⟨fun h => by cases h; rfl, fun h => by cases h; rfl⟩
  | cons x xs ih =>
      rw [List.forall₂_cons_left_iff]
      cases h : f x with
      | error e =>
          rw [mapM_cons_error h]
          exact ⟨(nomatch ·), fun ⟨_, _, hy, _⟩ => nomatch hy⟩
      | ok y =>
          rw [mapM_cons_ok h, map_eq_ok_iff]
          constructor
          · rintro ⟨ys, hys, rfl⟩
            exact ⟨y, ys, rfl, ih.1 hys, rfl⟩
          · rintro ⟨z, ys, hz, hys, rfl⟩
            cases hz
            exact ⟨ys, ih.2 hys, rfl⟩

theorem mapM_eq_error_iff {f : α → Except ε β} {xs : List α} {e : ε} :
    xs.mapM f = .error e ↔
      ∃ before x after, xs = before ++ x :: after ∧ f x = .error e ∧
        ∀ a ∈ before, ∃ b, f a = .ok b := by
  induction xs with
  | nil => exact ⟨(nomatch ·), fun ⟨_, _, _, h, _⟩ => by simp at h⟩
  | cons x xs ih =>
      cases h : f x with
      | error e' =>
          rw [mapM_cons_error h]
          constructor
          · intro he
            cases he
            exact ⟨[], x, xs, rfl, h, by simp⟩
          · rintro ⟨before, y, after, hxs, hy, hbefore⟩
            cases before with
            | nil =>
                cases hxs
                cases h.symm.trans hy
                rfl
            | cons z before =>
                cases hxs
                obtain ⟨b, hb⟩ := hbefore x List.mem_cons_self
                rw [h] at hb
                cases hb
      | ok y =>
          rw [mapM_cons_ok h, map_eq_error_iff, ih]
          constructor
          · rintro ⟨before, z, after, rfl, hz, hbefore⟩
            refine ⟨x :: before, z, after, rfl, hz, ?_⟩
            intro a ha
            rcases List.mem_cons.1 ha with rfl | ha
            · exact ⟨y, h⟩
            · exact hbefore a ha
          · rintro ⟨before, z, after, hxs, hz, hbefore⟩
            cases before with
            | nil =>
                cases hxs
                rw [h] at hz
                cases hz
            | cons w before =>
                cases hxs
                exact ⟨before, z, after, rfl, hz,
                  fun a ha => hbefore a (List.mem_cons_of_mem x ha)⟩

theorem mapM_append_eq_ok_iff {f : α → Except ε β} {xs ys : List α} {zs : List β} :
    (xs ++ ys).mapM f = .ok zs ↔
      ∃ us vs, xs.mapM f = .ok us ∧ ys.mapM f = .ok vs ∧ us ++ vs = zs := by
  rw [List.mapM_append]
  cases xs.mapM f with
  | error e => exact ⟨(nomatch ·), fun ⟨_, _, h, _⟩ => nomatch h⟩
  | ok us =>
      cases ys.mapM f with
      | error e => exact ⟨(nomatch ·), fun ⟨_, _, _, h, _⟩ => nomatch h⟩
      | ok vs =>
          constructor
          · intro h
            cases h
            exact ⟨us, vs, rfl, rfl, rfl⟩
          · rintro ⟨_, _, hus, hvs, rfl⟩
            cases hus
            cases hvs
            rfl

theorem mapM_append_eq_error_iff {f : α → Except ε β} {xs ys : List α} {e : ε} :
    (xs ++ ys).mapM f = .error e ↔
      xs.mapM f = .error e ∨ (∃ us, xs.mapM f = .ok us) ∧ ys.mapM f = .error e := by
  rw [List.mapM_append]
  cases xs.mapM f with
  | error e' =>
      constructor
      · intro h
        cases h
        exact .inl rfl
      · rintro (h | ⟨⟨_, h⟩, -⟩)
        · cases h
          rfl
        · cases h
  | ok us =>
      cases ys.mapM f with
      | error e' =>
          constructor
          · intro h
            cases h
            exact .inr ⟨⟨us, rfl⟩, rfl⟩
          · rintro (h | ⟨-, h⟩)
            · cases h
            · cases h
              rfl
      | ok vs =>
          refine ⟨(nomatch ·), ?_⟩
          rintro (h | ⟨-, h⟩)
          · cases h
          · cases h

theorem forM_cons_error {f : α → Except ε Unit} {x : α} {xs : List α} {e : ε}
    (h : f x = .error e) : (x :: xs).forM f = .error e := by
  change (f x >>= fun _ => xs.forM f) = .error e
  rw [h]
  rfl

theorem forM_cons_ok {f : α → Except ε Unit} {x : α} {xs : List α} (h : f x = .ok ()) :
    (x :: xs).forM f = xs.forM f := by
  change (f x >>= fun _ => xs.forM f) = xs.forM f
  rw [h]
  rfl

theorem forM_eq_ok_iff {f : α → Except ε Unit} {xs : List α} :
    xs.forM f = .ok () ↔ ∀ x ∈ xs, f x = .ok () := by
  induction xs with
  | nil => exact iff_of_true rfl (by simp)
  | cons x xs ih =>
      rw [List.forall_mem_cons, ← ih]
      cases h : f x with
      | error e =>
          rw [forM_cons_error h]
          exact ⟨(nomatch ·), fun hx => nomatch hx.1⟩
      | ok u =>
          rw [forM_cons_ok h]
          exact ⟨fun hxs => ⟨rfl, hxs⟩, fun hx => hx.2⟩

/-- Testing every element, and mapping them afterwards, is testing and mapping them one by one. -/
theorem forM_map_eq_mapM (f : α → Except ε Unit) (g : α → β) (xs : List α) :
    ((xs.forM f).map fun _ => xs.map g) = xs.mapM fun x => (f x).map fun _ => g x := by
  induction xs with
  | nil => rfl
  | cons x xs ih =>
      cases h : f x with
      | error e =>
          have hx : ((f x).map fun _ => g x) = .error e := by rw [h]; rfl
          rw [forM_cons_error h, mapM_cons_error (f := fun x => (f x).map fun _ => g x) hx]
          rfl
      | ok u =>
          have hx : ((f x).map fun _ => g x) = .ok (g x) := by rw [h]; rfl
          rw [forM_cons_ok h, mapM_cons_ok (f := fun x => (f x).map fun _ => g x) hx, ← ih]
          cases xs.forM f <;> rfl

/-- A run that fails ends with the error of some element. -/
theorem exists_of_forM_eq_error {f : α → Except ε Unit} {xs : List α} {e : ε}
    (h : xs.forM f = .error e) : ∃ x ∈ xs, f x = .error e := by
  induction xs with
  | nil => cases h
  | cons x xs ih =>
      cases hx : f x with
      | error e' =>
          rw [forM_cons_error hx] at h
          cases h
          exact ⟨x, List.mem_cons_self, hx⟩
      | ok u =>
          rw [forM_cons_ok hx] at h
          obtain ⟨y, hy, hfy⟩ := ih h
          exact ⟨y, List.mem_cons_of_mem x hy, hfy⟩

theorem exists_mapM_ok {f : α → Except ε β} {xs : List α} (h : ∀ x ∈ xs, ∃ y, f x = .ok y) :
    ∃ ys, xs.mapM f = .ok ys := by
  cases hm : xs.mapM f with
  | ok ys => exact ⟨ys, rfl⟩
  | error e =>
      obtain ⟨before, x, after, rfl, hx, -⟩ := mapM_eq_error_iff.1 hm
      obtain ⟨y, hy⟩ := h x (by simp)
      cases hx.symm.trans hy

theorem exists_of_forall₂ {R : α → β → Prop} {xs : List α} {ys : List β}
    (h : List.Forall₂ R xs ys) {x : α} (hx : x ∈ xs) : ∃ y ∈ ys, R x y := by
  induction h with
  | nil => cases hx
  | @cons a b xs ys hab _ ih =>
      rcases List.mem_cons.1 hx with rfl | hx
      · exact ⟨b, List.mem_cons_self, hab⟩
      · obtain ⟨y, hy, hr⟩ := ih hx
        exact ⟨y, List.mem_cons_of_mem b hy, hr⟩

end AtomArray.Traversal
