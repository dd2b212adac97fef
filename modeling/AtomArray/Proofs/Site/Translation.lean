import AtomArray.Proofs.Binary64.Exact
import AtomArray.Proofs.Qubit.Data
import AtomArray.Proofs.Site.Finite
import AtomArray.Site.Ascending

/-! Moving sites by offsets: the laws of vectors that hold of sites, although each axis is a rounded
sum that may overflow. -/

namespace AtomArray

open Binary64

theorem Binary64.IsZero.eq_or {x : Float} (h : IsZero x) : x = 0 ∨ x = -0 := by
  obtain ⟨s, hs⟩ := h
  cases s with
  | positive => exact .inl (unpack_inj.1 hs)
  | negative => exact .inr (unpack_inj.1 hs)

theorem Binary64.same_sub_rev (x y : Float) : Same (-x + y) (-(x + -y)) := by
  have h := neg_add_neg x (-y)
  rwa [neg_neg_float] at h

namespace Site

open AxisValue (toAxis)

section Offsets

variable {α : Type} [AxisValue α]

/-- The axes of an offset as they are added to those of a site. -/
def offsetAxes (t : α × α × α) : List Float := [toAxis t.1, toAxis t.2.1, toAxis t.2.2]

/-- An offset in doubles. -/
def converted (t : α × α × α) : Float × Float × Float :=
  (toAxis t.1, toAxis t.2.1, toAxis t.2.2)

/-- No axis is rounded when the offset is added. -/
structure ExactSum (q : Site) (t : α × α × α) : Prop where
  x : Representable (value q.x + value (toAxis t.1))
  y : Representable (value q.y + value (toAxis t.2.1))
  z : Representable (value q.z + value (toAxis t.2.2))

/-- The laws of a site and an offset, with sites compared to nine decimals. -/
structure OffsetLaws (q : Site) (t : α × α × α) : Prop where
  sub_rev : (t - q == -(q - t)) = true
  sub_eq_add_neg : (q - t == q + -converted t) = true
  add_comm : (t + q == q + t) = true
  neg_neg : (- -q == q) = true
  add_sub_cancel : ExactSum q t → (q + t - t == q) = true

end Offsets

variable {q s : Site} {x y : Float}

/-- Rounding to nine decimals leaves one zero. -/
theorem roundAxis_of_same (h : Same x y) : roundAxis x = roundAxis y := by
  have hneg : roundAxis (-0) = roundAxis 0 := by decide +kernel
  have hzero : ∀ z, IsZero z → roundAxis z = roundAxis 0 := by
    intro z hz
    rcases hz.eq_or with rfl | rfl
    · rfl
    · exact hneg
  rcases h with rfl | ⟨hx, hy⟩
  · rfl
  · rw [hzero x hx, hzero y hy]

theorem beq_of_same (hx : Same q.x s.x) (hy : Same q.y s.y) (hz : Same q.z s.z) :
    (q == s) = true :=
  beq_iff_place_eq.2 (place_eq_iff.2
    ⟨roundAxis_of_same hx, roundAxis_of_same hy, roundAxis_of_same hz⟩)

variable {α : Type} [AxisValue α] {t : α × α × α}

/-- The offset less the site is the negated site and the offset, so the signs of both terms turn. -/
theorem sub_beq_neg_sub (q : Site) (t : α × α × α) : (t - q == -(q - t)) = true :=
  beq_of_same (same_sub_rev q.x (toAxis t.1)) (same_sub_rev q.y (toAxis t.2.1))
    (same_sub_rev q.z (toAxis t.2.2))

theorem neg_neg_beq (q : Site) : (- -q == q) = true :=
  beq_of_same (.inl (neg_neg_float q.x)) (.inl (neg_neg_float q.y)) (.inl (neg_neg_float q.z))

theorem add_sub_cancel_beq (hq : AllFinite q.axes) (ht : AllFinite (offsetAxes t))
    (h : ExactSum q t) : (q + t - t == q) = true := by
  have hx := add_sub_cancel_of_representable (hq q.x (by simp [axes]))
    (ht (toAxis t.1) (by simp [offsetAxes])) h.x
  have hy := add_sub_cancel_of_representable (hq q.y (by simp [axes]))
    (ht (toAxis t.2.1) (by simp [offsetAxes])) h.y
  have hz := add_sub_cancel_of_representable (hq q.z (by simp [axes]))
    (ht (toAxis t.2.2) (by simp [offsetAxes])) h.z
  exact beq_of_same hx hy hz

theorem offsetLaws (hq : AllFinite q.axes) (ht : AllFinite (offsetAxes t)) : OffsetLaws q t where
  sub_rev := sub_beq_neg_sub q t
  sub_eq_add_neg := beq_of_same (.inl rfl) (.inl rfl) (.inl rfl)
  add_comm := beq_of_same (.inl rfl) (.inl rfl) (.inl rfl)
  neg_neg := neg_neg_beq q
  add_sub_cancel := add_sub_cancel_beq hq ht

/-! Integers are finite doubles. -/

theorem allFinite_offsetAxes (h : ∀ n : α, (toAxis n).isFinite = true) (t : α × α × α) :
    AllFinite (offsetAxes t) := by
  intro x hx
  simp only [offsetAxes, List.mem_cons, List.not_mem_nil, or_false] at hx
  rcases hx with rfl | rfl | rfl <;> exact h _

theorem isFinite_int64 (n : Int64) : (toAxis n).isFinite = true := (Below.ofInt64 n).1

theorem isFinite_int32 (n : Int32) : (toAxis n).isFinite = true := (Below.ofInt64 n.toInt64).1

theorem isFinite_uint32 (n : UInt32) : (toAxis n).isFinite = true :=
  (rounded_toFloat n.toUInt64).finite

/-- The laws hold of all finite sites and offsets, whatever their sums come to, and integers are
such offsets. -/
theorem offsetLaws_of_finite (q : Site) (hq : AllFinite q.axes) :
    (∀ (α : Type) [AxisValue α] (t : α × α × α), AllFinite (offsetAxes t) → OffsetLaws q t) ∧
      (∀ t : Int64 × Int64 × Int64, OffsetLaws q t) ∧
      (∀ t : Int32 × Int32 × Int32, OffsetLaws q t) ∧
      ∀ t : UInt32 × UInt32 × UInt32, OffsetLaws q t :=
  ⟨fun _ _ _ ht => offsetLaws hq ht,
    fun t => offsetLaws hq (allFinite_offsetAxes isFinite_int64 t),
    fun t => offsetLaws hq (allFinite_offsetAxes isFinite_int32 t),
    fun t => offsetLaws hq (allFinite_offsetAxes isFinite_uint32 t)⟩

/-- A site whose first axis overflows, whose second is a negative zero and whose third is rounded
when it is moved far. -/
def edgeSite : Site := ⟨1.5e308, -0.0, 0.1⟩

theorem offsetLaws_of_finite_edge : AllFinite edgeSite.axes ∧
    (edgeSite + ((1.5e308, 0.0, 0.2) : Float × Float × Float)).x.isFinite = false ∧
    OffsetLaws edgeSite ((1.5e308, 0.0, 0.2) : Float × Float × Float) ∧
    OffsetLaws edgeSite ((-9223372036854775808, 1, 3) : Int64 × Int64 × Int64) ∧
    (edgeSite + ((-1.5e308, 0.25, 0.1) : Float × Float × Float) -
      ((-1.5e308, 0.25, 0.1) : Float × Float × Float) == edgeSite) = true := by
  have hfinite : AllFinite edgeSite.axes := by decide +kernel
  have hlaws := offsetLaws_of_finite edgeSite hfinite
  have hexact : ExactSum edgeSite ((-1.5e308, 0.25, 0.1) : Float × Float × Float) :=
    ⟨⟨0, by decide +kernel, by decide +kernel⟩, ⟨0.25, by decide +kernel, by decide +kernel⟩,
      ⟨0.2, by decide +kernel, by decide +kernel⟩⟩
  exact ⟨hfinite, by decide +kernel, hlaws.1 Float _ (by decide +kernel), hlaws.2.1 _,
    (hlaws.1 Float _ (by decide +kernel)).add_sub_cancel hexact⟩

end Site
end AtomArray
