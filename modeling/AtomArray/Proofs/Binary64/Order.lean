import AtomArray.Proofs.Binary64.NotANumber
import Mathlib.Data.Prod.Lex

/-! The order of doubles other than NaN, as that of a key in a linear order. -/

namespace AtomArray.Binary64

open Float.Model (UnpackedFloat)
open Float.Model.UnpackedFloat

def signed : Sign → ℤ → ℤ
  | .positive, n => n
  | .negative, n => -n

/-- Where a value stands among the others: the infinities at the ends, zero in the middle, and the
rest by sign, exponent and mantissa. NaN stands nowhere, and its key is of no use. -/
def standing : UnpackedFloat → ℤ ×ₗ ℤ ×ₗ ℤ
  | .infinity s => toLex (signed s 2, toLex (0, 0))
  | .zero _ | .notANumber => toLex (0, toLex (0, 0))
  | .finite s m e _ => toLex (signed s 1, toLex (signed s e, signed s m))

theorem compare_toLex (a b c a' b' c' : ℤ) :
    compare (toLex (a, toLex (b, c))) (toLex (a', toLex (b', c'))) =
      (compare a a').then ((compare b b').then (compare c c')) := by
  rw [Prod.Lex.compare_def]
  change (compare a a').then (compare (toLex (b, c)) (toLex (b', c'))) = _
  rw [Prod.Lex.compare_def]
  rfl

theorem compare_neg (a b : ℤ) : compare (-a) (-b) = (compare a b).swap := by
  rw [Int.compare_swap]
  simp only [Int.compare_eq_ite_lt, neg_lt_neg_iff]

theorem compare_natCast (m n : ℕ) : compare (m : ℤ) (n : ℤ) = compare m n := by
  rw [Int.compare_eq_ite_lt, Nat.compare_eq_ite_lt]
  simp only [Nat.cast_lt]

variable {u v : UnpackedFloat}

/-- Values other than NaN compare as their keys do. -/
theorem compare_eq_standing (hu : u.isNaN = false) (hv : v.isNaN = false) :
    u.compare v = some (compare (standing u) (standing v)) := by
  cases u with
  | notANumber => cases hu
  | infinity s =>
      cases v with
      | notANumber => cases hv
      | infinity t => cases s <;> cases t <;> rfl
      | zero t => cases s <;> rfl
      | finite t n f hn =>
          rw [standing, standing, compare_toLex]
          cases s <;> cases t <;> rfl
  | zero s =>
      cases v with
      | notANumber => cases hv
      | infinity t => cases t <;> rfl
      | zero t => rfl
      | finite t n f hn =>
          rw [standing, standing, compare_toLex]
          cases t <;> rfl
  | finite s m e hm =>
      cases v with
      | notANumber => cases hv
      | infinity t =>
          rw [standing, standing, compare_toLex]
          cases s <;> cases t <;> rfl
      | zero t =>
          rw [standing, standing, compare_toLex]
          cases s <;> rfl
      | finite t n f hn =>
          rw [standing, standing, compare_toLex]
          cases s with
          | positive =>
              cases t with
              | positive =>
                  change _ = some ((compare e f).then (compare (m : ℤ) (n : ℤ)))
                  rw [compare_natCast]
                  rfl
              | negative => rfl
          | negative =>
              cases t with
              | positive => rfl
              | negative =>
                  change _ = some ((compare (-e) (-f)).then (compare (-(m : ℤ)) (-(n : ℤ))))
                  rw [compare_neg, compare_neg, compare_natCast, ← Ordering.swap_then]
                  rfl

theorem not_isNaN_of_compare {o : Ordering} (h : u.compare v = some o) :
    u.isNaN = false ∧ v.isNaN = false := by
  cases u with
  | notANumber => cases h
  | _ =>
      cases v with
      | notANumber => cases h
      | _ => exact ⟨rfl, rfl⟩

/-- Above zero no two values have one key. -/
theorem eq_of_standing_eq (hpos : standing (.zero .positive) < standing u)
    (h : standing u = standing v) : u = v := by
  cases u with
  | notANumber => exact absurd hpos (lt_irrefl _)
  | zero s => exact absurd hpos (lt_irrefl _)
  | infinity s =>
      cases s with
      | negative => simp [standing, signed, Prod.Lex.toLex_lt_toLex] at hpos
      | positive =>
          cases v with
          | infinity t => cases t <;> simp [standing, signed] at h ⊢
          | finite t n f hn => cases t <;> simp [standing, signed] at h
          | _ => simp [standing, signed] at h
  | finite s m e hm =>
      cases s with
      | negative => simp [standing, signed, Prod.Lex.toLex_lt_toLex] at hpos
      | positive =>
          cases v with
          | infinity t => cases t <;> simp [standing, signed] at h
          | finite t n f hn => cases t <;> simp_all [standing, signed]
          | _ => simp [standing, signed] at h

/-! The same on doubles. -/

variable {x y z : Float}

theorem lt_iff_standing (hx : x.isNaN = false) (hy : y.isNaN = false) :
    x < y ↔ standing x.toModel.unpack < standing y.toModel.unpack := by
  rw [lt_iff_unpack, UnpackedFloat.lt, compare_eq_standing hx hy, beq_iff_eq, Option.some.injEq,
    compare_lt_iff_lt]

theorem le_iff_standing (hx : x.isNaN = false) (hy : y.isNaN = false) :
    x ≤ y ↔ standing x.toModel.unpack ≤ standing y.toModel.unpack := by
  rw [le_iff_unpack, UnpackedFloat.le, compare_eq_standing hx hy, Option.any_some,
    ← Ordering.ne_gt_iff_isLE]
  exact compare_le_iff_le

theorem beq_iff_standing (hx : x.isNaN = false) (hy : y.isNaN = false) :
    (x == y) = true ↔ standing x.toModel.unpack = standing y.toModel.unpack := by
  change x.toModel.unpack.beq y.toModel.unpack = true ↔ _
  rw [UnpackedFloat.beq, compare_eq_standing hx hy, beq_iff_eq, Option.some.injEq,
    compare_eq_iff_eq]

theorem not_isNaN_of_le (h : x ≤ y) : x.isNaN = false ∧ y.isNaN = false := by
  rw [le_iff_unpack, UnpackedFloat.le, Option.any_eq_true] at h
  obtain ⟨o, hcompare, -⟩ := h
  exact not_isNaN_of_compare hcompare

theorem not_isNaN_of_lt (h : x < y) : x.isNaN = false ∧ y.isNaN = false := by
  rw [lt_iff_unpack, UnpackedFloat.lt, beq_iff_eq] at h
  exact not_isNaN_of_compare h

protected theorem lt_of_le_of_lt (hxy : x ≤ y) (hyz : y < z) : x < z := by
  obtain ⟨hx, hy⟩ := not_isNaN_of_le hxy
  obtain ⟨-, hz⟩ := not_isNaN_of_lt hyz
  rw [le_iff_standing hx hy] at hxy
  rw [lt_iff_standing hy hz] at hyz
  rw [lt_iff_standing hx hz]
  exact hxy.trans_lt hyz

/-- Positive doubles that compare equal are one. -/
theorem eq_of_beq_of_pos (hpos : 0 < x) (h : (x == y) = true) : x = y := by
  obtain ⟨hzero, hx⟩ := not_isNaN_of_lt hpos
  have hy : y.isNaN = false := by
    change (x.toModel.unpack.compare y.toModel.unpack == some .eq) = true at h
    exact (not_isNaN_of_compare (beq_iff_eq.1 h)).2
  rw [lt_iff_standing hzero hx] at hpos
  rw [beq_iff_standing hx hy] at h
  exact unpack_inj.1 (eq_of_standing_eq hpos h)

end AtomArray.Binary64
