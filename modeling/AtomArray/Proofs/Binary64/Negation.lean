import AtomArray.Proofs.Binary64
import AtomArray.Proofs.Binary64.Arithmetic

/-! The sign of a double: it is carried through sums and rounding, whatever they come to, and only
the sign of a zero is lost. -/

namespace AtomArray.Binary64

open Float.Model (Format UnpackedFloat)
open Float.Model.UnpackedFloat

variable {u v : UnpackedFloat} {s t : Sign} {m : ℕ} {e : ℤ}

theorem sign_neg_neg (s : Sign) : -(-s) = s := by cases s <;> rfl

theorem apply_neg (s : Sign) (n : ℤ) : (-s).apply n = -s.apply n := by
  cases s
  · exact (neg_neg n).symm
  · rfl

theorem neg_neg_unpacked (u : UnpackedFloat) : neg (neg u) = u := by
  cases u with
  | notANumber => rfl
  | infinity s => exact congrArg UnpackedFloat.infinity (sign_neg_neg s)
  | zero s => exact congrArg UnpackedFloat.zero (sign_neg_neg s)
  | finite s m e hm => simp only [neg, sign_neg_neg]

/-! Rounding looks at the size only. -/

theorem roundWithAccuracy_neg (s : Sign) (m : ℕ) (e : ℤ) (acc : Accuracy) :
    roundWithAccuracy .binary64 (-s) m e acc = neg (roundWithAccuracy .binary64 s m e acc) := by
  unfold roundWithAccuracy
  simp only
  split <;> rfl

theorem round_neg (s : Sign) (m : ℕ) (e : ℤ) :
    UnpackedFloat.round .binary64 (-s) m e = neg (UnpackedFloat.round .binary64 s m e) :=
  roundWithAccuracy_neg s _ _ _

theorem normalize_neg {n : ℤ} (hn : n ≠ 0) (e : ℤ) :
    UnpackedFloat.normalize .binary64 (-n) e .positive =
      neg (UnpackedFloat.normalize .binary64 n e .positive) := by
  rcases lt_or_gt_of_ne hn with hn | hn
  · have hneg : compare (-n) 0 = .gt := Int.compare_eq_gt.2 (by omega)
    have hpos : compare n 0 = .lt := Int.compare_eq_lt.2 hn
    simp only [UnpackedFloat.normalize, hneg, hpos]
    exact round_neg .negative _ _
  · have hneg : compare (-n) 0 = .lt := Int.compare_eq_lt.2 (by omega)
    have hpos : compare n 0 = .gt := Int.compare_eq_gt.2 hn
    simp only [UnpackedFloat.normalize, hneg, hpos, neg_neg]
    exact round_neg .positive _ _

/-- The sum of two negated values is the negated sum, or both sums are zero. -/
theorem add_neg_neg (u v : UnpackedFloat) :
    add .binary64 (neg u) (neg v) = neg (add .binary64 u v) ∨
      (∃ s, add .binary64 (neg u) (neg v) = .zero s) ∧ ∃ s, add .binary64 u v = .zero s := by
  have hzero : ∀ s t : Sign, ∃ r, add .binary64 (.zero s) (.zero t) = .zero r := by
    intro s t
    cases s <;> cases t <;> exact ⟨_, rfl⟩
  cases u with
  | notANumber => exact .inl rfl
  | infinity s =>
      cases v with
      | infinity t => cases s <;> cases t <;> exact .inl rfl
      | _ => exact .inl rfl
  | zero s =>
      cases v with
      | zero t => exact .inr ⟨hzero _ _, hzero s t⟩
      | _ => exact .inl rfl
  | finite s m e hm =>
      cases v with
      | finite t n f hn =>
          simp only [neg, add, apply_neg]
          rw [← neg_add]
          obtain ⟨a, ha⟩ : ∃ a, s.apply (decreaseExponent m e (min e f)).1 +
            t.apply (decreaseExponent n f (min e f)).1 = a := ⟨_, rfl⟩
          rw [ha]
          rcases eq_or_ne a 0 with rfl | hne
          · exact .inr ⟨⟨_, rfl⟩, ⟨_, rfl⟩⟩
          · exact .inl (normalize_neg hne _)
      | _ => exact .inl rfl

/-! Packing keeps the sign apart from the rest. -/

theorem unpack_packComponents_neg (s : Sign) (exponent : BitVec 11) (mantissa : BitVec 52) :
    unpack .binary64 (packComponents .binary64 (-s) exponent mantissa) =
      neg (unpack .binary64 (packComponents .binary64 s exponent mantissa)) := by
  simp only [unpack, unpackExponent_packComponents, unpackMantissa_packComponents,
    unpackSign_packComponents, Sign.ofBitVec_toBitVec]
  split_ifs <;> rfl

theorem unpack_pack_neg (u : UnpackedFloat) :
    unpack .binary64 (pack .binary64 (neg u)) = neg (unpack .binary64 (pack .binary64 u)) := by
  cases u with
  | notANumber => rfl
  | infinity s => exact unpack_packComponents_neg s _ _
  | zero s => exact unpack_packComponents_neg s _ _
  | finite s m e hm =>
      simp only [neg, pack]
      split_ifs
      · exact unpack_packComponents_neg s _ _
      · exact unpack_packComponents_neg s _ _
      · exact unpack_packComponents_neg s _ _

/-! The same on doubles. -/

variable {x y z : Float}

def IsZero (x : Float) : Prop := ∃ s, x.toModel.unpack = .zero s

/-- One double, or two zeros, which may differ in their sign. -/
def Same (x y : Float) : Prop := x = y ∨ IsZero x ∧ IsZero y

theorem neg_neg_float (x : Float) : -(-x) = x := by
  apply unpack_inj.1
  rw [unpack_neg, unpack_neg, neg_neg_unpacked]

theorem IsZero.neg (h : IsZero x) : IsZero (-x) := by
  obtain ⟨s, hs⟩ := h
  exact ⟨-s, by rw [unpack_neg, hs]; rfl⟩

/-- Negating both terms negates their sum, also where it overflows. -/
theorem neg_add_neg (x y : Float) : Same (-x + -y) (-(x + y)) := by
  have hneg := unpack_add (-x) (-y)
  rw [unpack_neg, unpack_neg] at hneg
  have hsum := unpack_add x y
  rcases add_neg_neg x.toModel.unpack y.toModel.unpack with h | ⟨⟨s, hs⟩, t, ht⟩
  · refine .inl (unpack_inj.1 ?_)
    rw [hneg, h, unpack_pack_neg, unpack_neg, hsum]
  · rw [hs, pack, unpack_packedZero] at hneg
    rw [ht, pack, unpack_packedZero] at hsum
    have hzero : IsZero (x + y) := ⟨t, hsum⟩
    exact .inr ⟨⟨s, hneg⟩, hzero.neg⟩

end AtomArray.Binary64
