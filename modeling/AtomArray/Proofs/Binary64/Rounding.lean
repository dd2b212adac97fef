import AtomArray.Proofs.Binary64.NotANumber

/-! Rounding: the number that a sum, a product or a quotient of doubles stands for, beside the
exact one. -/

namespace AtomArray.Binary64

open Float.Model (Format UnpackedFloat totalExponent)
open Float.Model.UnpackedFloat

/-- A natural number with what the accuracy says of the number it is cut off from. -/
inductive Truncates (q : ℚ) (m : ℕ) : Accuracy → Prop
  | exact : q = m → Truncates q m .exact
  | low : m < q → q < m + 1 / 2 → Truncates q m (.inexact .lt)
  | half : q = m + 1 / 2 → Truncates q m (.inexact .eq)
  | high : m + 1 / 2 < q → q < m + 1 → Truncates q m (.inexact .gt)

namespace Truncates

variable {q : ℚ} {m : ℕ} {acc : Accuracy} {em : ExtendedMantissa} {e t : ℤ}

theorem bounds (h : Truncates q m acc) : m ≤ q ∧ q < m + 1 := by
  cases h <;> constructor <;> linarith

/-- Rounding goes to a nearest natural number. -/
theorem nearest (h : Truncates q m acc) : |(acc.roundToNearestEven m : ℚ) - q| ≤ 1 / 2 := by
  rw [abs_le]
  cases h with
  | exact h => simp [Accuracy.roundToNearestEven, h]
  | low hlow hhigh => constructor <;> simp only [Accuracy.roundToNearestEven] <;> linarith
  | half h =>
      rcases Nat.mod_two_eq_zero_or_one m with hm | hm <;>
        simp only [Accuracy.roundToNearestEven, hm, h] <;> constructor <;> push_cast <;> linarith
  | high hlow hhigh =>
      constructor <;> simp only [Accuracy.roundToNearestEven] <;> push_cast <;> linarith

theorem ofMantissaAndAccuracy (h : Truncates q m acc) :
    Truncates q (ExtendedMantissa.ofMantissaAndAccuracy m acc).mantissa
      (ExtendedMantissa.ofMantissaAndAccuracy m acc).accuracy := by
  cases h with
  | exact h => exact .exact h
  | low hlow hhigh => exact .low hlow hhigh
  | half h => exact .half h
  | high hlow hhigh => exact .high hlow hhigh

theorem eq_of_exact (h : Truncates q m .exact) : q = m := by
  cases h
  assumption

theorem lt_of_inexact {o : Ordering} (h : Truncates q m (.inexact o)) : m < q := by
  cases h <;> linarith

/-- One step to the right halves the number: the lost digit becomes the round bit, and the round
bit goes into the sticky one. -/
theorem shiftRightOne (h : Truncates q em.mantissa em.accuracy) :
    Truncates (q / 2) em.shiftRightOne.mantissa em.shiftRightOne.accuracy := by
  obtain ⟨m, round, sticky⟩ := em
  have hcast : (m : ℚ) = 2 * (m / 2 : ℕ) + (m % 2 : ℕ) := by exact_mod_cast (by omega)
  have hupper := h.bounds.2
  by_cases hexact : (round || sticky) = false
  · obtain ⟨rfl, rfl⟩ := Bool.or_eq_false_iff.1 hexact
    have hq := eq_of_exact h
    rcases Nat.mod_two_eq_zero_or_one m with hm | hm <;> rw [hm] at hcast <;>
      simp only [ExtendedMantissa.shiftRightOne, hm] at hq ⊢
    · exact .exact (by push_cast at hcast; linarith)
    · exact .half (by push_cast at hcast; linarith)
  · have hlower : (m : ℚ) < q := by
      cases round <;> cases sticky
      · exact absurd rfl hexact
      all_goals exact lt_of_inexact h
    rw [Bool.not_eq_false] at hexact
    rcases Nat.mod_two_eq_zero_or_one m with hm | hm <;> rw [hm] at hcast <;>
      simp only [ExtendedMantissa.shiftRightOne, hm, hexact] at hupper ⊢
    · exact .low (by push_cast at hcast; linarith) (by push_cast at hcast; linarith)
    · exact .high (by push_cast at hcast; linarith) (by push_cast at hcast; linarith)

theorem shiftRight (h : Truncates q em.mantissa em.accuracy) (k : ℕ) :
    Truncates (q / 2 ^ k) (em >>> k).mantissa (em >>> k).accuracy := by
  induction k with
  | zero =>
      rw [pow_zero, div_one]
      exact h
  | succ k ih =>
      rw [pow_succ, ← div_div]
      exact ih.shiftRightOne

theorem shiftToTargetExponent (h : Truncates q m acc)
    (ht : Format.binary64.targetExponent (totalExponent m e) = t) (he : e ≤ t) :
    ∃ em, shiftToTargetExponent .binary64 m e acc = (em, t) ∧
      Truncates (q * 2 ^ (e - t)) em.mantissa em.accuracy := by
  have hshift : e - t = -((t - e).toNat : ℤ) := by omega
  refine ⟨ExtendedMantissa.ofMantissaAndAccuracy m acc >>> (t - e).toNat, ?_, ?_⟩
  · rw [Float.Model.UnpackedFloat.shiftToTargetExponent, ht, shiftToExponent]
    congr 1
    omega
  · rw [hshift, zpow_neg, zpow_natCast, ← div_eq_mul_inv]
    exact h.ofMantissaAndAccuracy.shiftRight _

/-- At its target exponent a number has 53 binary digits, or fewer at the least exponent. -/
theorem digits (h : Truncates q m acc)
    (ht : Format.binary64.targetExponent (totalExponent m e) = t) (he : e ≤ t) :
    (t = -1074 ∨ 2 ^ (t + 52) ≤ q * 2 ^ e) ∧ q * 2 ^ e < 2 ^ (t + 53) := by
  rw [targetExponent_eq, totalExponent] at ht
  obtain ⟨hlower, hupper⟩ := h.bounds
  have hpos : (0 : ℚ) < 2 ^ e := by positivity
  have hlog : ((m : ℚ) + 1) ≤ 2 ^ ((m.log2 : ℤ) + 1) := by
    exact_mod_cast Nat.lt_log2_self (n := m)
  constructor
  · by_cases hmin : t = -1074
    · exact .inl hmin
    · have hm : m ≠ 0 := by
        rintro rfl
        rw [Nat.log2_zero] at ht
        omega
      have hsum : t + 52 = m.log2 + e := by omega
      have hself : (2 : ℚ) ^ (m.log2 : ℤ) ≤ m := by exact_mod_cast Nat.log2_self_le hm
      refine .inr ?_
      rw [hsum, zpow_add₀ two_ne_zero]
      exact mul_le_mul_of_nonneg_right (hself.trans hlower) hpos.le
  · calc q * 2 ^ e < 2 ^ ((m.log2 : ℤ) + 1) * 2 ^ e :=
          mul_lt_mul_of_pos_right (hupper.trans_le hlog) hpos
      _ = 2 ^ ((m.log2 : ℤ) + 1 + e) := (zpow_add₀ two_ne_zero _ _).symm
      _ ≤ 2 ^ (t + 53) := zpow_le_zpow_right₀ (by norm_num) (by omega)

end Truncates

def signOf : Sign → ℚ
  | .negative => -1
  | .positive => 1

/-- An unpacked form that can be packed without loss, with the number it stands for. -/
inductive Stands : UnpackedFloat → ℚ → Prop
  | zero (s : Sign) : Stands (.zero s) 0
  | finite (s : Sign) (m : ℕ) (e : ℤ) (hm : 0 < m) : Fits m e →
      Stands (.finite s m e hm) (signOf s * (m * 2 ^ e))

section Packing

variable {x : Float} {u : UnpackedFloat} {r : ℚ} {s : Sign} {m : ℕ} {e : ℤ}

theorem value_of_zero (h : x.toModel.unpack = .zero s) : value x = 0 := by
  rw [value, units, (fields_of_zero h).1]
  simp

theorem cast_unitsPerOne : (unitsPerOne : ℚ) = 2 ^ ((1074 : ℕ) : ℤ) := by
  unfold unitsPerOne
  generalize 1074 = n
  rw [Nat.pow_eq, Nat.cast_pow, zpow_natCast, Nat.cast_ofNat]

theorem value_of_finite {hm : 0 < m} (h : x.toModel.unpack = .finite s m e hm) :
    value x = signOf s * (m * 2 ^ e) := by
  obtain ⟨hfits, hmagnitude, hnegative⟩ := fields_of_finite h
  have hlow := hfits.low
  have hscale : (magnitude x : ℚ) / unitsPerOne = m * 2 ^ e := by
    have hexponent : e = (e + 1074).toNat - (1074 : ℕ) := by omega
    rw [hmagnitude, cast_unitsPerOne, Nat.cast_mul, Nat.cast_pow, Nat.cast_ofNat, mul_div_assoc,
      ← zpow_natCast (2 : ℚ) (e + 1074).toNat, ← zpow_sub₀ two_ne_zero, ← hexponent]
  rw [value, units, hnegative, ← hscale]
  cases s
  · change ((-magnitude x : ℤ) : ℚ) / _ = -1 * _
    rw [Int.cast_neg, Int.cast_natCast, neg_div, neg_one_mul]
  · change ((magnitude x : ℤ) : ℚ) / _ = 1 * _
    rw [Int.cast_natCast, one_mul]

theorem Stands.value_eq (h : Stands u r)
    (hx : x.toModel.unpack = unpack .binary64 (pack .binary64 u)) :
    x.isFinite = true ∧ value x = r := by
  cases h with
  | zero s =>
      rw [pack, unpack_packedZero] at hx
      exact ⟨isFinite_of_zero hx, value_of_zero hx⟩
  | finite s m e hm hfits =>
      rw [unpack_pack s hm hfits] at hx
      exact ⟨isFinite_of_finite hx, value_of_finite hx⟩

end Packing

/-- Rounding to 53 binary digits may carry into a 54th one, which is then zero. -/
theorem stands_of_carry {n : ℕ} {t : ℤ} (s : Sign) (hle : n ≤ 2 ^ 53) (hlow : -1074 ≤ t)
    (hhigh : t ≤ 970) (hnormal : t = -1074 ∨ 2 ^ 52 ≤ n) :
    Stands (if h : (shiftToTargetExponent .binary64 n t .exact).1.mantissa = 0 then .zero s
      else .finite s (shiftToTargetExponent .binary64 n t .exact).1.mantissa
        (shiftToTargetExponent .binary64 n t .exact).2 (Nat.pos_of_ne_zero h))
      (signOf s * (n * 2 ^ t)) := by
  obtain rfl | hpos := Nat.eq_zero_or_pos n
  · obtain rfl := hnormal.resolve_right (by decide)
    rw [dif_pos (by rfl), Nat.cast_zero, zero_mul, mul_zero]
    exact .zero s
  · obtain hlt | heq := hle.lt_or_eq
    · have hfits : Fits n t := ⟨hlt, hlow, by omega, hnormal.symm⟩
      have hshift := shiftToTargetExponent_exact hpos hfits 0
      rw [pow_zero, mul_one, Nat.cast_zero, sub_zero] at hshift
      rw [hshift, dif_neg hpos.ne']
      exact .finite s n t hpos hfits
    · have hfits : Fits (2 ^ 52) (t + 1) := ⟨by decide, by omega, by omega, .inl le_rfl⟩
      have hshift := shiftToTargetExponent_exact (by decide) hfits 1
      have hcarry : n = 2 ^ 52 * 2 ^ 1 := heq.trans (by norm_num)
      have hvalue :
          ((2 ^ 52 * 2 ^ 1 : ℕ) : ℚ) * 2 ^ t = ((2 ^ 52 : ℕ) : ℚ) * 2 ^ (t + 1) := by
        rw [zpow_add₀ two_ne_zero, Nat.cast_mul]
        push_cast
        ring
      subst hcarry
      rw [Nat.cast_one, add_sub_cancel_right] at hshift
      have hne : (2 ^ 52 : ℕ) ≠ 0 := by decide
      rw [hshift, dif_neg hne, hvalue]
      exact .finite s _ _ (Nat.pos_of_ne_zero hne) hfits

/-- A double that stands for `r` to 53 binary digits: a multiple `n` of a unit that is a power of
two, off by no more than half a unit. -/
structure RoundedAt (r : ℚ) (x : Float) (n t : ℤ) : Prop where
  finite : x.isFinite = true
  value_eq : value x = n * 2 ^ t
  near : |value x - r| ≤ 2 ^ (t - 1)
  low : -1074 ≤ t
  normal : t = -1074 ∨ 2 ^ (t + 52) ≤ |r|
  lt : |r| < 2 ^ (t + 53)

def Rounded (r : ℚ) (x : Float) : Prop := ∃ n t, RoundedAt r x n t

section Results

variable {x : Float} {q : ℚ} {s : Sign} {m : ℕ} {e t : ℤ} {acc : Accuracy}

theorem abs_signOf (s : Sign) : |signOf s| = 1 := by cases s <;> simp [signOf]

theorem signOf_apply (s : Sign) (n : ℤ) : ((s.apply n : ℤ) : ℚ) = signOf s * n := by
  cases s <;> simp [signOf, Sign.apply]

theorem le_of_near {n N : ℕ} (h : |(n : ℚ) - q| ≤ 1 / 2) (hlt : q < N) : n ≤ N := by
  have hcast : (n : ℚ) < N + 1 := by linarith [(abs_le.1 h).2]
  exact Nat.lt_succ_iff.1 (by exact_mod_cast hcast)

theorem ge_of_near {n N : ℕ} (h : |(n : ℚ) - q| ≤ 1 / 2) (hle : N ≤ q) : N ≤ n := by
  have hcast : (N : ℚ) < n + 1 := by linarith [(abs_le.1 h).1]
  exact Nat.lt_succ_iff.1 (by exact_mod_cast hcast)

theorem Truncates.stands_round (s : Sign) (h : Truncates q m acc)
    (ht : Format.binary64.targetExponent (totalExponent m e) = t) (he : e ≤ t)
    (hlt : q * 2 ^ e < 2 ^ (1023 : ℤ)) :
    ∃ n : ℕ, Stands (roundWithAccuracy .binary64 s m e acc) (signOf s * (n * 2 ^ t)) ∧
      |(n : ℚ) - q * 2 ^ (e - t)| ≤ 1 / 2 := by
  obtain ⟨em, hshift, hem⟩ := h.shiftToTargetExponent ht he
  obtain ⟨hnormal, hupper⟩ := h.digits ht he
  have hhigh : t ≤ 970 := by
    rcases hnormal with rfl | hcut
    · decide
    · have := (zpow_lt_zpow_iff_right₀ one_lt_two).1 (hcut.trans_lt hlt)
      omega
  have hpos : (0 : ℚ) < 2 ^ t := by positivity
  have hunit : q * 2 ^ e = 2 ^ t * (q * 2 ^ (e - t)) := by
    rw [mul_left_comm, ← zpow_add₀ two_ne_zero, add_sub_cancel]
  rw [hunit, zpow_add₀ two_ne_zero] at hnormal hupper
  have hnear := hem.nearest
  have hle := le_of_near (N := 2 ^ 53) hnear
    (by exact_mod_cast lt_of_mul_lt_mul_left hupper hpos.le)
  have hcarry := hnormal.imp_right fun hcut => ge_of_near (N := 2 ^ 52) hnear
    (by exact_mod_cast le_of_mul_le_mul_left hcut hpos)
  refine ⟨em.roundedMantissa, ?_, hnear⟩
  rw [roundWithAccuracy, hshift]
  exact stands_of_carry s hle (ht ▸ le_max_right _ _) hhigh hcarry

theorem rounded_of_truncates (h : Truncates q m acc)
    (he : e ≤ Format.binary64.targetExponent (totalExponent m e))
    (hlt : q * 2 ^ e < 2 ^ (1023 : ℤ)) (hx : x.toModel.unpack =
      unpack .binary64 (pack .binary64 (roundWithAccuracy .binary64 s m e acc))) :
    Rounded (signOf s * (q * 2 ^ e)) x := by
  obtain ⟨t, ht⟩ : ∃ t, Format.binary64.targetExponent (totalExponent m e) = t := ⟨_, rfl⟩
  rw [ht] at he
  obtain ⟨n, hstands, hnear⟩ := h.stands_round s ht he hlt
  obtain ⟨hnormal, hupper⟩ := h.digits ht he
  obtain ⟨hfinite, hvalue⟩ := hstands.value_eq hx
  have hpos : (0 : ℚ) < 2 ^ t := by positivity
  have hunit : q * 2 ^ e = q * 2 ^ (e - t) * 2 ^ t := by
    rw [mul_assoc, ← zpow_add₀ two_ne_zero, sub_add_cancel]
  have hsize : |signOf s * (q * 2 ^ e)| = q * 2 ^ e := by
    rw [abs_mul, abs_signOf, one_mul, abs_of_nonneg]
    exact mul_nonneg ((Nat.cast_nonneg m).trans h.bounds.1) (by positivity)
  rw [← hsize] at hnormal hupper
  refine ⟨s.apply n, t, hfinite, ?_, ?_, ht ▸ le_max_right _ _, hnormal, hupper⟩
  · rw [hvalue, signOf_apply, Int.cast_natCast, mul_assoc]
  · rw [hvalue, ← mul_sub, abs_mul, abs_signOf, one_mul, hunit, ← sub_mul, abs_mul,
      abs_of_pos hpos, zpow_sub_one₀ two_ne_zero, mul_comm]
    exact mul_le_mul_of_nonneg_left (by linarith) hpos.le

theorem rounded_zero (hx : x.toModel.unpack = unpack .binary64 (pack .binary64 (.zero s))) :
    Rounded 0 x := by
  have h : x.toModel.unpack = .zero s := by rw [hx, pack, unpack_packedZero]
  refine ⟨0, -1074, isFinite_of_zero h, ?_, ?_, le_rfl, .inl rfl, ?_⟩
  · rw [value_of_zero h, Int.cast_zero, zero_mul]
  · rw [value_of_zero h, sub_zero, abs_zero]
    positivity
  · rw [abs_zero]
    positivity

/-- A double is itself rounded. -/
theorem rounded_value (h : x.isFinite = true) : Rounded (value x) x := by
  rcases finite_cases h with ⟨s, hzero⟩ | ⟨s, m, e, hm, hfinite⟩
  · rw [value_of_zero hzero]
    exact rounded_zero (by rw [hzero, pack, unpack_packedZero])
  · obtain ⟨hlt, hlow, -, hnormal⟩ := (fields_of_finite hfinite).1
    have hvalue := value_of_finite hfinite
    have hpos : (0 : ℚ) < 2 ^ e := by positivity
    have hsize : |value x| = 2 ^ e * m := by
      rw [hvalue, abs_mul, abs_signOf, one_mul, abs_of_nonneg (by positivity), mul_comm]
    refine ⟨s.apply m, e, h, ?_, ?_, hlow, ?_, ?_⟩
    · rw [hvalue, signOf_apply, Int.cast_natCast, mul_assoc]
    · rw [sub_self, abs_zero]
      positivity
    · refine hnormal.symm.imp_right fun hnormal => ?_
      rw [hsize, zpow_add₀ two_ne_zero]
      exact mul_le_mul_of_nonneg_left (by exact_mod_cast hnormal) hpos.le
    · rw [hsize, zpow_add₀ two_ne_zero]
      exact mul_lt_mul_of_pos_left (by exact_mod_cast hlt) hpos

end Results

namespace Rounded

variable {x : Float} {r : ℚ} {k : ℤ}

theorem finite (h : Rounded r x) : x.isFinite = true := by
  obtain ⟨n, t, h⟩ := h
  exact h.finite

theorem congr {y : Float} (h : Rounded r x) (hfinite : y.isFinite = true)
    (hvalue : value y = value x) : Rounded r y := by
  obtain ⟨n, t, h⟩ := h
  exact ⟨n, t, hfinite, hvalue.trans h.value_eq, hvalue ▸ h.near, h.low, h.normal, h.lt⟩

theorem neg (h : Rounded r x) : Rounded (-r) (-x) := by
  obtain ⟨n, t, h⟩ := h
  obtain ⟨hfinite, hvalue⟩ := value_neg h.finite
  refine ⟨-n, t, hfinite, ?_, ?_, h.low, ?_, ?_⟩
  · rw [hvalue, h.value_eq, Int.cast_neg, neg_mul]
  · rw [hvalue, ← neg_sub', abs_neg]
    exact h.near
  · rw [abs_neg]
    exact h.normal
  · rw [abs_neg]
    exact h.lt

/-- Below a power of two the error is at most half the unit that goes with it. -/
theorem abs_sub_le (h : Rounded r x) (hr : |r| < 2 ^ k) (hk : -1021 ≤ k) :
    |value x - r| ≤ 2 ^ (k - 54) := by
  obtain ⟨n, t, h⟩ := h
  refine h.near.trans (zpow_le_zpow_right₀ one_le_two ?_)
  rcases h.normal with rfl | hnormal
  · omega
  · have := (zpow_lt_zpow_iff_right₀ one_lt_two).1 (hnormal.trans_lt hr)
    omega

/-- From a power of two on the value is a multiple of the unit that goes with it. -/
theorem exists_multiple (h : Rounded r x) (hr : 2 ^ k ≤ |r|) :
    ∃ n : ℤ, value x = n * 2 ^ (k - 52) := by
  obtain ⟨n, t, h⟩ := h
  have hlt := (zpow_lt_zpow_iff_right₀ one_lt_two).1 (hr.trans_lt h.lt)
  obtain ⟨j, hj⟩ : ∃ j : ℕ, t = k - 52 + j := ⟨(t - (k - 52)).toNat, by omega⟩
  refine ⟨n * 2 ^ j, ?_⟩
  rw [h.value_eq, hj, zpow_add₀ two_ne_zero, zpow_natCast]
  push_cast
  ring

/-- Multiples of a power of two with no more than 53 binary digits are not changed. -/
theorem value_eq {i : ℤ} (h : Rounded r x) (heq : r = i * 2 ^ k) (hk : -1074 ≤ k)
    (hr : |r| < 2 ^ (k + 53)) : value x = r := by
  obtain ⟨n, t, h⟩ := h
  have ht : t ≤ k := by
    rcases h.normal with rfl | hnormal
    · exact hk
    · have := (zpow_lt_zpow_iff_right₀ one_lt_two).1 (hnormal.trans_lt hr)
      omega
  obtain ⟨j, rfl⟩ : ∃ j : ℕ, k = t + j := ⟨(k - t).toNat, by omega⟩
  have hpos : (0 : ℚ) < 2 ^ t := by positivity
  have hr' : r = (i * 2 ^ j : ℤ) * 2 ^ t := by
    rw [heq, zpow_add₀ two_ne_zero, zpow_natCast]
    push_cast
    ring
  have hnear := h.near
  rw [h.value_eq, hr', ← sub_mul, abs_mul, abs_of_pos hpos, zpow_sub_one₀ two_ne_zero,
    mul_comm] at hnear
  have hsame : |n - i * 2 ^ j| < 1 := by
    have hhalf := le_of_mul_le_mul_left hnear hpos
    have hlt : |(n : ℚ) - (i * 2 ^ j : ℤ)| < 1 := by linarith
    exact_mod_cast hlt
  rw [h.value_eq, hr', sub_eq_zero.1 (Int.abs_lt_one_iff.1 hsame)]

end Rounded

end AtomArray.Binary64
