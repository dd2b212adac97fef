import AtomArray.Proofs.Binary64.Negation

/-! Sums that a double can hold: nothing of them is rounded, up to the largest double. -/

namespace AtomArray.Binary64

open Float.Model (Format UnpackedFloat totalExponent)
open Float.Model.UnpackedFloat

variable {x y z : Float} {s t : Sign} {m n : ℕ} {a e f : ℤ} {r : ℚ}

/-- Numbers that a finite double stands for. -/
def Representable (r : ℚ) : Prop := ∃ x : Float, x.isFinite = true ∧ value x = r

/-! One number has one significand and exponent among those that fit. -/

theorem mul_two_pow_of_le (he : e ≤ f) (heq : (m : ℚ) * 2 ^ e = n * 2 ^ f) :
    m = n * 2 ^ (f - e).toNat := by
  obtain ⟨j, rfl⟩ : ∃ j : ℕ, f = e + j := ⟨(f - e).toNat, by omega⟩
  have hpos : (2 : ℚ) ^ e ≠ 0 := by positivity
  rw [zpow_add₀ two_ne_zero, mul_left_comm, mul_comm] at heq
  have hcast := mul_left_cancel₀ hpos heq
  rw [add_sub_cancel_left, Int.toNat_natCast]
  exact_mod_cast hcast

theorem totalExponent_of_le (hn : 0 < n) (he : e ≤ f) (heq : (m : ℚ) * 2 ^ e = n * 2 ^ f) :
    totalExponent m e = totalExponent n f := by
  rw [mul_two_pow_of_le he heq, totalExponent, totalExponent, log2_mul_two_pow hn]
  push_cast
  omega

theorem totalExponent_eq (hm : 0 < m) (hn : 0 < n) (heq : (m : ℚ) * 2 ^ e = n * 2 ^ f) :
    totalExponent m e = totalExponent n f := by
  rcases le_total e f with he | he
  · exact totalExponent_of_le hn he heq
  · exact (totalExponent_of_le hm he heq.symm).symm

theorem Fits.unique (hm : 0 < m) (hn : 0 < n) (h : Fits m e) (h' : Fits n f)
    (heq : (m : ℚ) * 2 ^ e = n * 2 ^ f) : m = n ∧ e = f := by
  have htotal := totalExponent_eq hm hn heq
  have hexponent : e = f := by
    rw [← h.targetExponent hm, ← h'.targetExponent hn, htotal]
  subst hexponent
  have hsame := mul_two_pow_of_le le_rfl heq
  rw [sub_self, Int.toNat_zero, pow_zero, mul_one] at hsame
  exact ⟨hsame, rfl⟩

theorem signOf_mul_inj (hm : 0 < m) (hn : 0 < n)
    (heq : signOf s * (m * 2 ^ e) = signOf t * (n * 2 ^ f)) :
    s = t ∧ (m : ℚ) * 2 ^ e = n * 2 ^ f := by
  have hpos : (0 : ℚ) < m * 2 ^ e := by positivity
  have hpos' : (0 : ℚ) < n * 2 ^ f := by positivity
  cases s <;> cases t <;> simp only [signOf] at heq
  · exact ⟨rfl, by linarith⟩
  · linarith
  · linarith
  · exact ⟨rfl, by linarith⟩

theorem value_ne_zero {hm : 0 < m} (h : x.toModel.unpack = .finite s m e hm) : value x ≠ 0 := by
  have hpos : (0 : ℚ) < m * 2 ^ e := by positivity
  rw [value_of_finite h]
  cases s <;> simp only [signOf] <;> linarith

/-- A number tells a double, but for the sign of a zero. -/
theorem same_of_value_eq (hx : x.isFinite = true) (hy : y.isFinite = true)
    (h : value x = value y) : Same x y := by
  rcases finite_cases hx with ⟨s, hx'⟩ | ⟨s, m, e, hm, hx'⟩ <;>
    rcases finite_cases hy with ⟨t, hy'⟩ | ⟨t, n, f, hn, hy'⟩
  · exact .inr ⟨⟨s, hx'⟩, ⟨t, hy'⟩⟩
  · exact absurd (h.symm.trans (value_of_zero hx')) (value_ne_zero hy')
  · exact absurd (h.trans (value_of_zero hy')) (value_ne_zero hx')
  · rw [value_of_finite hx', value_of_finite hy'] at h
    obtain ⟨rfl, hsize⟩ := signOf_mul_inj hm hn h
    obtain ⟨rfl, rfl⟩ :=
      (fields_of_finite hx').1.unique hm hn (fields_of_finite hy').1 hsize
    exact .inl (unpack_inj.1 (hx'.trans hy'.symm))

/-! Rounding what can be held. -/

theorem round_of_fits (s : Sign) (hm : 0 < m) (hn : 0 < n) (h : Fits n f)
    (heq : (m : ℚ) * 2 ^ e = n * 2 ^ f) : round .binary64 s m e = .finite s n f hn := by
  have htarget : Format.binary64.targetExponent (totalExponent m e) = f := by
    rw [totalExponent_eq hm hn heq, h.targetExponent hn]
  obtain ⟨k, hk⟩ : ∃ k : ℕ, (e - f).toNat = k := ⟨_, rfl⟩
  obtain ⟨j, hj⟩ : ∃ j : ℕ, e - k = f - j := ⟨(f - (e - k)).toNat, by omega⟩
  have hshifted : m * 2 ^ k = n * 2 ^ j := by
    have hle : e - k ≤ f := by omega
    have hvalue : ((m * 2 ^ k : ℕ) : ℚ) * 2 ^ (e - k) = n * 2 ^ f := by
      rw [← heq, Nat.cast_mul, Nat.cast_pow, Nat.cast_ofNat, mul_assoc, ← zpow_natCast,
        ← zpow_add₀ two_ne_zero, add_sub_cancel]
    have hdiff : (f - (e - k)).toNat = j := by omega
    rw [mul_two_pow_of_le hle hvalue, hdiff]
  rw [Float.Model.UnpackedFloat.round]
  simp only [htarget, decreaseExponent, hk, Nat.shiftLeft_eq, hshifted, hj]
  exact roundWithAccuracy_exact s hn h j

theorem normalize_of_fits (hm : 0 < m) (h : Fits m f)
    (heq : (a : ℚ) * 2 ^ e = signOf s * (m * 2 ^ f)) :
    UnpackedFloat.normalize .binary64 a e .positive = .finite s m f hm := by
  have hpos : (0 : ℚ) < m * 2 ^ f := by positivity
  have hunit : (0 : ℚ) < 2 ^ e := by positivity
  cases s with
  | negative =>
      have hlt : a < 0 := by
        have : (a : ℚ) * 2 ^ e < 0 := by rw [heq, signOf]; linarith
        exact_mod_cast neg_of_mul_neg_left this hunit.le
      obtain ⟨k, rfl⟩ : ∃ k : ℕ, a = -k := ⟨(-a).toNat, by omega⟩
      have hsize : (k : ℚ) * 2 ^ e = m * 2 ^ f := by
        rw [signOf] at heq
        push_cast at heq
        linarith
      have hcompare : compare (-(k : ℤ)) 0 = .lt := Int.compare_eq_lt.2 hlt
      simp only [UnpackedFloat.normalize, hcompare, neg_neg, Int.toNat_natCast]
      exact round_of_fits .negative (by omega) hm h hsize
  | positive =>
      have hlt : 0 < a := by
        have : 0 < (a : ℚ) * 2 ^ e := by rw [heq, signOf]; linarith
        exact_mod_cast pos_of_mul_pos_left this hunit.le
      obtain ⟨k, rfl⟩ : ∃ k : ℕ, a = k := ⟨a.toNat, by omega⟩
      have hsize : (k : ℚ) * 2 ^ e = m * 2 ^ f := by
        rw [signOf, one_mul] at heq
        exact_mod_cast heq
      have hcompare : compare (k : ℤ) 0 = .gt := Int.compare_eq_gt.2 hlt
      simp only [UnpackedFloat.normalize, hcompare, Int.toNat_natCast]
      exact round_of_fits .positive (by omega) hm h hsize

theorem stands_normalize (hz : z.isFinite = true) (heq : (a : ℚ) * 2 ^ e = value z) :
    Stands (UnpackedFloat.normalize .binary64 a e .positive) (value z) := by
  rcases finite_cases hz with ⟨s, hz'⟩ | ⟨s, m, f, hm, hz'⟩
  · have hunit : (2 : ℚ) ^ e ≠ 0 := by positivity
    rw [value_of_zero hz'] at heq ⊢
    obtain rfl : a = 0 := by exact_mod_cast (mul_eq_zero.1 heq).resolve_right hunit
    exact .zero .positive
  · have hfits := (fields_of_finite hz').1
    rw [value_of_finite hz'] at heq ⊢
    rw [normalize_of_fits hm hfits heq]
    exact .finite s m f hm hfits

/-- A sum that a double can hold is that double, also where it reaches the largest ones. -/
theorem value_add_of_representable (hx : x.isFinite = true) (hy : y.isFinite = true)
    (h : Representable (value x + value y)) :
    (x + y).isFinite = true ∧ value (x + y) = value x + value y := by
  obtain ⟨z, hz, hvalue⟩ := h
  have hadd := unpack_add x y
  rcases finite_cases hx with ⟨s, hx'⟩ | ⟨s, m, e, hm, hx'⟩ <;>
    rcases finite_cases hy with ⟨t, hy'⟩ | ⟨t, n, f, hn, hy'⟩ <;> rw [hx', hy'] at hadd <;>
    simp only [add] at hadd
  · rw [value_of_zero hx', value_of_zero hy', add_zero]
    split_ifs at hadd
    · exact (Stands.zero _).value_eq hadd
    · exact (Stands.zero _).value_eq hadd
  · rw [value_of_zero hx', zero_add, value_of_finite hy']
    exact (Stands.finite t n f hn (fields_of_finite hy').1).value_eq hadd
  · rw [value_of_zero hy', add_zero, value_of_finite hx']
    exact (Stands.finite s m e hm (fields_of_finite hx').1).value_eq hadd
  · rw [← hvalue]
    have hexact := (hvalue.trans (value_add_value hx' hy')).symm
    exact (stands_normalize hz hexact).value_eq hadd

/-- Taking away again what was added gives back the first number, when the sum is held exactly. -/
theorem add_sub_cancel_of_representable (hx : x.isFinite = true) (hy : y.isFinite = true)
    (h : Representable (value x + value y)) : Same (x + y + -y) x := by
  obtain ⟨hsum, hvalue⟩ := value_add_of_representable hx hy h
  obtain ⟨hneg, hvalue'⟩ := value_neg hy
  have hback : value (x + y) + value (-y) = value x := by
    rw [hvalue, hvalue', add_neg_cancel_right]
  have hexact : Representable (value (x + y) + value (-y)) := ⟨x, hx, hback.symm⟩
  obtain ⟨hfinite, hlast⟩ := value_add_of_representable hsum hneg hexact
  exact same_of_value_eq hfinite hx (hlast.trans hback)

end AtomArray.Binary64
