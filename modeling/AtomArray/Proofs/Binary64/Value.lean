import AtomArray.Proofs.Binary64.Unpacked

/-! The number that a finite double stands for, and its exact halves and quarters. -/

namespace AtomArray.Binary64

open Float.Model (Format UnpackedFloat)
open Float.Model.UnpackedFloat

@[irreducible] def unitsPerOne : ℕ := Nat.pow 2 1074

/-- The signed size of a finite double in units of `2 ^ (-1074)`. -/
def units (x : Float) : ℤ := if isNegative x then -magnitude x else magnitude x

/-- The number that a finite double stands for; the infinities and NaN stand for none. -/
def value (x : Float) : ℚ := units x / unitsPerOne

variable {x y : Float} {s : Sign} {m j : ℕ} {e : ℤ}

theorem unitsPerOne_pos : 0 < unitsPerOne := by decide +kernel

theorem abs_value : |value x| = magnitude x / unitsPerOne := by
  have hpos : (0 : ℚ) < unitsPerOne := by exact_mod_cast unitsPerOne_pos
  have hunits : |units x| = magnitude x := by
    unfold units
    split_ifs <;> simp
  rw [value, abs_div, abs_of_pos hpos, ← Int.cast_abs, hunits]
  rfl

theorem fields_of_zero (h : x.toModel.unpack = .zero s) :
    magnitude x = 0 ∧ isNegative x = (s == .negative) := by
  have hx := unpacked x
  rw [h] at hx
  cases hx with
  | zero _ hmagnitude hsign => exact ⟨hmagnitude, hsign⟩

theorem fields_of_finite {hm : 0 < m} (h : x.toModel.unpack = .finite s m e hm) :
    Fits m e ∧ magnitude x = m * 2 ^ (e + 1074).toNat ∧ isNegative x = (s == .negative) := by
  have hx := unpacked x
  rw [h] at hx
  cases hx with
  | finite _ _ _ _ hfits hmagnitude hsign => exact ⟨hfits, hmagnitude, hsign⟩

theorem finite_cases (h : x.isFinite = true) :
    (∃ s, x.toModel.unpack = .zero s) ∨
      ∃ s m e, ∃ hm : 0 < m, x.toModel.unpack = .finite s m e hm := by
  change x.toModel.unpack.isFinite = true at h
  cases hx : x.toModel.unpack with
  | notANumber => simp [hx, UnpackedFloat.isFinite] at h
  | infinity s => simp [hx, UnpackedFloat.isFinite] at h
  | zero s => exact .inl ⟨s, rfl⟩
  | finite s m e hm => exact .inr ⟨s, m, e, hm, rfl⟩

theorem isFinite_of_zero (h : x.toModel.unpack = .zero s) : x.isFinite = true := by
  change x.toModel.unpack.isFinite = true
  rw [h]
  rfl

theorem isFinite_of_finite {hm : 0 < m} (h : x.toModel.unpack = .finite s m e hm) :
    x.isFinite = true := by
  change x.toModel.unpack.isFinite = true
  rw [h]
  rfl

/-- A multiple of a power of two divided by it is again the size of a double. -/
theorem exists_fits_div (hm : 0 < m) (h : Fits m e) (hdvd : 2 ^ j ∣ m * 2 ^ (e + 1074).toNat) :
    ∃ n f, 0 < n ∧ Fits n f ∧ m * 2 ^ (e + 1074).toNat = n * 2 ^ (f + 1074).toNat * 2 ^ j := by
  obtain ⟨hlt, hlow, hhigh, hnormal⟩ := h
  by_cases hexponent : -1074 ≤ e - j
  · refine ⟨m, e - j, hm, ⟨hlt, hexponent, by omega, ?_⟩, ?_⟩
    · rcases hnormal with hnormal | rfl
      · exact .inl hnormal
      · exact .inr (by omega)
    · have hsum : (e + 1074).toNat = (e - j + 1074).toNat + j := by omega
      rw [mul_assoc, ← pow_add, hsum]
  · obtain ⟨n, hn⟩ := hdvd
    have hpos : 0 < n := by
      apply Nat.pos_of_ne_zero
      rintro rfl
      have : 0 < m * 2 ^ (e + 1074).toNat := by positivity
      omega
    have hle : n ≤ m := by
      have hpow : 2 ^ (e + 1074).toNat ≤ 2 ^ j := Nat.pow_le_pow_right (by decide) (by omega)
      have hmul : 2 ^ j * n ≤ 2 ^ j * m := by
        rw [← hn, mul_comm]
        exact Nat.mul_le_mul_right m hpow
      exact Nat.le_of_mul_le_mul_left hmul (by positivity)
    refine ⟨n, -1074, hpos, ⟨hle.trans_lt hlt, le_refl _, by decide, .inr rfl⟩, ?_⟩
    rw [hn]
    change 2 ^ j * n = n * 2 ^ 0 * 2 ^ j
    ring

/-- Division by a power of two rounds nothing as long as the size is a multiple of it. -/
theorem div_exact (hy : y.toModel.unpack = .finite .positive (2 ^ 52) (j - 52) (by positivity))
    (hj : j ≤ 52) (hx : x.isFinite = true) (hdvd : 2 ^ j ∣ magnitude x) :
    (x / y).isFinite = true ∧ magnitude x = magnitude (x / y) * 2 ^ j ∧
      isNegative (x / y) = isNegative x := by
  have hdiv := unpack_div x y
  rcases finite_cases hx with ⟨s, hzero⟩ | ⟨s, m, e, hm, hfinite⟩
  · have hsign : s / Sign.positive = s := by cases s <;> rfl
    rw [hzero, hy] at hdiv
    simp only [div, hsign, pack, unpack_packedZero] at hdiv
    obtain ⟨hmagnitude, hnegative⟩ := fields_of_zero hzero
    obtain ⟨hmagnitude', hnegative'⟩ := fields_of_zero hdiv
    refine ⟨isFinite_of_zero hdiv, ?_, hnegative'.trans hnegative.symm⟩
    rw [hmagnitude, hmagnitude', Nat.zero_mul]
  · obtain ⟨hfits, hmagnitude, hnegative⟩ := fields_of_finite hfinite
    rw [hmagnitude] at hdvd
    obtain ⟨n, f, hn, hfit, heq⟩ := exists_fits_div hm hfits hdvd
    rw [hfinite, hy, div_two_pow s hm hn hfits hfit hj heq, unpack_pack s hn hfit] at hdiv
    obtain ⟨-, hmagnitude', hnegative'⟩ := fields_of_finite hdiv
    refine ⟨isFinite_of_finite hdiv, ?_, hnegative'.trans hnegative.symm⟩
    rw [hmagnitude, hmagnitude', heq]

theorem value_div (hy : y.toModel.unpack = .finite .positive (2 ^ 52) (j - 52) (by positivity))
    (hj : j ≤ 52) (hx : x.isFinite = true) (hdvd : 2 ^ j ∣ magnitude x) :
    (x / y).isFinite = true ∧ value (x / y) = value x / 2 ^ j := by
  obtain ⟨hfinite, hmagnitude, hnegative⟩ := div_exact hy hj hx hdvd
  refine ⟨hfinite, ?_⟩
  have hunits : (units x : ℚ) = units (x / y) * 2 ^ j := by
    have hcast : (magnitude x : ℚ) = magnitude (x / y) * 2 ^ j := by exact_mod_cast hmagnitude
    unfold units
    rw [hnegative]
    split_ifs <;> push_cast <;> rw [hcast]
    ring
  rw [value, value, hunits]
  field_simp

theorem value_half (hx : x.isFinite = true) (hdvd : 2 ∣ magnitude x) :
    (x / 2).isFinite = true ∧ value (x / 2) = value x / 2 := by
  have h := value_div unpack_two (by decide) hx (by simpa using hdvd)
  rwa [pow_one] at h

theorem value_quarter (hx : x.isFinite = true) (hdvd : 4 ∣ magnitude x) :
    (x / 4).isFinite = true ∧ value (x / 4) = value x / 4 := by
  have h := value_div unpack_four (by decide) hx hdvd
  norm_num at h
  exact h

theorem value_neg (hx : x.isFinite = true) :
    (-x).isFinite = true ∧ value (-x) = -value x := by
  have hneg := unpack_neg x
  have hsign : ∀ s : Sign, (-s == .negative) = !(s == .negative) := by
    rintro (_ | _) <;> rfl
  have hvalue : ∀ b, magnitude (-x) = magnitude x → isNegative x = b → isNegative (-x) = !b →
      value (-x) = -value x := by
    intro b hmagnitude hb hb'
    rw [value, value, units, units, hmagnitude, hb, hb']
    cases b <;> simp [neg_div]
  rcases finite_cases hx with ⟨s, hzero⟩ | ⟨s, m, e, hm, hfinite⟩
  · rw [hzero] at hneg
    obtain ⟨hmagnitude, hnegative⟩ := fields_of_zero hzero
    obtain ⟨hmagnitude', hnegative'⟩ := fields_of_zero hneg
    exact ⟨isFinite_of_zero hneg,
      hvalue _ (hmagnitude'.trans hmagnitude.symm) hnegative (hnegative'.trans (hsign s))⟩
  · rw [hfinite] at hneg
    obtain ⟨-, hmagnitude, hnegative⟩ := fields_of_finite hfinite
    obtain ⟨-, hmagnitude', hnegative'⟩ := fields_of_finite hneg
    exact ⟨isFinite_of_finite hneg,
      hvalue _ (hmagnitude'.trans hmagnitude.symm) hnegative (hnegative'.trans (hsign s))⟩

end AtomArray.Binary64
