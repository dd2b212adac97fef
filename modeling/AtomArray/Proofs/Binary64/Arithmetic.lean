import AtomArray.Proofs.Binary64.Rounding

/-! Sums, products and quotients of doubles, each the exact one rounded; integers as doubles, and
the nearest whole number. -/

namespace AtomArray.Binary64

open Float.Model (Format UnpackedFloat totalExponent)
open Float.Model.UnpackedFloat

variable {x y : Float} {s : Sign} {m : ℕ} {e t k : ℤ}

theorem signOf_mul (s t : Sign) : signOf (s * t) = signOf s * signOf t := by
  cases s <;> cases t <;> norm_num [signOf]

theorem signOf_div (s t : Sign) : signOf (s / t) = signOf s / signOf t := by
  cases s <;> cases t <;> norm_num [signOf] <;> rfl

theorem rounded_round (hm : 0 < m) (hlt : m * 2 ^ e < (2 ^ (1023 : ℤ) : ℚ))
    (hx : x.toModel.unpack = unpack .binary64 (pack .binary64 (round .binary64 s m e))) :
    Rounded (signOf s * (m * 2 ^ e)) x := by
  obtain ⟨t, ht⟩ : ∃ t, Format.binary64.targetExponent (totalExponent m e) = t := ⟨_, rfl⟩
  obtain ⟨k, hk⟩ : ∃ k : ℕ, (e - t).toNat = k := ⟨_, rfl⟩
  have htotal : totalExponent (m * 2 ^ k) (e - k) = totalExponent m e := by
    rw [totalExponent, totalExponent, log2_mul_two_pow hm]
    push_cast
    ring
  have hvalue : ((m * 2 ^ k : ℕ) : ℚ) * 2 ^ (e - k) = m * 2 ^ e := by
    rw [Nat.cast_mul, Nat.cast_pow, Nat.cast_ofNat, mul_assoc, ← zpow_natCast,
      ← zpow_add₀ two_ne_zero, add_sub_cancel]
  have hround : round .binary64 s m e =
      roundWithAccuracy .binary64 s (m * 2 ^ k) (e - k) .exact := by
    rw [Float.Model.UnpackedFloat.round]
    simp only [decreaseExponent, ht, hk, Nat.shiftLeft_eq]
  rw [hround] at hx
  rw [← hvalue] at hlt ⊢
  exact rounded_of_truncates (.exact rfl) (by rw [htotal, ht]; omega) hlt hx

theorem rounded_normalize {n : ℤ} (hlt : |(n : ℚ)| * 2 ^ e < 2 ^ (1023 : ℤ))
    (hx : x.toModel.unpack = unpack .binary64
      (pack .binary64 (UnpackedFloat.normalize .binary64 n e .positive))) :
    Rounded (n * 2 ^ e) x := by
  unfold UnpackedFloat.normalize at hx
  split at hx
  next hn =>
    have hneg := Int.compare_eq_lt.1 hn
    obtain ⟨m, hm⟩ : ∃ m : ℕ, -n = m := ⟨(-n).toNat, by omega⟩
    have hcast : (n : ℚ) = -m := by exact_mod_cast (by omega : n = -m)
    rw [hm, Int.toNat_natCast] at hx
    rw [hcast, abs_neg, Nat.abs_cast] at hlt
    have h := rounded_round (by omega) hlt hx
    rwa [signOf, neg_one_mul, ← neg_mul, ← hcast] at h
  next hn =>
    have hzero : n = 0 := by simpa using hn
    rw [hzero, Int.cast_zero, zero_mul]
    exact rounded_zero hx
  next hn =>
    have hpos := Int.compare_eq_gt.1 hn
    obtain ⟨m, rfl⟩ : ∃ m : ℕ, n = m := ⟨n.toNat, by omega⟩
    rw [Int.toNat_natCast] at hx
    rw [Int.cast_natCast, Nat.abs_cast] at hlt
    have h := rounded_round (by omega) hlt hx
    rwa [signOf, one_mul] at h

theorem le_targetExponent (h : 2 ^ 52 ≤ m ∨ e ≤ -1074) :
    e ≤ Format.binary64.targetExponent (totalExponent m e) := by
  rw [targetExponent_eq, totalExponent]
  rcases h with hm | he
  · have := (Nat.le_log2 (by omega)).2 hm
    omega
  · omega

theorem rounded_mul (hx : x.isFinite = true) (hy : y.isFinite = true)
    (hk : k ≤ 1023) (hsize : |value x * value y| < 2 ^ k) :
    Rounded (value x * value y) (x * y) := by
  have hlt := hsize.trans_le (zpow_le_zpow_right₀ one_le_two hk)
  have hmul := unpack_mul x y
  rcases finite_cases hx with ⟨s, hx'⟩ | ⟨s, m, e, hm, hx'⟩ <;>
    rcases finite_cases hy with ⟨t, hy'⟩ | ⟨t, n, f, hn, hy'⟩ <;> rw [hx', hy'] at hmul
  · rw [value_of_zero hx', zero_mul]
    exact rounded_zero hmul
  · rw [value_of_zero hx', zero_mul]
    exact rounded_zero hmul
  · rw [value_of_zero hy', mul_zero]
    exact rounded_zero hmul
  · have hvalue : value x * value y = signOf (s * t) * ((m * n : ℕ) * 2 ^ (e + f)) := by
      rw [value_of_finite hx', value_of_finite hy', signOf_mul, zpow_add₀ two_ne_zero]
      push_cast
      ring
    have hdigits : 2 ^ 52 ≤ m * n ∨ e + f ≤ -1074 := by
      rcases (fields_of_finite hx').1.normal with hm' | rfl
      · exact .inl (hm'.trans (Nat.le_mul_of_pos_right m hn))
      · rcases (fields_of_finite hy').1.normal with hn' | rfl
        · exact .inl (hn'.trans (Nat.le_mul_of_pos_left n hm))
        · exact .inr (by decide)
    rw [hvalue, abs_mul, abs_signOf, one_mul, abs_of_nonneg (by positivity)] at hlt
    rw [hvalue]
    exact rounded_of_truncates (.exact rfl) (le_targetExponent hdigits) hlt hmul

theorem truncates_div {n : ℕ} (m : ℕ) (hn : 0 < n) :
    Truncates ((m : ℚ) / n) (m / n) (accuracyOfFraction (m % n) n) := by
  have hpos : (0 : ℚ) < n := by exact_mod_cast hn
  have hmod : m % n < n := Nat.mod_lt _ hn
  have hdiv : (m : ℚ) / n = (m / n : ℕ) + (m % n : ℕ) / n := by
    field_simp
    exact_mod_cast (Nat.div_add_mod m n).symm
  rw [accuracyOfFraction]
  split_ifs with hzero
  · rw [hzero] at hdiv
    exact .exact (by simpa using hdiv)
  · have hlower : (0 : ℚ) < (m % n : ℕ) / n :=
      div_pos (by exact_mod_cast Nat.pos_of_ne_zero hzero) hpos
    have hupper : ((m % n : ℕ) : ℚ) / n < 1 := (div_lt_one hpos).2 (by exact_mod_cast hmod)
    rcases h : compare (2 * (m % n)) n with _ | _ | _
    · have hhalf : ((m % n : ℕ) : ℚ) / n < 1 / 2 := by
        have := Nat.compare_eq_lt.1 h
        rw [div_lt_div_iff₀ hpos two_pos]
        exact_mod_cast (by omega)
      exact .low (by linarith) (by linarith)
    · have hhalf : ((m % n : ℕ) : ℚ) / n = 1 / 2 := by
        have := Nat.compare_eq_eq.1 h
        rw [div_eq_div_iff hpos.ne' two_ne_zero]
        exact_mod_cast (by omega)
      exact .half (by linarith)
    · have hhalf : (1 : ℚ) / 2 < ((m % n : ℕ) : ℚ) / n := by
        have := Nat.compare_eq_gt.1 h
        rw [div_lt_div_iff₀ two_pos hpos]
        exact_mod_cast (by omega)
      exact .high (by linarith) (by linarith)

/-- The quotient is cut off where at least 53 binary digits of it are left. -/
theorem divCore_digits {n : ℕ} {f : ℤ} (hm : 0 < m) (hn : 0 < n) :
    ∃ (k : ℕ) (g : ℤ), divCore .binary64 m e n f =
        (m * 2 ^ k / n, g, accuracyOfFraction (m * 2 ^ k % n) n) ∧
      g + k = e - f ∧ (2 ^ 52 ≤ m * 2 ^ k / n ∨ g ≤ -1074) := by
  obtain ⟨t, ht⟩ : ∃ t, Format.binary64.targetExponent
    (totalExponent m e - totalExponent n f) = t := ⟨_, rfl⟩
  obtain ⟨k, hk⟩ : ∃ k : ℕ, (e - f - min (e - f) t).toNat = k := ⟨_, rfl⟩
  refine ⟨k, min (e - f) t, ?_, by omega, ?_⟩
  · rw [divCore]
    simp only [ht, hk, Nat.shiftLeft_eq]
  · rw [targetExponent_eq, totalExponent, totalExponent] at ht
    by_cases hmin : t = -1074
    · exact .inr (hmin ▸ min_le_right _ _)
    · refine .inl ((Nat.le_div_iff_mul_le hn).2 ?_)
      calc 2 ^ 52 * n ≤ 2 ^ 52 * 2 ^ (n.log2 + 1) :=
            Nat.mul_le_mul_left _ Nat.lt_log2_self.le
        _ = 2 ^ (52 + (n.log2 + 1)) := (pow_add _ _ _).symm
        _ ≤ 2 ^ (m.log2 + k) := Nat.pow_le_pow_right two_pos (by omega)
        _ = 2 ^ m.log2 * 2 ^ k := pow_add _ _ _
        _ ≤ m * 2 ^ k := Nat.mul_le_mul_right _ (Nat.log2_self_le hm.ne')

theorem rounded_div (hx : x.isFinite = true) (hy : y.isFinite = true) (hne : value y ≠ 0)
    (hk : k ≤ 1023) (hsize : |value x / value y| < 2 ^ k) :
    Rounded (value x / value y) (x / y) := by
  have hlt := hsize.trans_le (zpow_le_zpow_right₀ one_le_two hk)
  have hdiv := unpack_div x y
  obtain ⟨t, hzero⟩ | ⟨t, n, f, hn, hy'⟩ := finite_cases hy
  · exact absurd (value_of_zero hzero) hne
  obtain ⟨s, hx'⟩ | ⟨s, m, e, hm, hx'⟩ := finite_cases hx
  · rw [hx', hy'] at hdiv
    rw [value_of_zero hx', zero_div]
    exact rounded_zero hdiv
  · obtain ⟨k, g, hcore, hsum, hdigits⟩ := divCore_digits (e := e) (f := f) hm hn
    have hvalue : value x / value y = signOf (s / t) * (((m * 2 ^ k : ℕ) : ℚ) / n * 2 ^ g) := by
      have hpos : (0 : ℚ) < n := by exact_mod_cast hn
      have hexponent : e = g + k + f := by omega
      rw [value_of_finite hx', value_of_finite hy', signOf_div, hexponent,
        zpow_add₀ two_ne_zero, zpow_add₀ two_ne_zero, zpow_natCast]
      push_cast
      field_simp
    rw [hx', hy', div] at hdiv
    simp only [hcore] at hdiv
    rw [hvalue, abs_mul, abs_signOf, one_mul, abs_of_nonneg (by positivity)] at hlt
    rw [hvalue]
    exact rounded_of_truncates (truncates_div _ hn) (le_targetExponent hdigits) hlt hdiv

/-- The significand at a lower exponent, which the sum of two doubles is taken at. -/
theorem signOf_decreaseExponent (s : Sign) (he : t ≤ e) :
    ((s.apply (decreaseExponent m e t).1 : ℤ) : ℚ) * 2 ^ t = signOf s * (m * 2 ^ e) := by
  obtain ⟨k, rfl⟩ : ∃ k : ℕ, e = t + k := ⟨(e - t).toNat, by omega⟩
  have hshift : (t + k - t).toNat = k := by omega
  rw [signOf_apply, decreaseExponent]
  simp only [hshift, Nat.shiftLeft_eq]
  rw [zpow_add₀ two_ne_zero, zpow_natCast]
  push_cast
  ring

theorem value_add_value {t : Sign} {n : ℕ} {f : ℤ} {hm : 0 < m} {hn : 0 < n}
    (hx : x.toModel.unpack = .finite s m e hm) (hy : y.toModel.unpack = .finite t n f hn) :
    value x + value y = ((s.apply (decreaseExponent m e (min e f)).1 +
      t.apply (decreaseExponent n f (min e f)).1 : ℤ) : ℚ) * 2 ^ min e f := by
  rw [Int.cast_add, add_mul, signOf_decreaseExponent s (min_le_left e f),
    signOf_decreaseExponent t (min_le_right e f), value_of_finite hx, value_of_finite hy]

theorem rounded_add (hx : x.isFinite = true) (hy : y.isFinite = true)
    (hk : k ≤ 1023) (hsize : |value x + value y| < 2 ^ k) :
    Rounded (value x + value y) (x + y) := by
  have hlt := hsize.trans_le (zpow_le_zpow_right₀ one_le_two hk)
  have hadd := unpack_add x y
  rcases finite_cases hx with ⟨s, hx'⟩ | ⟨s, m, e, hm, hx'⟩ <;>
    rcases finite_cases hy with ⟨t, hy'⟩ | ⟨t, n, f, hn, hy'⟩ <;> rw [hx', hy'] at hadd <;>
    simp only [add] at hadd
  · rw [value_of_zero hx', value_of_zero hy', add_zero]
    split_ifs at hadd
    · exact rounded_zero hadd
    · exact rounded_zero hadd
  · rw [unpack_pack t hn (fields_of_finite hy').1, ← hy'] at hadd
    rw [value_of_zero hx', zero_add, unpack_inj.1 hadd]
    exact rounded_value hy
  · rw [unpack_pack s hm (fields_of_finite hx').1, ← hx'] at hadd
    rw [value_of_zero hy', add_zero, unpack_inj.1 hadd]
    exact rounded_value hx
  · have hvalue := value_add_value hx' hy'
    have hpos : (0 : ℚ) < 2 ^ min e f := by positivity
    rw [hvalue, abs_mul, abs_of_pos hpos] at hlt
    rw [hvalue]
    exact rounded_normalize hlt hadd

theorem rounded_toFloat (n : UInt64) : Rounded n.toNat n.toFloat := by
  have hn : n.toFloat.toModel.unpack = unpack .binary64
      (pack .binary64 (UnpackedFloat.normalize .binary64 (n.toNat : ℤ) 0 .positive)) := rfl
  have hcast : ((n.toNat : ℤ) : ℚ) * 2 ^ (0 : ℤ) = n.toNat := by
    rw [zpow_zero, mul_one, Int.cast_natCast]
  have hlt : |((n.toNat : ℤ) : ℚ)| * 2 ^ (0 : ℤ) < 2 ^ (1023 : ℤ) := by
    have hword : (n.toNat : ℚ) < 2 ^ (64 : ℤ) := by exact_mod_cast n.toNat_lt
    rw [zpow_zero, mul_one, Int.cast_natCast, Nat.abs_cast]
    exact hword.trans (zpow_lt_zpow_right₀ one_lt_two (by decide))
  exact hcast ▸ rounded_normalize hlt hn

theorem rounded_ofInt64 (n : Int64) : Rounded n.toInt (ofInt64 n) := by
  have hlow := n.le_toInt
  unfold ofInt64
  split_ifs with hneg
  · have hsign : n.toInt < 0 := Int64.lt_iff_toInt_lt.1 hneg
    have hword : (UInt64.ofNat n.toInt.natAbs).toNat = n.toInt.natAbs := by
      rw [UInt64.toNat_ofNat']
      exact Nat.mod_eq_of_lt (by omega)
    have hcast : (n.toInt : ℚ) = -(n.toInt.natAbs : ℕ) := by
      exact_mod_cast (by omega : n.toInt = -(n.toInt.natAbs : ℤ))
    have hround := (rounded_toFloat (UInt64.ofNat n.toInt.natAbs)).neg
    rwa [hword, ← hcast] at hround
  · have hsign : ¬ n.toInt < 0 := fun hlt => hneg (Int64.lt_iff_toInt_lt.2 hlt)
    have hword : (n.toUInt64.toNat : ℤ) = n.toInt := by
      have hcond := BitVec.toInt_eq_toNat_cond n.toBitVec
      have hbits : n.toUInt64.toNat = n.toBitVec.toNat := rfl
      have hint : n.toInt = n.toBitVec.toInt := rfl
      split_ifs at hcond <;> omega
    have hround := rounded_toFloat n.toUInt64
    rwa [← Int.cast_natCast, hword] at hround

theorem value_toFloat {n : ℕ} (h : n < 2 ^ 53) :
    (UInt64.ofNat n).toFloat.isFinite = true ∧ value (UInt64.ofNat n).toFloat = n := by
  have hword : (UInt64.ofNat n).toNat = n := by
    rw [UInt64.toNat_ofNat']
    exact Nat.mod_eq_of_lt (h.trans (by decide))
  have hround := rounded_toFloat (UInt64.ofNat n)
  rw [hword] at hround
  refine ⟨hround.finite, hround.value_eq (k := 0) (i := n) ?_ (by decide) ?_⟩
  · rw [zpow_zero, mul_one, Int.cast_natCast]
  · rw [Nat.abs_cast]
    exact_mod_cast h

theorem value_eq_signed (x : Float) : value x = if isNegative x then -|value x| else |value x| := by
  rw [abs_value, value, units]
  split_ifs
  · rw [Int.cast_neg, Int.cast_natCast, neg_div]
  · rw [Int.cast_natCast]

/-- The size of a double by the fields of its word. -/
theorem abs_value_fields (x : Float) :
    |value x| = significand x * 2 ^ ((exponent x : ℤ) - (1074 : ℕ)) := by
  have hmagnitude : magnitude x = significand x * 2 ^ exponent x := rfl
  rw [abs_value, hmagnitude, cast_unitsPerOne, Nat.cast_mul, Nat.cast_pow, Nat.cast_ofNat,
    mul_div_assoc, ← zpow_natCast (2 : ℚ) (exponent x), ← zpow_sub₀ two_ne_zero]

theorem abs_value_lt_of_field {k : ℕ} (h : exponentField x ≤ k) (hk : 1 ≤ k) :
    |value x| < 2 ^ ((k : ℤ) - 1022) := by
  have hsignificand : (significand x : ℚ) < 2 ^ (53 : ℤ) := by exact_mod_cast significand_lt x
  have hexponent : exponent x ≤ k - 1 := Nat.sub_le_sub_right h 1
  have hpos : (0 : ℚ) < 2 ^ ((exponent x : ℤ) - (1074 : ℕ)) := by positivity
  rw [abs_value_fields]
  calc (significand x : ℚ) * 2 ^ ((exponent x : ℤ) - (1074 : ℕ))
      < 2 ^ (53 : ℤ) * 2 ^ ((exponent x : ℤ) - (1074 : ℕ)) :=
        mul_lt_mul_of_pos_right hsignificand hpos
    _ = 2 ^ (53 + ((exponent x : ℤ) - (1074 : ℕ))) := (zpow_add₀ two_ne_zero _ _).symm
    _ ≤ 2 ^ ((k : ℤ) - 1022) := zpow_le_zpow_right₀ one_le_two (by omega)

/-- A half added before cutting off makes the quotient the nearest one. -/
theorem abs_div_add_half_sub_le (a : ℕ) {c : ℕ} (hc : 0 < c) :
    |(((a + c) / (2 * c) : ℕ) : ℚ) - a / (2 * c)| ≤ 1 / 2 := by
  obtain ⟨n, hn⟩ : ∃ n, (a + c) / (2 * c) = n := ⟨_, rfl⟩
  have hpos : (0 : ℚ) < 2 * c := by positivity
  have hlower : n * (2 * c) ≤ a + c := hn ▸ Nat.div_mul_le_self _ _
  have hupper : a + c < (n + 1) * (2 * c) := by
    rw [← hn]
    exact Nat.lt_mul_of_div_lt (Nat.lt_succ_self _) (by omega)
  have hlower : (n : ℚ) * (2 * c) ≤ a + c := by exact_mod_cast hlower
  have hupper : (a : ℚ) + c < (n + 1) * (2 * c) := by exact_mod_cast hupper
  rw [hn, abs_le]
  constructor
  · rw [neg_le_sub_iff_le_add, div_le_iff₀ hpos]
    linarith
  · rw [sub_le_iff_le_add, ← sub_le_iff_le_add', le_div_iff₀ hpos]
    linarith

/-- From the first exponent at which the unit is one, doubles are whole. -/
theorem nearestWhole_of_le (h : 2 ^ 52 ≤ |value x|) : nearestWhole x = x := by
  have hfield : 1075 ≤ exponentField x := by
    by_contra hlt
    have hsmall := abs_value_lt_of_field (x := x) (k := 1074) (by omega) (by decide)
    norm_num at hsmall h
    linarith
  rw [nearestWhole, if_pos hfield]

/-- Below that exponent a nearest whole number is found by its size. -/
theorem nearestWhole_of_field (h : exponentField x < 1075) :
    ∃ n : ℕ, n < 2 ^ 53 ∧ |(n : ℚ) - (|value x|)| ≤ 1 / 2 ∧ nearestWhole x =
      if isNegative x then -(UInt64.ofNat n).toFloat else (UInt64.ofNat n).toFloat := by
  obtain ⟨field, hfield⟩ : ∃ field, exponentField x = field := ⟨_, rfl⟩
  rw [hfield] at h
  by_cases hsmall : field < 1022
  · refine ⟨0, by decide, ?_, ?_⟩
    · have hhalf := abs_value_lt_of_field (x := x) (k := 1021) (by omega) (by decide)
      rw [Nat.cast_zero, zero_sub, abs_neg, abs_abs]
      norm_num at hhalf
      linarith
    · rw [nearestWhole, hfield, if_neg (by omega)]
      simp only [if_pos hsmall]
  · obtain ⟨j, rfl⟩ : ∃ j, field = 1074 - j := ⟨1074 - field, by omega⟩
    have hunit : 1074 - (1074 - j) = j := by omega
    have hunit' : 1075 - (1074 - j) = j + 1 := by omega
    have hexponent : (exponent x : ℤ) - (1074 : ℕ) = -(j + 1 : ℕ) := by
      rw [exponent, hfield]
      omega
    have hsize : |value x| = significand x / (2 * (2 ^ j : ℕ)) := by
      rw [abs_value_fields, hexponent, zpow_neg, zpow_natCast, pow_succ', div_eq_mul_inv]
      norm_cast
    have hpow : Nat.pow 2 (j + 1) = 2 * 2 ^ j := pow_succ' 2 j
    have hlt := significand_lt x
    refine ⟨(significand x + 2 ^ j) / (2 * 2 ^ j), ?_, ?_, ?_⟩
    · have hpos : 0 < 2 ^ j := by positivity
      rw [Nat.div_lt_iff_lt_mul (by omega)]
      nlinarith
    · rw [hsize]
      exact abs_div_add_half_sub_le _ (by positivity)
    · rw [nearestWhole, hfield, if_neg (by omega)]
      simp only [if_neg hsmall, hunit, hunit', hpow]
      rfl

theorem nearestWhole_near (h : x.isFinite = true) :
    (nearestWhole x).isFinite = true ∧ |value (nearestWhole x) - value x| ≤ 1 / 2 := by
  by_cases hlarge : 1075 ≤ exponentField x
  · rw [nearestWhole, if_pos hlarge, sub_self, abs_zero]
    exact ⟨h, by norm_num⟩
  · obtain ⟨n, hn, hnear, heq⟩ := nearestWhole_of_field (not_le.1 hlarge)
    obtain ⟨hfinite, hvalue⟩ := value_toFloat hn
    rw [heq, value_eq_signed x]
    split_ifs
    · obtain ⟨hfinite', hvalue'⟩ := value_neg hfinite
      rw [hvalue', hvalue, ← neg_sub, neg_sub_neg, abs_neg]
      exact ⟨hfinite', hnear⟩
    · rw [hvalue]
      exact ⟨hfinite, hnear⟩

end AtomArray.Binary64
