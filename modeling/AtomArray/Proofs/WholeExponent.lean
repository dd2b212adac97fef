import AtomArray.Gate
import AtomArray.Proofs.Binary64.Value

/-! Which exponents count as whole: those closer to an integer than the tolerance. -/

namespace AtomArray
namespace Binary64

variable {x : Float} {n : ℤ} {d : ℕ}

/-- A remainder, or what it lacks of the divisor, is small just when some multiple is near. -/
theorem min_mod_lt_iff (k N d : ℕ) (hN : 0 < N) :
    min (k % N) (N - k % N) < d ↔ ∃ n : ℤ, |(k : ℤ) - n * N| < d := by
  obtain ⟨r, hr⟩ : ∃ r : ℕ, k % N = r := ⟨_, rfl⟩
  obtain ⟨q, hq⟩ : ∃ q : ℕ, k / N = q := ⟨_, rfl⟩
  have hlt : r < N := hr ▸ Nat.mod_lt k hN
  have hk : (k : ℤ) = r + N * q := by
    have hdecomp := Nat.mod_add_div k N
    rw [hr, hq] at hdecomp
    exact_mod_cast hdecomp.symm
  rw [hr, min_lt_iff]
  constructor
  · rintro (h | h)
    · refine ⟨q, ?_⟩
      have hdiff : (k : ℤ) - q * N = r := by
        rw [hk]
        ring
      rw [hdiff, abs_of_nonneg (by omega)]
      exact_mod_cast h
    · refine ⟨q + 1, ?_⟩
      have hdiff : (k : ℤ) - (q + 1) * N = -(N - r : ℤ) := by
        rw [hk]
        ring
      rw [hdiff, abs_neg, abs_of_nonneg (by omega)]
      omega
  · rintro ⟨n, hn⟩
    have hdiff : (k : ℤ) - n * N = r + N * (q - n) := by
      rw [hk]
      ring
    rw [hdiff, abs_lt] at hn
    rcases le_or_gt 0 (q - n) with hz | hz
    · have : 0 ≤ (N : ℤ) * (q - n) := mul_nonneg (by omega) hz
      omega
    · have : (N : ℤ) * (q - n) ≤ N * (-1) := mul_le_mul_of_nonneg_left (by omega) (by omega)
      omega

theorem offWhole_eq :
    offWhole x = min (magnitude x % unitsPerOne) (unitsPerOne - magnitude x % unitsPerOne) := by
  unfold offWhole unitsPerOne
  generalize Nat.pow 2 1074 = N
  rfl

/-- The sign does not matter for the distance from the integers. -/
theorem offWhole_lt_iff : offWhole x < d ↔ ∃ n : ℤ, |units x - n * unitsPerOne| < d := by
  rw [offWhole_eq, min_mod_lt_iff _ _ _ unitsPerOne_pos, units]
  split_ifs
  · have hmirror : ∀ n : ℤ, |-(magnitude x : ℤ) - -n * unitsPerOne| =
        |(magnitude x : ℤ) - n * unitsPerOne| := by
      intro n
      rw [← abs_neg]
      ring_nf
    constructor
    · rintro ⟨n, hn⟩
      exact ⟨-n, by rwa [hmirror]⟩
    · rintro ⟨n, hn⟩
      refine ⟨-n, ?_⟩
      rwa [← hmirror, neg_neg]
  · rfl

/-- A value is near an integer just when its size is, in its units. -/
theorem abs_value_sub_lt_iff :
    |value x - n| < d / unitsPerOne ↔ |units x - n * unitsPerOne| < d := by
  have hpos : (0 : ℚ) < unitsPerOne := by exact_mod_cast unitsPerOne_pos
  have hvalue : value x - n = (units x - n * unitsPerOne : ℤ) / unitsPerOne := by
    rw [value]
    push_cast
    field_simp
  rw [hvalue, abs_div, abs_of_pos hpos, div_lt_div_iff_of_pos_right hpos]
  exact_mod_cast Iff.rfl

/-- A significand alone is too small for the size of a large double. -/
theorem two_dvd_magnitude (h : 2 ^ 53 ≤ magnitude x) : 2 ∣ magnitude x := by
  have hsignificand := significand_lt x
  cases he : exponent x with
  | zero =>
      rw [magnitude, he] at h
      change 2 ^ 53 ≤ significand x * 1 at h
      omega
  | succ k =>
      rw [magnitude, he]
      exact Dvd.dvd.mul_left (Dvd.intro_left (2 ^ k) rfl) _

theorem units_of_value_eq (h : value x = n) : units x = n * unitsPerOne := by
  have hpos : (unitsPerOne : ℚ) ≠ 0 := by exact_mod_cast unitsPerOne_pos.ne'
  rw [value, div_eq_iff hpos] at h
  exact_mod_cast h

theorem dvd_magnitude_iff (k : ℕ) : k ∣ magnitude x ↔ (k : ℤ) ∣ units x := by
  unfold units
  split_ifs
  · rw [dvd_neg, Int.natCast_dvd_natCast]
  · rw [Int.natCast_dvd_natCast]

/-- The integer that a double stands for, if it is one. -/
def integer? (x : Float) : Option ℤ :=
  if x.isFinite = true ∧ (value x).den = 1 then some (value x).num else none

theorem integer?_eq_some_iff : integer? x = some n ↔ x.isFinite = true ∧ value x = n := by
  unfold integer?
  split_ifs with h
  · rw [Option.some_inj]
    constructor
    · rintro rfl
      exact ⟨h.1, ((Rat.den_eq_one_iff _).1 h.2).symm⟩
    · rintro ⟨-, hvalue⟩
      rw [hvalue, Rat.num_intCast]
  · refine iff_of_false (nomatch ·) ?_
    rintro ⟨hfinite, hvalue⟩
    exact h ⟨hfinite, by rw [hvalue, Rat.den_intCast]⟩

theorem value_of_units {k : ℤ} (h : units x * k = n * unitsPerOne) (hk : k ≠ 0) :
    value x = n / k := by
  have hpos : (unitsPerOne : ℚ) ≠ 0 := by exact_mod_cast unitsPerOne_pos.ne'
  have hk : (k : ℚ) ≠ 0 := by exact_mod_cast hk
  rw [value, div_eq_div_iff hpos hk]
  exact_mod_cast h

theorem units_constants :
    units 1 = 1 * unitsPerOne ∧ units 3 = 3 * unitsPerOne ∧
      units 0.5 * 2 = 1 * unitsPerOne ∧ units 0.25 * 4 = 1 * unitsPerOne := by
  decide +kernel

theorem value_one_half : value 0.5 = 1 / 2 := by
  obtain ⟨-, -, hhalf, -⟩ := units_constants
  simpa using value_of_units hhalf two_ne_zero

theorem value_one_quarter : value 0.25 = 1 / 4 := by
  obtain ⟨-, -, -, hquarter⟩ := units_constants
  simpa using value_of_units hquarter four_ne_zero

theorem value_neg_one_quarter : value (-0.25) = -(1 / 4) := by
  rw [(value_neg (by decide)).2, value_one_quarter]

theorem integer?_of_units (hfinite : x.isFinite = true) (h : units x = n * unitsPerOne) :
    integer? x = some n := by
  have hvalue : value x = n / (1 : ℤ) := value_of_units (by rw [mul_one, h]) one_ne_zero
  rw [Int.cast_one, div_one] at hvalue
  exact integer?_eq_some_iff.2 ⟨hfinite, hvalue⟩

theorem integer?_one : integer? 1 = some 1 :=
  integer?_of_units (by decide) units_constants.1

theorem integer?_three : integer? 3 = some 3 :=
  integer?_of_units (by decide) units_constants.2.1

theorem value_one : value 1 = 1 := by
  simpa using (integer?_eq_some_iff.1 integer?_one).2

end Binary64

open Binary64

variable {t : Float} {n : ℤ}

theorem exponentTolerance_size :
    isNegative exponentTolerance = false ∧ 2 ^ 53 ≤ magnitude exponentTolerance ∧
      magnitude exponentTolerance * 4 < unitsPerOne := by
  decide +kernel

theorem value_exponentTolerance :
    value exponentTolerance = magnitude exponentTolerance / unitsPerOne := by
  obtain ⟨hsign, -, -⟩ := exponentTolerance_size
  rw [value, units, hsign]
  rfl

/-- An exponent counts as whole just when it is less than the tolerance away from an integer. -/
theorem isWholeExponent_iff : isWholeExponent t = true ↔
    t.isFinite = true ∧ ∃ n : ℤ, |value t - n| < value exponentTolerance := by
  rw [value_exponentTolerance]
  simp only [isWholeExponent, isWholeWithin, Bool.and_eq_true, decide_eq_true_iff,
    offWhole_lt_iff, abs_value_sub_lt_iff]

theorem value_exponentTolerance_pos : 0 < value exponentTolerance := by
  obtain ⟨-, hlarge, -⟩ := exponentTolerance_size
  have hpos : 0 < magnitude exponentTolerance := (Nat.two_pow_pos 53).trans_le hlarge
  rw [value_exponentTolerance]
  exact div_pos (by exact_mod_cast hpos) (by exact_mod_cast unitsPerOne_pos)

theorem value_exponentTolerance_lt : value exponentTolerance < 1 / 4 := by
  obtain ⟨-, -, hlt⟩ := exponentTolerance_size
  have hpos : (0 : ℚ) < unitsPerOne := by exact_mod_cast unitsPerOne_pos
  rw [value_exponentTolerance, div_lt_div_iff₀ hpos (by norm_num), one_mul]
  exact_mod_cast hlt

theorem isWholeExponent_of_integer (hfinite : t.isFinite = true) (h : value t = n) :
    isWholeExponent t = true := by
  refine isWholeExponent_iff.2 ⟨hfinite, n, ?_⟩
  rw [h, sub_self, abs_zero]
  exact value_exponentTolerance_pos

theorem value_half_of_integer (hfinite : t.isFinite = true) (h : value t = n) :
    (t / 2).isFinite = true ∧ value (t / 2) = n / 2 := by
  have htwo : 2 ∣ unitsPerOne := by decide +kernel
  rw [← h]
  apply value_half hfinite
  rw [dvd_magnitude_iff, units_of_value_eq h]
  exact Dvd.dvd.mul_left (by exact_mod_cast htwo) n

/-- Half of an integer counts as whole just when the integer is even. -/
theorem isWholeExponent_half_iff (hfinite : t.isFinite = true) (h : value t = n) :
    isWholeExponent (t / 2) = true ↔ Even n := by
  obtain ⟨hhalf, hvalue⟩ := value_half_of_integer hfinite h
  constructor
  · intro hwhole
    obtain ⟨-, k, hk⟩ := isWholeExponent_iff.1 hwhole
    rw [hvalue] at hk
    have hnear : |(n : ℚ) - 2 * k| < 1 := by
      have hlt := hk.trans value_exponentTolerance_lt
      have hdouble : (n : ℚ) - 2 * k = 2 * (n / 2 - k) := by ring
      rw [hdouble, abs_mul, abs_two]
      linarith
    have hzero : n - 2 * k = 0 := by
      rw [← Int.abs_lt_one_iff]
      exact_mod_cast hnear
    exact ⟨k, by omega⟩
  · rintro ⟨k, rfl⟩
    apply isWholeExponent_of_integer hhalf (n := k)
    rw [hvalue]
    push_cast
    ring

/-- An exponent farther than twice the tolerance from every integer is not whole, and neither is
its half. -/
theorem not_isWholeExponent_of_far (hfinite : t.isFinite = true)
    (hfar : ∀ n : ℤ, 2 * value exponentTolerance < |value t - n|) :
    isWholeExponent t = false ∧ isWholeExponent (t / 2) = false := by
  have htolerance := value_exponentTolerance_pos
  have heven : 2 ∣ magnitude t := by
    obtain ⟨-, hlarge, -⟩ := exponentTolerance_size
    have hpos : (0 : ℚ) < unitsPerOne := by exact_mod_cast unitsPerOne_pos
    have hzero := hfar 0
    rw [Int.cast_zero, sub_zero, abs_value] at hzero
    have hlt : value exponentTolerance < magnitude t / unitsPerOne := by linarith
    rw [value_exponentTolerance, div_lt_div_iff_of_pos_right hpos, Nat.cast_lt] at hlt
    exact two_dvd_magnitude (hlarge.trans hlt.le)
  obtain ⟨-, hvalue⟩ := value_half hfinite heven
  constructor
  · rw [← Bool.not_eq_true, isWholeExponent_iff]
    rintro ⟨-, n, hn⟩
    have := hfar n
    linarith
  · rw [← Bool.not_eq_true, isWholeExponent_iff]
    rintro ⟨-, n, hn⟩
    have h := hfar (2 * n)
    have hdouble : value t - (2 * n : ℤ) = 2 * (value (t / 2) - n) := by
      rw [hvalue]
      push_cast
      ring
    rw [hdouble, abs_mul, abs_two] at h
    linarith

/-- An integer, or farther than twice the tolerance from all of them. -/
def ClearExponent (t : Float) : Prop :=
  (∃ n : ℤ, value t = n) ∨ ∀ n : ℤ, 2 * value exponentTolerance < |value t - n|

/-- The test for whole exponents does not mistake such an exponent or its half. -/
theorem ClearExponent.cases (h : ClearExponent t) (hfinite : t.isFinite = true) :
    (∃ n : ℤ, value t = n ∧ isWholeExponent t = true ∧ (isWholeExponent (t / 2) = true ↔ Even n)) ∨
      isWholeExponent t = false ∧ isWholeExponent (t / 2) = false := by
  rcases h with ⟨n, hn⟩ | hfar
  · left
    exact ⟨n, hn, isWholeExponent_of_integer hfinite hn, isWholeExponent_half_iff hfinite hn⟩
  · exact .inr (not_isWholeExponent_of_far hfinite hfar)

end AtomArray
