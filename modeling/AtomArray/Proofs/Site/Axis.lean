import AtomArray.Proofs.Binary64.Arithmetic
import AtomArray.Site

/-! Coordinates to nine decimals: how far rounding moves them, and which of them stay apart. -/

namespace AtomArray

open Float.Model.UnpackedFloat

namespace Binary64

variable {x : Float}

theorem toNat_rank (x : Float) : (rank x).toNat =
    if 2 ^ 63 ≤ x.toBits.toNat then 2 ^ 64 - 1 - x.toBits.toNat else 2 ^ 63 + x.toBits.toNat := by
  have hlt := x.toBits.toNat_lt
  have hshift : (x.toBits >>> 63).toNat = x.toBits.toNat / 2 ^ 63 := by
    rw [UInt64.toNat_shiftRight, Nat.shiftRight_eq_div_pow]
    rfl
  unfold rank
  dsimp only
  by_cases hsign : 2 ^ 63 ≤ x.toBits.toNat
  · have hone : x.toBits >>> 63 = 1 := by
      apply UInt64.toNat_inj.1
      rw [hshift]
      change _ = 1
      omega
    rw [if_pos hsign, hone]
    exact UInt64.toNat_not _
  · have hne : x.toBits >>> 63 ≠ 1 := by
      intro hone
      rw [hone] at hshift
      change 1 = _ at hshift
      omega
    rw [if_neg hsign, beq_eq_false_iff_ne.2 hne]
    change (x.toBits ||| 0x8000000000000000).toNat = _
    rw [UInt64.toNat_or, Nat.or_comm]
    exact (Nat.two_pow_add_eq_or_of_lt (not_le.1 hsign) 1).symm

theorem rank_injective : Function.Injective rank := by
  intro x y h
  have hnat := congrArg UInt64.toNat h
  have hx := x.toBits.toNat_lt
  have hy := y.toBits.toNat_lt
  rw [toNat_rank, toNat_rank] at hnat
  rw [← Float.toBits_inj, ← UInt64.toNat_inj]
  split_ifs at hnat <;> omega

/-- A double that compares equal to zero stands for it. -/
theorem value_of_beq_zero (h : (x == 0) = true) : value x = 0 := by
  have hcompare : x.toModel.unpack.compare (.zero .positive) = some .eq := by
    change (x.toModel.unpack.compare (.zero .positive) == some .eq) = true at h
    exact eq_of_beq h
  cases hx : x.toModel.unpack with
  | notANumber =>
      rw [hx] at hcompare
      cases hcompare
  | infinity s =>
      rw [hx] at hcompare
      cases s <;> cases hcompare
  | zero s => exact value_of_zero hx
  | finite s m e hm =>
      rw [hx] at hcompare
      cases s <;> cases hcompare

end Binary64

namespace Site

open Binary64

variable {x y : Float} {k : ℤ}

theorem unpack_comparisonScale : comparisonScale.toModel.unpack =
    .finite .positive (10 ^ 9 * 2 ^ 23) (-23) (by positivity) := rfl

theorem value_comparisonScale : value comparisonScale = 10 ^ 9 := by
  rw [value_of_finite unpack_comparisonScale, signOf]
  norm_num

theorem isFinite_comparisonScale : comparisonScale.isFinite = true :=
  isFinite_of_finite unpack_comparisonScale

theorem abs_mul_scale (v : ℚ) : |v * 10 ^ 9| = |v| * 10 ^ 9 := by
  rw [abs_mul, abs_of_pos (by norm_num : (0 : ℚ) < 10 ^ 9)]

theorem abs_div_scale (v : ℚ) : |v / 10 ^ 9| = |v| / 10 ^ 9 := by
  rw [abs_div, abs_of_pos (by norm_num : (0 : ℚ) < 10 ^ 9)]

/-- The whole number of billionths that a coordinate is rounded to. -/
def billionths (x : Float) : ℚ := value (nearestWhole (x * comparisonScale))

theorem rounded_mul_scale (hx : x.isFinite = true) (hlt : |value x| * 10 ^ 9 < 2 ^ k)
    (hk : k ≤ 82) : Rounded (value x * 10 ^ 9) (x * comparisonScale) := by
  have h := rounded_mul (k := k) hx isFinite_comparisonScale (by omega)
  rw [value_comparisonScale, abs_mul_scale] at h
  exact h hlt

theorem billionths_near (hx : x.isFinite = true) (hlt : |value x| * 10 ^ 9 < 2 ^ k)
    (hlow : -1021 ≤ k) (hk : k ≤ 82) :
    |billionths x - value x * 10 ^ 9| ≤ 2 ^ (k - 54) + 1 / 2 := by
  have hproduct := rounded_mul_scale hx hlt hk
  have hwhole : |billionths x - value (x * comparisonScale)| ≤ 1 / 2 :=
    (nearestWhole_near hproduct.finite).2
  have hround := hproduct.abs_sub_le (by rwa [abs_mul_scale]) hlow
  calc |billionths x - value x * 10 ^ 9|
      ≤ |billionths x - value (x * comparisonScale)| +
        |value (x * comparisonScale) - value x * 10 ^ 9| := abs_sub_le _ _ _
    _ ≤ 1 / 2 + 2 ^ (k - 54) := add_le_add hwhole hround
    _ = 2 ^ (k - 54) + 1 / 2 := add_comm _ _

/-- Large coordinates are rounded to multiples of `2 ^ 28` billionths. -/
theorem billionths_multiple (hx : x.isFinite = true) (hlt : |value x| * 10 ^ 9 < 2 ^ (82 : ℤ))
    (hlarge : 2 ^ (80 : ℤ) ≤ |value x| * 10 ^ 9) : ∃ a : ℤ, billionths x = a * 2 ^ (28 : ℤ) := by
  have hproduct := rounded_mul_scale hx hlt le_rfl
  obtain ⟨a, ha⟩ := hproduct.exists_multiple (by rwa [abs_mul_scale])
  have hround := hproduct.abs_sub_le (by rwa [abs_mul_scale]) (by decide)
  have hwhole : 2 ^ 52 ≤ |value (x * comparisonScale)| := by
    have htriangle := abs_sub_abs_le_abs_sub (value x * 10 ^ 9) (value (x * comparisonScale))
    rw [abs_mul_scale] at htriangle
    rw [← abs_neg, neg_sub] at hround
    norm_num at hlarge hround htriangle ⊢
    linarith
  refine ⟨a, ?_⟩
  rw [billionths, nearestWhole_of_le hwhole, ha]
  norm_num

/-- Rounding to nine decimals rounds a second time, when the billionths are divided back. -/
theorem rounded_roundAxis (hx : x.isFinite = true) (hlt : |value x| * 10 ^ 9 < 2 ^ (82 : ℤ)) :
    Rounded (billionths x / 10 ^ 9) (roundAxis x) := by
  have hnear := billionths_near hx hlt (by decide) le_rfl
  have hfinite := (nearestWhole_near (rounded_mul_scale hx hlt le_rfl).finite).1
  have hsmall : |billionths x / 10 ^ 9| < 2 ^ (83 : ℤ) := by
    have htriangle := abs_sub_abs_le_abs_sub (billionths x) (value x * 10 ^ 9)
    rw [abs_mul_scale] at htriangle
    rw [abs_div_scale, div_lt_iff₀ (by norm_num)]
    norm_num at hlt hnear htriangle ⊢
    linarith
  have hquotient := rounded_div (k := 83) hfinite isFinite_comparisonScale
    (by rw [value_comparisonScale]; norm_num) (by decide)
    (by rw [value_comparisonScale]; exact hsmall)
  rw [value_comparisonScale] at hquotient
  unfold roundAxis
  dsimp only
  split_ifs with hzero
  · exact hquotient.congr (by rfl) (value_of_beq_zero hzero ▸ value_of_zero rfl)
  · exact hquotient

section Whole

variable {i j : ℤ}

/-- The coordinates at which one unit is more than the gap between scaled doubles. -/
def InRange (i : ℤ) : Prop := |i| * 10 ^ 9 < 2 ^ 82

theorem inRange_iff : InRange i ↔ -4835703278458516 ≤ i ∧ i ≤ 4835703278458516 := by
  unfold InRange
  rcases abs_cases i with ⟨habs, hsign⟩ | ⟨habs, hsign⟩ <;> rw [habs] <;> omega

theorem InRange.scaled (h : InRange i) (hx : value x = i) : |value x| * 10 ^ 9 < 2 ^ (82 : ℤ) := by
  rw [hx]
  exact_mod_cast h

theorem quotient_near (hx : x.isFinite = true) (hlt : |value x| * 10 ^ 9 < 2 ^ k)
    (hlow : -1021 ≤ k) (hk : k ≤ 82) :
    |billionths x / 10 ^ 9 - value x| ≤ (2 ^ (k - 54) + 1 / 2) / 10 ^ 9 := by
  have hnear := billionths_near hx hlt hlow hk
  have hquotient :
      billionths x / 10 ^ 9 - value x = (billionths x - value x * 10 ^ 9) / 10 ^ 9 := by
    field_simp
  rw [hquotient, abs_div_scale]
  exact div_le_div_of_nonneg_right hnear (by norm_num)

/-- A whole coordinate stays where it is up to about a half, and exactly once doubles are whole. -/
theorem roundAxis_near_whole (hx : x.isFinite = true) (hi : value x = i) (hrange : InRange i) :
    |value (roundAxis x) - i| ≤ 13 / 25 ∧
      (value (roundAxis x) = i ∨ |value (roundAxis x) - billionths x / 10 ^ 9| ≤ 1 / 4) := by
  have hlt := hrange.scaled hi
  have hround := rounded_roundAxis hx hlt
  have hnear := quotient_near hx hlt (by decide) le_rfl
  rw [hi] at hnear hlt
  obtain ⟨u, hu⟩ : ∃ u, billionths x / 10 ^ 9 = u := ⟨_, rfl⟩
  rw [hu] at hround hnear ⊢
  by_cases hsmall : |u| < 2 ^ (52 : ℤ)
  · have hquarter := hround.abs_sub_le hsmall (by decide)
    have htriangle := abs_sub_le (value (roundAxis x)) u i
    norm_num at hquarter hnear
    exact ⟨by linarith, .inr hquarter⟩
  -- From `2 ^ 52` on doubles are whole, and no other integer is as close to the quotient.
  · obtain ⟨n, hn⟩ := hround.exists_multiple (not_lt.1 hsmall)
    have hupper : |u| < 2 ^ (53 : ℤ) := by
      have htriangle := abs_sub_abs_le_abs_sub u i
      norm_num at hnear hlt ⊢
      linarith
    have hhalf := hround.abs_sub_le hupper (by decide)
    have hone : |n - i| < 1 := by
      have htriangle := abs_sub_le (value (roundAxis x)) u i
      have hcast : |(n : ℚ) - i| < 1 := by
        rw [hn] at hhalf htriangle
        norm_num at hhalf hnear htriangle
        linarith
      exact_mod_cast hcast
    have hsame : value (roundAxis x) = i := by
      rw [hn, sub_eq_zero.1 (Int.abs_lt_one_iff.1 hone)]
      norm_num
    refine ⟨?_, .inl hsame⟩
    rw [hsame, sub_self, abs_zero]
    norm_num

/-- Below `2 ^ 81` billionths the two errors together do not bridge a unit; from there on the
billionths of neighbours differ by at least two of their gaps. -/
theorem quotient_gap (hx : x.isFinite = true) (hy : y.isFinite = true) (hi : value x = i)
    (hj : value y = i + 1) (hrange : InRange i) (hrange' : InRange (i + 1)) :
    1 / 2 < billionths y / 10 ^ 9 - billionths x / 10 ^ 9 := by
  have hxlt := hrange.scaled hi
  have hylt := hrange'.scaled (by rw [hj]; push_cast; rfl)
  by_cases hsmall : |value x| * 10 ^ 9 < 2 ^ (81 : ℤ) ∧ |value y| * 10 ^ 9 < 2 ^ (81 : ℤ)
  · have hxnear := abs_le.1 (quotient_near hx hsmall.1 (by decide) (by decide))
    have hynear := abs_le.1 (quotient_near hy hsmall.2 (by decide) (by decide))
    rw [hi] at hxnear
    rw [hj] at hynear
    norm_num at hxnear hynear ⊢
    linarith [hxnear.2, hynear.1]
  · have hstep : |(|value y| - |value x|)| ≤ 1 := by
      have := abs_abs_sub_abs_le_abs_sub (value y) (value x)
      rw [hi, hj, add_sub_cancel_left, abs_one] at this
      rwa [hi, hj]
    have hlarge : 2 ^ (80 : ℤ) ≤ |value x| * 10 ^ 9 ∧ 2 ^ (80 : ℤ) ≤ |value y| * 10 ^ 9 := by
      rw [not_and_or, not_lt, not_lt] at hsmall
      rw [abs_le] at hstep
      norm_num at hsmall ⊢
      rcases hsmall with hsmall | hsmall <;> constructor <;> linarith
    obtain ⟨a, ha⟩ := billionths_multiple hx hxlt hlarge.1
    obtain ⟨b, hb⟩ := billionths_multiple hy hylt hlarge.2
    have hxnear := abs_le.1 (billionths_near hx hxlt (by decide) le_rfl)
    have hynear := abs_le.1 (billionths_near hy hylt (by decide) le_rfl)
    rw [ha, hi] at hxnear
    rw [hb, hj] at hynear
    rw [ha, hb]
    have hgap : 1 < b - a := by
      have hcast : (1 : ℚ) < b - a := by
        norm_num at hxnear hynear
        linarith [hxnear.2, hynear.1]
      exact_mod_cast hcast
    have htwo : (2 : ℚ) ≤ b - a := by exact_mod_cast hgap
    norm_num
    linarith

theorem value_roundAxis_ne_succ (hx : x.isFinite = true) (hy : y.isFinite = true) (hi : value x = i)
    (hj : value y = i + 1) (hrange : InRange i) (hrange' : InRange (i + 1)) :
    value (roundAxis x) ≠ value (roundAxis y) := by
  intro heq
  obtain ⟨hxnear, hxcase⟩ := roundAxis_near_whole hx hi hrange
  obtain ⟨hynear, hycase⟩ := roundAxis_near_whole hy (by rw [hj]; push_cast; rfl) hrange'
  have hgap := quotient_gap hx hy hi hj hrange hrange'
  rw [heq] at hxnear hxcase
  push_cast at hynear hycase
  rw [abs_le] at hxnear hynear
  rcases hxcase with hexact | hxquarter
  · rw [hexact] at hynear
    linarith [hynear.1]
  · rcases hycase with hexact | hyquarter
    · rw [hexact] at hxnear
      linarith [hxnear.2]
    · rw [abs_le] at hxquarter hyquarter
      linarith [hxquarter.1, hyquarter.2]

/-- Whole coordinates in range stay apart when they are rounded to nine decimals. -/
theorem eq_of_roundAxis_eq (hx : x.isFinite = true) (hy : y.isFinite = true) (hi : value x = i)
    (hj : value y = j) (hrange : InRange i) (hrange' : InRange j)
    (heq : roundAxis x = roundAxis y) : i = j := by
  have hxnear := abs_le.1 (roundAxis_near_whole hx hi hrange).1
  have hynear := abs_le.1 (roundAxis_near_whole hy hj hrange').1
  rw [heq] at hxnear
  have hclose : |i - j| < 2 := by
    have hcast : |(i : ℚ) - j| < 2 := by
      rw [abs_lt]
      constructor <;> linarith [hxnear.1, hxnear.2, hynear.1, hynear.2]
    exact_mod_cast hcast
  rw [abs_lt] at hclose
  obtain h | h | h : i = j ∨ j = i + 1 ∨ i = j + 1 := by omega
  · exact h
  · subst h
    push_cast at hj
    exact absurd (congrArg value heq) (value_roundAxis_ne_succ hx hy hi hj hrange hrange')
  · subst h
    push_cast at hi
    exact absurd (congrArg value heq.symm) (value_roundAxis_ne_succ hy hx hj hi hrange' hrange)

end Whole

/-- Up to `2 ^ 51` a coordinate moves by little more than a quarter. -/
theorem roundAxis_near (hx : x.isFinite = true) (hlt : |value x| ≤ 2 ^ 51 - 1) :
    |value (roundAxis x) - value x| ≤ 13 / 50 := by
  have hscaled : |value x| * 10 ^ 9 < 2 ^ (81 : ℤ) := by
    norm_num at hlt ⊢
    linarith
  have hround := rounded_roundAxis hx (hscaled.trans (zpow_lt_zpow_right₀ one_lt_two (by decide)))
  have hnear := quotient_near hx hscaled (by decide) (by decide)
  obtain ⟨u, hu⟩ : ∃ u, billionths x / 10 ^ 9 = u := ⟨_, rfl⟩
  rw [hu] at hround hnear
  have hsmall : |u| < 2 ^ (51 : ℤ) := by
    have htriangle := abs_sub_abs_le_abs_sub u (value x)
    norm_num at hnear hlt ⊢
    linarith
  have heighth := hround.abs_sub_le hsmall (by decide)
  have htriangle := abs_sub_le (value (roundAxis x)) u (value x)
  norm_num at heighth hnear
  linarith

end Site
end AtomArray
