import AtomArray.Binary64
import Mathlib

/-! The unpacked form of a double: what its fields say of it, and operations that round nothing. -/

namespace AtomArray.Binary64

open Float.Model (Format UnpackedFloat totalExponent)
open Float.Model.UnpackedFloat

/-- The significands and exponents of the finite doubles other than zero. -/
structure Fits (m : ℕ) (e : ℤ) : Prop where
  lt : m < 2 ^ 53
  low : -1074 ≤ e
  high : e ≤ 971
  normal : 2 ^ 52 ≤ m ∨ e = -1074

def word (x : Float) : BitVec Format.binary64.numBits := x.toModel.toBits.toBitVec

theorem exponentField_eq (x : Float) : exponentField x = (unpackExponent (word x)).toNat := by
  have hmask : (0x7ff : UInt64).toNat = 2 ^ 11 - 1 := rfl
  rw [exponentField, unpackExponent_def, BitVec.extractLsb'_toNat, UInt64.toNat_and,
    UInt64.toNat_shiftRight, hmask, Nat.and_two_pow_sub_one_eq_mod]
  rfl

theorem fractionField_eq (x : Float) : fractionField x = (unpackMantissa (word x)).toNat := by
  have hmask : (0xfffffffffffff : UInt64).toNat = 2 ^ 52 - 1 := rfl
  rw [fractionField, unpackMantissa_def, BitVec.extractLsb'_toNat, UInt64.toNat_and, hmask,
    Nat.and_two_pow_sub_one_eq_mod]
  rfl

theorem significand_lt (x : Float) : significand x < 2 ^ 53 := by
  have hfraction : fractionField x < 2 ^ 52 := by
    rw [fractionField_eq]
    exact (unpackMantissa (word x)).isLt
  unfold significand
  change (if exponentField x = 0 then fractionField x else 2 ^ 52 + fractionField x) < 2 ^ 53
  split_ifs <;> omega

theorem isNegative_eq (x : Float) :
    isNegative x = (Sign.ofBitVec (unpackSign (word x)) == .negative) := by
  have htop : (unpackSign (word x)).toNat = x.toBits.toNat / 2 ^ 63 := by
    have hlt : x.toBits.toNat / 2 ^ 63 < 2 := by
      have := x.toBits.toNat_lt
      omega
    rw [unpackSign_def, BitVec.extractLsb'_toNat, Nat.shiftRight_eq_div_pow]
    exact Nat.mod_eq_of_lt hlt
  have hsign : (x.toBits >>> 63).toNat = x.toBits.toNat / 2 ^ 63 := by
    rw [UInt64.toNat_shiftRight, Nat.shiftRight_eq_div_pow]
    rfl
  have hbit : ∀ b : BitVec 1, b = 0#1 ∨ b = 1#1 := by decide
  rcases hbit (unpackSign (word x)) with h | h
  · have hne : x.toBits >>> 63 ≠ 1 := by
      intro hone
      rw [hone, ← htop, h] at hsign
      cases hsign
    rw [isNegative, h, beq_eq_false_iff_ne.2 hne]
    rfl
  · have hone : x.toBits >>> 63 = 1 := by
      apply UInt64.toNat_inj.1
      rw [hsign, ← htop, h]
      rfl
    rw [isNegative, h, hone]
    rfl

theorem implicitBit (f : BitVec 52) : (1#1 ++ f).toNat = 2 ^ 52 + f.toNat := by
  rw [BitVec.toNat_append, ← Nat.shiftLeft_add_eq_or_of_lt f.isLt]
  rfl

/-- What the fields of a double say of its unpacked form. -/
inductive Unpacked (x : Float) : UnpackedFloat → Prop
  | notANumber : Unpacked x .notANumber
  | infinity (s : Sign) : Unpacked x (.infinity s)
  | zero (s : Sign) : magnitude x = 0 → isNegative x = (s == .negative) →
      Unpacked x (.zero s)
  | finite (s : Sign) (m : ℕ) (e : ℤ) (hm : 0 < m) : Fits m e →
      magnitude x = m * 2 ^ (e + 1074).toNat → isNegative x = (s == .negative) →
      Unpacked x (.finite s m e hm)

theorem unpacked (x : Float) : Unpacked x x.toModel.unpack := by
  have hfraction := fractionField_eq x
  have hexponent := exponentField_eq x
  have hsign := isNegative_eq x
  have hlt := (unpackMantissa (word x)).isLt
  change Unpacked x (unpack .binary64 (word x))
  unfold unpack
  simp only
  split_ifs with hmax hinfinite hmin hzero
  · exact .infinity _
  · exact .notANumber
  · rw [hmin] at hexponent
    rw [hzero] at hfraction
    have hfield : exponentField x = 0 := hexponent
    refine .zero _ ?_ hsign
    rw [magnitude, significand, if_pos hfield, hfraction]
    exact Nat.zero_mul _
  · rw [hmin] at hexponent ⊢
    have hfield : exponentField x = 0 := hexponent
    refine .finite _ _ _ _ ⟨hlt.trans (by decide), by decide, by decide, .inr (by decide)⟩ ?_ hsign
    rw [magnitude, significand, exponent, if_pos hfield, hfraction, hfield]
    rfl
  · have hpos : (unpackExponent (word x)).toNat ≠ 0 := by
      intro h
      exact hmin (BitVec.eq_of_toNat_eq h)
    have hnot : (unpackExponent (word x)).toNat ≠ 2047 := by
      intro h
      exact hmax (BitVec.eq_of_toNat_eq h)
    have hfield := (unpackExponent (word x)).isLt
    have hbias : ((Format.binary64.exponentBias : ℤ) + 52) = 1075 := by decide
    have himplicit := implicitBit (unpackMantissa (word x))
    change (unpackExponent (word x)).toNat < 2 ^ 11 at hfield
    change (unpackMantissa (word x)).toNat < 2 ^ 52 at hlt
    refine .finite _ _ _ _ ⟨?_, ?_, ?_, .inl ?_⟩ ?_ hsign
    · change (1#1 ++ unpackMantissa (word x)).toNat < _
      omega
    · change _ ≤ _ - ((Format.binary64.exponentBias : ℤ) + 52)
      omega
    · change _ - ((Format.binary64.exponentBias : ℤ) + 52) ≤ _
      omega
    · change _ ≤ (1#1 ++ unpackMantissa (word x)).toNat
      omega
    · rw [magnitude, significand, exponent, if_neg (hexponent ▸ hpos), hfraction, hexponent]
      change _ = (1#1 ++ unpackMantissa (word x)).toNat *
        2 ^ (_ - ((Format.binary64.exponentBias : ℤ) + 52) + 1074).toNat
      rw [himplicit, hbias]
      congr 2
      omega

theorem unpack_pack_normal {m : ℕ} {e : ℤ} (s : Sign) (hm : 0 < m) (h : Fits m e)
    (hnormal : 2 ^ 52 ≤ m) :
    unpack .binary64 (pack .binary64 (.finite s m e hm)) = .finite s m e hm := by
  obtain ⟨hlt, hlow, hhigh, -⟩ := h
  have hlog : m.log2 + 1 = Format.binary64.mantissaBits := by
    have h52 := (Nat.le_log2 hm.ne').2 hnormal
    have h53 := (Nat.log2_lt hm.ne').2 hlt
    change m.log2 + 1 = 53
    omega
  obtain ⟨field, hfield⟩ : ∃ field : ℕ, (e + 1075).toNat = field := ⟨_, rfl⟩
  have hroom : ¬ 2 ^ Format.binary64.exponentBits ≤ field + 1 := by
    change ¬ 2048 ≤ field + 1
    omega
  have hexponent : (BitVec.ofNat 11 field).toNat = field := by
    rw [BitVec.toNat_ofNat]
    omega
  have hmax : BitVec.ofNat 11 field ≠ -1#11 := by
    intro h
    have := congrArg BitVec.toNat h
    rw [hexponent] at this
    change field = 2047 at this
    omega
  have hmin : BitVec.ofNat 11 field ≠ 0#11 := by
    intro h
    have := congrArg BitVec.toNat h
    rw [hexponent] at this
    change field = 0 at this
    omega
  have hmantissa : (1#1 ++ BitVec.ofNat 52 m).toNat = m := by
    rw [implicitBit, BitVec.toNat_ofNat]
    omega
  have hpack : pack .binary64 (.finite s m e hm) =
      packComponents .binary64 s (BitVec.ofNat 11 field) (BitVec.ofNat 52 m) := by
    have hbias : (e + (Format.binary64.exponentBias : ℤ) + (52 : ℕ)).toNat = field := by
      change (e + 1023 + 52).toNat = field
      omega
    simp only [pack]
    rw [hbias, if_neg hroom, if_pos hlog]
  rw [hpack]
  simp only [unpack, unpackExponent_packComponents, unpackMantissa_packComponents,
    unpackSign_packComponents, if_neg hmax, if_neg hmin, hexponent, hmantissa,
    Sign.ofBitVec_toBitVec]
  congr 1
  change (field : ℤ) - (1023 + 52) = e
  omega

theorem unpack_pack_subnormal {m : ℕ} (s : Sign) (hm : 0 < m) (hlt : m < 2 ^ 52) :
    unpack .binary64 (pack .binary64 (.finite s m (-1074) hm)) = .finite s m (-1074) hm := by
  have hlog : ¬ m.log2 + 1 = Format.binary64.mantissaBits := by
    have h52 := (Nat.log2_lt hm.ne').2 hlt
    change ¬ m.log2 + 1 = 53
    omega
  have hmantissa : (BitVec.ofNat 52 m).toNat = m := by
    rw [BitVec.toNat_ofNat, Nat.mod_eq_of_lt hlt]
  have hzero : BitVec.ofNat 52 m ≠ 0#52 := by
    intro h
    have := congrArg BitVec.toNat h
    rw [hmantissa] at this
    exact hm.ne' this
  have hroom : ¬ 2 ^ Format.binary64.exponentBits ≤
      ((-1074 : ℤ) + (Format.binary64.exponentBias : ℤ) + (52 : ℕ)).toNat + 1 := by decide
  have hpack : pack .binary64 (.finite s m (-1074) hm) =
      packComponents .binary64 s 0#11 (BitVec.ofNat 52 m) := by
    simp only [pack]
    rw [if_neg hroom, if_neg hlog]
  have hmax : 0#11 ≠ -1#11 := by decide
  rw [hpack]
  simp only [unpack, unpackExponent_packComponents, unpackMantissa_packComponents,
    unpackSign_packComponents, if_neg hmax, if_pos, dif_neg hzero, hmantissa,
    Sign.ofBitVec_toBitVec]
  rfl

/-- Packing a value of a double loses nothing. -/
theorem unpack_pack {m : ℕ} {e : ℤ} (s : Sign) (hm : 0 < m) (h : Fits m e) :
    unpack .binary64 (pack .binary64 (.finite s m e hm)) = .finite s m e hm := by
  by_cases hnormal : 2 ^ 52 ≤ m
  · exact unpack_pack_normal s hm h hnormal
  · obtain rfl := h.normal.resolve_left hnormal
    exact unpack_pack_subnormal s hm (not_le.1 hnormal)

theorem unpack_pack_infinity (s : Sign) :
    unpack .binary64 (pack .binary64 (.infinity s)) = .infinity s := by
  simp only [pack, packedInfinity, unpack, unpackExponent_packComponents,
    unpackMantissa_packComponents, unpackSign_packComponents, Sign.ofBitVec_toBitVec]
  rfl

theorem unpack_neg (x : Float) : (-x).toModel.unpack = neg x.toModel.unpack := by
  have hneg : (-x).toModel.unpack =
      unpack .binary64 (pack .binary64 (neg x.toModel.unpack)) := rfl
  rw [hneg]
  have hx := unpacked x
  cases hu : x.toModel.unpack with
  | notANumber => rfl
  | infinity s => exact unpack_pack_infinity _
  | zero s => simp only [neg, pack, unpack_packedZero]
  | finite s m e hm =>
      rw [hu] at hx
      cases hx with
      | finite _ _ _ _ hfits => exact unpack_pack _ hm hfits

/-! Sums, products and quotients are taken on the unpacked forms and packed again. -/

theorem unpack_add (x y : Float) : (x + y).toModel.unpack =
    unpack .binary64 (pack .binary64 (add .binary64 x.toModel.unpack y.toModel.unpack)) := rfl

theorem unpack_mul (x y : Float) : (x * y).toModel.unpack =
    unpack .binary64 (pack .binary64 (mul .binary64 x.toModel.unpack y.toModel.unpack)) := rfl

theorem unpack_div (x y : Float) : (x / y).toModel.unpack =
    unpack .binary64 (pack .binary64 (div .binary64 x.toModel.unpack y.toModel.unpack)) := rfl

theorem targetExponent_eq (t : ℤ) : Format.binary64.targetExponent t = max (t - 53) (-1074) := rfl

theorem Fits.log2_le {m : ℕ} {e : ℤ} (hm : 0 < m) (h : Fits m e) : m.log2 ≤ 52 := by
  have := (Nat.log2_lt hm.ne').2 h.lt
  omega

theorem Fits.targetExponent {m : ℕ} {e : ℤ} (hm : 0 < m) (h : Fits m e) :
    Format.binary64.targetExponent (totalExponent m e) = e := by
  have hlog := h.log2_le hm
  rw [targetExponent_eq, totalExponent]
  rcases h.normal with hnormal | rfl
  · have h52 := (Nat.le_log2 hm.ne').2 hnormal
    have hlow := h.low
    omega
  · omega

theorem log2_mul_two_pow {m : ℕ} (hm : 0 < m) (k : ℕ) : (m * 2 ^ k).log2 = m.log2 + k := by
  induction k with
  | zero => rw [pow_zero, mul_one, add_zero]
  | succ k ih =>
      have hpos : m * 2 ^ k ≠ 0 := by positivity
      rw [pow_succ', mul_left_comm, Nat.log2_two_mul hpos, ih, add_assoc]

theorem shiftRight_exact (m k : ℕ) :
    ExtendedMantissa.mk (m * 2 ^ k) false false >>> k = ⟨m, false, false⟩ := by
  induction k generalizing m with
  | zero => simp [HShiftRight.hShiftRight, Nat.repeat]
  | succ k ih =>
      have h := ih (m * 2)
      rw [mul_assoc, ← pow_succ'] at h
      change ExtendedMantissa.shiftRightOne
        (ExtendedMantissa.mk (m * 2 ^ (k + 1)) false false >>> k) = _
      rw [h]
      simp [ExtendedMantissa.shiftRightOne]

theorem shiftToTargetExponent_exact {m : ℕ} {e : ℤ} (hm : 0 < m) (h : Fits m e) (k : ℕ) :
    shiftToTargetExponent .binary64 (m * 2 ^ k) (e - k) .exact = (⟨m, false, false⟩, e) := by
  have htotal : totalExponent (m * 2 ^ k) (e - k) = totalExponent m e := by
    rw [totalExponent, totalExponent, log2_mul_two_pow hm]
    push_cast
    ring
  have hshift : (e - (e - k)).toNat = k := by omega
  rw [shiftToTargetExponent, htotal]
  simp only [h.targetExponent hm, shiftToExponent, hshift]
  rw [ExtendedMantissa.ofMantissaAndAccuracy, shiftRight_exact]
  congr 1
  omega

/-- Rounding changes nothing of a value of a double. -/
theorem roundWithAccuracy_exact {m : ℕ} {e : ℤ} (s : Sign) (hm : 0 < m) (h : Fits m e) (k : ℕ) :
    roundWithAccuracy .binary64 s (m * 2 ^ k) (e - k) .exact = .finite s m e hm := by
  have hagain := shiftToTargetExponent_exact hm h 0
  rw [pow_zero, mul_one, Nat.cast_zero, sub_zero] at hagain
  rw [roundWithAccuracy, shiftToTargetExponent_exact hm h k]
  simp only [ExtendedMantissa.roundedMantissa, ExtendedMantissa.accuracy,
    Accuracy.roundToNearestEven, hagain, dif_neg hm.ne']

section DivisionByTwoPow

variable {m n j : ℕ} {e f : ℤ}

/-- The exponents of a number and of its quotient tell how far apart their significands are. -/
theorem log2_add_exponent (hm : 0 < m) (hn : 0 < n) (h : Fits m e) (hfit : Fits n f)
    (heq : m * 2 ^ (e + 1074).toNat = n * 2 ^ (f + 1074).toNat * 2 ^ j) :
    (m.log2 : ℤ) + e = n.log2 + f + j := by
  have hlow := h.low
  have hlow' := hfit.low
  have hlog := congrArg Nat.log2 heq
  rw [log2_mul_two_pow hm, mul_assoc, ← pow_add, log2_mul_two_pow hn] at hlog
  omega

/-- The dividend, shifted to the exponent at which it is divided. -/
theorem shiftLeft_dividend {k : ℕ} (h : Fits m e) (hlow : -1074 ≤ f - k)
    (hle : f - k ≤ e - (j - 52))
    (heq : m * 2 ^ (e + 1074).toNat = n * 2 ^ (f + 1074).toNat * 2 ^ j) :
    m <<< (e - (j - 52) - (f - k)).toNat = n * 2 ^ k * 2 ^ 52 := by
  have hlow' := h.low
  obtain ⟨shift, hshift⟩ : ∃ shift : ℕ, e - (j - 52) - (f - k) = shift :=
    ⟨(e - (j - 52) - (f - k)).toNat, by omega⟩
  obtain ⟨c, hc⟩ : ∃ c : ℕ, f - k + 1074 = c := ⟨(f - k + 1074).toNat, by omega⟩
  have hleft : shift + (c + j) = (e + 1074).toNat + 52 := by omega
  have hright : k + c = (f + 1074).toNat := by omega
  rw [hshift, Int.toNat_natCast, Nat.shiftLeft_eq]
  refine Nat.eq_of_mul_eq_mul_right (Nat.two_pow_pos (c + j)) ?_
  calc m * 2 ^ shift * 2 ^ (c + j) = m * 2 ^ (e + 1074).toNat * 2 ^ 52 := by
        rw [mul_assoc, ← pow_add, hleft, pow_add, ← mul_assoc]
    _ = n * 2 ^ (k + c) * 2 ^ j * 2 ^ 52 := by rw [heq, hright]
    _ = n * 2 ^ k * 2 ^ 52 * 2 ^ (c + j) := by
        rw [pow_add, pow_add]
        ring

theorem divCore_two_pow (hm : 0 < m) (hn : 0 < n) (h : Fits m e) (hfit : Fits n f) (hj : j ≤ 52)
    (heq : m * 2 ^ (e + 1074).toNat = n * 2 ^ (f + 1074).toNat * 2 ^ j) :
    ∃ k : ℕ, divCore .binary64 m e (2 ^ 52) (j - 52) = (n * 2 ^ k, f - k, .exact) := by
  have hlow := h.low
  have hlow' := hfit.low
  have hlog := h.log2_le hm
  have hlog' := hfit.log2_le hn
  have hlogs := log2_add_exponent hm hn h hfit heq
  obtain ⟨k, hk⟩ : ∃ k : ℕ,
      min (e - (j - 52)) (Format.binary64.targetExponent
        (totalExponent m e - totalExponent (2 ^ 52) (j - 52))) = f - k := by
    refine ⟨(f - max ((n.log2 : ℤ) + f - 53) (-1074)).toNat, ?_⟩
    have h52 : (2 ^ 52 : ℕ).log2 = 52 := Nat.log2_two_pow
    rw [targetExponent_eq, totalExponent, totalExponent, h52]
    omega
  have hle : f - k ≤ e - (j - 52) := hk ▸ min_le_left _ _
  have hlow'' : -1074 ≤ f - k := by
    rw [← hk, targetExponent_eq]
    omega
  have hpos : 0 < 2 ^ 52 := by positivity
  refine ⟨k, ?_⟩
  rw [divCore]
  simp only [hk, shiftLeft_dividend h hlow'' hle heq]
  rw [Nat.mul_div_cancel _ hpos, Nat.mul_mod_left, accuracyOfFraction, if_pos rfl]

/-- Nothing is rounded when the quotient is the size of a double. -/
theorem div_two_pow (s : Sign) (hm : 0 < m) (hn : 0 < n) (h : Fits m e) (hfit : Fits n f)
    (hj : j ≤ 52) (heq : m * 2 ^ (e + 1074).toNat = n * 2 ^ (f + 1074).toNat * 2 ^ j) :
    div .binary64 (.finite s m e hm) (.finite .positive (2 ^ 52) (j - 52) (by positivity)) =
      .finite s n f hn := by
  obtain ⟨k, hcore⟩ := divCore_two_pow hm hn h hfit hj heq
  have hsign : s / Sign.positive = s := by cases s <;> rfl
  simp only [div, hcore, hsign]
  exact roundWithAccuracy_exact s hn hfit k

end DivisionByTwoPow

theorem unpack_two : (2 : Float).toModel.unpack =
    .finite .positive (2 ^ 52) ((1 : ℕ) - 52) (by positivity) := rfl

theorem unpack_four : (4 : Float).toModel.unpack =
    .finite .positive (2 ^ 52) ((2 : ℕ) - 52) (by positivity) := rfl

end AtomArray.Binary64
