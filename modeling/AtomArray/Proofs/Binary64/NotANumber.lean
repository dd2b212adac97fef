import AtomArray.Proofs.Binary64.Value

/-! Which operations on doubles make a NaN. -/

namespace AtomArray.Binary64

open Float.Model (Format UnpackedFloat)
open Float.Model.UnpackedFloat

/-! Packing and rounding neither make a NaN nor lose one, and they keep the sign. -/

/-- NaN, or a sign that is not minus. -/
def clear : UnpackedFloat → Bool
  | .notANumber => true
  | .infinity s | .zero s | .finite s _ _ _ => s == .positive

/-- No NaN, and the sign is the given one. -/
structure Signed (s : Sign) (u : UnpackedFloat) : Prop where
  number : u.isNaN = false
  clear_iff : clear u = (s == .positive)

/-- Unpacking makes a NaN only where the exponent bits are all set. -/
theorem signed_unpack_packComponents (s : Sign) {exponent : BitVec 11} (mantissa : BitVec 52)
    (h : exponent ≠ -1#11) :
    Signed s (unpack .binary64 (packComponents .binary64 s exponent mantissa)) := by
  simp only [unpack, unpackExponent_packComponents, unpackMantissa_packComponents,
    unpackSign_packComponents, Sign.ofBitVec_toBitVec, if_neg h]
  split_ifs <;> exact ⟨rfl, rfl⟩

/-- A finite value may overflow when it is packed, but it keeps its sign and is no NaN. -/
theorem signed_unpack_pack_finite (s : Sign) (m : ℕ) (e : ℤ) (hm : 0 < m) :
    Signed s (unpack .binary64 (pack .binary64 (.finite s m e hm))) := by
  simp only [pack]
  split_ifs with hover hnormal
  · rw [← pack, unpack_pack_infinity]
    exact ⟨rfl, rfl⟩
  · apply signed_unpack_packComponents
    intro h
    have hfield := congrArg BitVec.toNat h
    rw [BitVec.toNat_ofNat] at hfield
    change _ % 2048 = 2047 at hfield
    change ¬ 2048 ≤ _ + 1 at hover
    omega
  · exact signed_unpack_packComponents s _ (by decide)

theorem isNaN_unpack_pack (u : UnpackedFloat) :
    (unpack .binary64 (pack .binary64 u)).isNaN = u.isNaN := by
  cases u with
  | notANumber => rfl
  | infinity s => rw [unpack_pack_infinity]
  | zero s => simp only [pack, unpack_packedZero]
  | finite s m e hm => exact (signed_unpack_pack_finite s m e hm).number

theorem clear_unpack_pack (u : UnpackedFloat) :
    clear (unpack .binary64 (pack .binary64 u)) = clear u := by
  cases u with
  | notANumber => rfl
  | infinity s => rw [unpack_pack_infinity]
  | zero s => simp only [pack, unpack_packedZero]
  | finite s m e hm => exact (signed_unpack_pack_finite s m e hm).clear_iff

theorem signed_roundWithAccuracy (s : Sign) (m : ℕ) (e : ℤ) (acc : Accuracy) :
    Signed s (roundWithAccuracy .binary64 s m e acc) := by
  unfold roundWithAccuracy
  simp only
  split <;> exact ⟨rfl, rfl⟩

/-! A square is not negative, so a sum of squares and its root are NaN only where a term is. -/

variable {u v : UnpackedFloat}

theorem isNaN_normalize (n : ℤ) (e : ℤ) :
    (UnpackedFloat.normalize .binary64 n e .positive).isNaN = false := by
  unfold UnpackedFloat.normalize
  split
  · exact (signed_roundWithAccuracy _ _ _ _).number
  · rfl
  · exact (signed_roundWithAccuracy _ _ _ _).number

theorem clear_normalize {n : ℤ} (hn : 0 ≤ n) (e : ℤ) :
    clear (UnpackedFloat.normalize .binary64 n e .positive) = true := by
  unfold UnpackedFloat.normalize
  split
  next hneg =>
    have := Int.compare_eq_lt.1 hneg
    omega
  next => rfl
  next => exact (signed_roundWithAccuracy _ _ _ _).clear_iff

theorem mul_self_clear (u : UnpackedFloat) :
    (mul .binary64 u u).isNaN = u.isNaN ∧ clear (mul .binary64 u u) = true := by
  cases u with
  | notANumber => exact ⟨rfl, rfl⟩
  | infinity s => cases s <;> exact ⟨rfl, rfl⟩
  | zero s => cases s <;> exact ⟨rfl, rfl⟩
  | finite s m e hm =>
      have hsign : (s * s == .positive) = true := by cases s <;> rfl
      have hround := signed_roundWithAccuracy (s * s) (m * m) (e + e) .exact
      exact ⟨hround.number, hround.clear_iff.trans hsign⟩

theorem add_clear (hu : clear u = true) (hv : clear v = true) :
    (add .binary64 u v).isNaN = (u.isNaN || v.isNaN) ∧ clear (add .binary64 u v) = true := by
  cases u with
  | notANumber => exact ⟨rfl, rfl⟩
  | infinity s =>
      obtain rfl : s = .positive := eq_of_beq hu
      cases v with
      | infinity t =>
          obtain rfl : t = .positive := eq_of_beq hv
          exact ⟨rfl, rfl⟩
      | _ => exact ⟨rfl, rfl⟩
  | zero s =>
      obtain rfl : s = .positive := eq_of_beq hu
      cases v with
      | zero t =>
          obtain rfl : t = .positive := eq_of_beq hv
          exact ⟨rfl, rfl⟩
      | notANumber => exact ⟨rfl, rfl⟩
      | infinity t => exact ⟨rfl, hv⟩
      | finite t n f hn => exact ⟨rfl, hv⟩
  | finite s m e hm =>
      obtain rfl : s = .positive := eq_of_beq hu
      cases v with
      | finite t n f hn =>
          obtain rfl : t = .positive := eq_of_beq hv
          exact ⟨isNaN_normalize _ _, clear_normalize (Int.natCast_nonneg _) _⟩
      | notANumber => exact ⟨rfl, rfl⟩
      | infinity t => exact ⟨rfl, hv⟩
      | zero t => exact ⟨rfl, rfl⟩

theorem isNaN_sqrt_of_clear (hu : clear u = true) : (sqrt .binary64 u).isNaN = u.isNaN := by
  cases u with
  | notANumber => rfl
  | infinity s =>
      obtain rfl : s = .positive := eq_of_beq hu
      rfl
  | zero s => rfl
  | finite s m e hm =>
      obtain rfl : s = .positive := eq_of_beq hu
      exact (signed_roundWithAccuracy _ _ _ _).number

/-- Only equal infinities leave a NaN that was not there before. -/
theorem isNaN_sub_iff : (sub .binary64 u v).isNaN = true ↔
    u.isNaN = true ∨ v.isNaN = true ∨ ∃ s, u = .infinity s ∧ v = .infinity s := by
  cases u with
  | notANumber => simp [sub, UnpackedFloat.isNaN]
  | infinity s =>
      cases v with
      | infinity t => cases s <;> cases t <;> simp [sub, UnpackedFloat.isNaN] <;> decide
      | _ => simp [sub, UnpackedFloat.isNaN]
  | zero s =>
      cases v with
      | zero t =>
          have h : (sub .binary64 (.zero s) (.zero t)).isNaN = false := by
            cases s <;> cases t <;> rfl
          rw [h]
          simp [UnpackedFloat.isNaN]
      | _ => simp [sub, UnpackedFloat.isNaN]
  | finite s m e hm =>
      cases v with
      | finite t n f hn =>
          have h : (sub .binary64 (.finite s m e hm) (.finite t n f hn)).isNaN = false :=
            isNaN_normalize _ _
          rw [h]
          simp [UnpackedFloat.isNaN]
      | _ => simp [sub, UnpackedFloat.isNaN]

theorem compare_swap (hu : u.isNaN = false) (hv : v.isNaN = false) :
    ∃ o, u.compare v = some o ∧ v.compare u = some o.swap := by
  cases u with
  | notANumber => cases hu
  | infinity s =>
      cases v with
      | notANumber => cases hv
      | infinity t => cases s <;> cases t <;> exact ⟨_, rfl, rfl⟩
      | _ => cases s <;> exact ⟨_, rfl, rfl⟩
  | zero s =>
      cases v with
      | notANumber => cases hv
      | zero t => exact ⟨_, rfl, rfl⟩
      | infinity t => cases t <;> exact ⟨_, rfl, rfl⟩
      | finite t n f hn => cases t <;> exact ⟨_, rfl, rfl⟩
  | finite s m e hm =>
      cases v with
      | notANumber => cases hv
      | zero t => cases s <;> exact ⟨_, rfl, rfl⟩
      | infinity t => cases s <;> cases t <;> exact ⟨_, rfl, rfl⟩
      | finite t n f hn =>
          have hswap : (compare f e).then (compare n m) =
              ((compare e f).then (compare m n)).swap := by
            rw [Ordering.swap_then, Int.compare_swap, Nat.compare_swap]
          cases s <;> cases t
          · exact ⟨_, rfl, congrArg some (by rw [hswap])⟩
          · exact ⟨_, rfl, rfl⟩
          · exact ⟨_, rfl, rfl⟩
          · exact ⟨_, rfl, congrArg some (by rw [hswap])⟩

theorem not_lt_iff (hv : v.isNaN = false) : ¬ v.lt u = true ↔ u.le v = true ∨ u.isNaN = true := by
  cases hu : u.isNaN with
  | true =>
      obtain rfl := isNaN_iff.1 hu
      cases v <;> simp [UnpackedFloat.lt, UnpackedFloat.compare]
  | false =>
      obtain ⟨o, huv, hvu⟩ := compare_swap hu hv
      rw [UnpackedFloat.lt, UnpackedFloat.le, huv, hvu]
      cases o <;> simp

/-! The same on doubles. -/

variable {x y : Float}

theorem unpack_inj : x.toModel.unpack = y.toModel.unpack ↔ x = y := by
  constructor
  · intro h
    rw [← Float.toBits_inj, ← UInt64.toBitVec_inj]
    exact (unpack_inj_of_valid x.toModel.valid y.toModel.valid).1 h
  · rintro rfl
    rfl

theorem isNaN_div_of_finite {s : Sign} {m : ℕ} {e : ℤ} {hm : 0 < m} (hx : x.isFinite = true)
    (hy : y.toModel.unpack = .finite s m e hm) : (x / y).isNaN = false := by
  have hdiv : (x / y).isNaN = (div .binary64 x.toModel.unpack y.toModel.unpack).isNaN :=
    isNaN_unpack_pack _
  rw [hdiv, hy]
  rcases finite_cases hx with ⟨t, hzero⟩ | ⟨t, n, f, hn, hfinite⟩
  · rw [hzero]
    rfl
  · rw [hfinite]
    exact (signed_roundWithAccuracy _ _ _ _).number

theorem not_nan_inf_of_finite (h : x.isFinite = true) :
    x.isNaN = false ∧ x.isInf = false := by
  change x.toModel.unpack.isNaN = false ∧ x.toModel.unpack.isInf = false
  rcases finite_cases h with ⟨s, hzero⟩ | ⟨s, m, e, hm, hfinite⟩
  · rw [hzero]
    exact ⟨rfl, rfl⟩
  · rw [hfinite]
    exact ⟨rfl, rfl⟩

/-- A change of sign changes every double but NaN. -/
theorem neg_ne_self (hx : x.isNaN = false) : -x ≠ x := by
  intro h
  have hneg := unpack_neg x
  rw [h] at hneg
  change x.toModel.unpack.isNaN = false at hx
  cases hu : x.toModel.unpack with
  | notANumber => simp [hu, UnpackedFloat.isNaN] at hx
  | infinity s => cases s <;> simp [hu, neg] at hneg
  | zero s => cases s <;> simp [hu, neg] at hneg
  | finite s m e hm => cases s <;> simp [hu, neg] at hneg

theorem isNaN_sub : (x - y).isNaN = true ↔
    x.isNaN = true ∨ y.isNaN = true ∨ x.isInf = true ∧ x = y := by
  have hsub : (x - y).isNaN = (sub .binary64 x.toModel.unpack y.toModel.unpack).isNaN :=
    isNaN_unpack_pack _
  rw [hsub, isNaN_sub_iff]
  refine or_congr Iff.rfl (or_congr Iff.rfl ?_)
  constructor
  · rintro ⟨s, hx, hy⟩
    refine ⟨?_, ?_⟩
    · change x.toModel.unpack.isInf = true
      rw [hx]
      rfl
    · exact unpack_inj.1 (hx.trans hy.symm)
  · rintro ⟨hinf, rfl⟩
    change x.toModel.unpack.isInf = true at hinf
    cases hu : x.toModel.unpack with
    | infinity s => exact ⟨s, rfl, rfl⟩
    | notANumber => simp [hu, UnpackedFloat.isInf] at hinf
    | zero s => simp [hu, UnpackedFloat.isInf] at hinf
    | finite s m e hm => simp [hu, UnpackedFloat.isInf] at hinf

/-- The square of a double: as far from being a number as the double, and never below zero. -/
theorem isNaN_mul_self (x : Float) :
    (x * x).isNaN = x.isNaN ∧ clear (x * x).toModel.unpack = true := by
  have hsquare := mul_self_clear x.toModel.unpack
  constructor
  · exact (isNaN_unpack_pack _).trans hsquare.1
  · exact (clear_unpack_pack _).trans hsquare.2

theorem isNaN_add (hx : clear x.toModel.unpack = true) (hy : clear y.toModel.unpack = true) :
    (x + y).isNaN = (x.isNaN || y.isNaN) ∧ clear (x + y).toModel.unpack = true := by
  have hsum := add_clear hx hy
  constructor
  · exact (isNaN_unpack_pack _).trans hsum.1
  · exact (clear_unpack_pack _).trans hsum.2

theorem isNaN_sqrt (hx : clear x.toModel.unpack = true) : x.sqrt.isNaN = x.isNaN :=
  (isNaN_unpack_pack _).trans (isNaN_sqrt_of_clear hx)

theorem lt_iff_unpack : x < y ↔ x.toModel.unpack.lt y.toModel.unpack = true :=
  decide_eq_true_iff (p := x.toModel < y.toModel)

theorem le_iff_unpack : x ≤ y ↔ x.toModel.unpack.le y.toModel.unpack = true :=
  decide_eq_true_iff (p := x.toModel ≤ y.toModel)

/-- NaN is neither within a bound nor beyond it, and any other number is one of the two. -/
theorem not_lt_iff_le_or_isNaN (hy : y.isNaN = false) : ¬ y < x ↔ x ≤ y ∨ x.isNaN = true := by
  rw [lt_iff_unpack, le_iff_unpack]
  exact not_lt_iff hy

/-- Every number but NaN equals itself. -/
theorem beq_self (hx : x.isNaN = false) : (x == x) = true := by
  change x.toModel.unpack.isNaN = false at hx
  change x.toModel.unpack.beq x.toModel.unpack = true
  obtain ⟨o, hcompare, hswap⟩ := compare_swap hx hx
  rw [hcompare, Option.some.injEq] at hswap
  rw [UnpackedFloat.beq, hcompare]
  cases o with
  | eq => rfl
  | lt => cases hswap
  | gt => cases hswap

end AtomArray.Binary64
