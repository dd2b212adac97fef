import AtomArray.Proofs.Binary64.Arithmetic
import AtomArray.Proofs.Rewriting.Rule
import AtomArray.Proofs.WholeExponent

/-! Powers that are rewritten as identities. For a Hadamard gate they are within the tolerance of an
even integer; for a swap, of which only the half is tested, within twice the tolerance. -/

namespace AtomArray

open Float.Model.UnpackedFloat

namespace Binary64

variable {t : Float}

theorem isFinite_of_half (h : (t / 2).isFinite = true) : t.isFinite = true := by
  have hdiv : (t / 2).toModel.unpack = unpack .binary64
      (pack .binary64 (div .binary64 t.toModel.unpack (2 : Float).toModel.unpack)) := rfl
  change (t / 2).toModel.unpack.isFinite = true at h
  change t.toModel.unpack.isFinite = true
  cases ht : t.toModel.unpack with
  | notANumber =>
      rw [hdiv, ht] at h
      cases h
  | infinity s =>
      rw [hdiv, ht, unpack_two, div, unpack_pack_infinity] at h
      cases h
  | zero s => rfl
  | finite s m e hm => rfl

theorem value_two : value 2 = 2 := by
  rw [value_of_finite unpack_two, signOf]
  norm_num

theorem two_zpow_eq_units : (2 : ℚ) ^ (-1021 : ℤ) = 2 ^ 53 / unitsPerOne := by
  rw [cast_unitsPerOne, ← zpow_natCast, ← zpow_sub₀ two_ne_zero]
  norm_num

/-- Only a double of the smallest ones has a half that is rounded. -/
theorem abs_value_lt_of_odd (ht : t.isFinite = true) (hodd : ¬ 2 ∣ magnitude t) :
    |value t| < 2 ^ (-1021 : ℤ) ∧ (t / 2).isFinite = true ∧ |value (t / 2)| < 2 ^ (-1021 : ℤ) := by
  have hsmall : |value t| < 2 ^ (-1021 : ℤ) := by
    have hlt : magnitude t < 2 ^ 53 := by
      by_contra hlarge
      exact hodd (two_dvd_magnitude (not_lt.1 hlarge))
    have hpos : (0 : ℚ) < unitsPerOne := by exact_mod_cast unitsPerOne_pos
    rw [abs_value, two_zpow_eq_units, div_lt_div_iff_of_pos_right hpos]
    exact_mod_cast hlt
  have hhalf : |value t / value 2| < 2 ^ (-1022 : ℤ) := by
    rw [value_two, abs_div, abs_two, div_lt_iff₀ two_pos, ← zpow_add_one₀ two_ne_zero]
    exact hsmall
  have hround : Rounded (value t / value 2) (t / 2) :=
    rounded_div ht (by decide) (by rw [value_two]; exact two_ne_zero) (by decide) hhalf
  have herror := hround.abs_sub_le (k := -1021)
    (hhalf.trans (zpow_lt_zpow_right₀ one_lt_two (by decide))) le_rfl
  refine ⟨hsmall, hround.finite, ?_⟩
  calc |value (t / 2)|
      ≤ |value (t / 2) - value t / value 2| + |value t / value 2| := by
        have := abs_add_le (value (t / 2) - value t / value 2) (value t / value 2)
        rwa [sub_add_cancel] at this
    _ < 2 ^ (-1022 : ℤ) + 2 ^ (-1022 : ℤ) :=
        add_lt_add_of_le_of_lt
          (herror.trans (zpow_le_zpow_right₀ one_le_two (by decide))) hhalf
    _ = 2 ^ (-1021 : ℤ) := by
        rw [← mul_two, ← zpow_add_one₀ two_ne_zero]
        rfl

end Binary64

open Binary64

variable {t : Float}

theorem two_zpow_le_exponentTolerance : 2 ^ (-1021 : ℤ) ≤ value exponentTolerance := by
  obtain ⟨-, hlarge, -⟩ := exponentTolerance_size
  have hpos : (0 : ℚ) < unitsPerOne := by exact_mod_cast unitsPerOne_pos
  rw [value_exponentTolerance, two_zpow_eq_units, div_le_div_iff_of_pos_right hpos]
  exact_mod_cast hlarge

/-- A finite double less than a distance away from an even integer. -/
def NearEven (distance : ℚ) (t : Float) : Prop :=
  t.isFinite = true ∧ ∃ n : ℤ, |value t - 2 * n| < distance

theorem abs_half_sub_lt_iff (n : ℤ) {d : ℚ} :
    |value t / 2 - n| < d ↔ |value t - 2 * n| < 2 * d := by
  have hdouble : value t - 2 * n = 2 * (value t / 2 - n) := by ring
  rw [hdouble, abs_mul, abs_two, mul_lt_mul_iff_right₀ two_pos]

/-- Halving an exponent doubles the tolerance. -/
theorem isWholeExponent_half_iff_nearEven :
    isWholeExponent (t / 2) = true ↔ NearEven (2 * value exponentTolerance) t := by
  rw [isWholeExponent_iff, NearEven]
  by_cases ht : t.isFinite = true
  · rw [and_iff_right ht]
    by_cases heven : 2 ∣ magnitude t
    · obtain ⟨hfinite, hhalf⟩ := value_half ht heven
      rw [and_iff_right hfinite, hhalf]
      exact exists_congr fun n => abs_half_sub_lt_iff n
    · -- both are next to zero
      obtain ⟨hsmall, hfinite, hhalf⟩ := abs_value_lt_of_odd ht heven
      have htolerance := two_zpow_le_exponentTolerance
      have hpos := value_exponentTolerance_pos
      refine iff_of_true ⟨hfinite, 0, ?_⟩ ⟨0, ?_⟩
      · rw [Int.cast_zero, sub_zero]
        exact hhalf.trans_le htolerance
      · rw [Int.cast_zero, mul_zero, sub_zero, two_mul]
        exact (hsmall.trans_le htolerance).trans (lt_add_of_pos_left _ hpos)
  · exact iff_of_false (fun h => ht (isFinite_of_half h.1)) (fun h => ht h.1)

/-- An integer and an even integer that are both near a number are the same. -/
theorem NearEven.of_whole (hwhole : isWholeExponent t = true)
    (hhalf : NearEven (2 * value exponentTolerance) t) : NearEven (value exponentTolerance) t := by
  obtain ⟨hfinite, n, hn⟩ := isWholeExponent_iff.1 hwhole
  obtain ⟨-, k, hk⟩ := hhalf
  have hsmall := value_exponentTolerance_lt
  have hsame : n = 2 * k := by
    have hone : |(n : ℚ) - 2 * k| < 1 := by
      rw [abs_lt] at hn hk ⊢
      constructor <;> linarith
    have hzero : n - 2 * k = 0 := by
      rw [← Int.abs_lt_one_iff]
      exact_mod_cast hone
    omega
  refine ⟨hfinite, k, ?_⟩
  rw [hsame] at hn
  push_cast at hn
  exact hn

theorem NearEven.mono {d d' : ℚ} (h : NearEven d t) (hd : d ≤ d') : NearEven d' t := by
  obtain ⟨hfinite, n, hn⟩ := h
  exact ⟨hfinite, n, hn.trans_le hd⟩

theorem NearEven.whole (h : NearEven (value exponentTolerance) t) : isWholeExponent t = true := by
  obtain ⟨hfinite, n, hn⟩ := h
  refine isWholeExponent_iff.2 ⟨hfinite, 2 * n, ?_⟩
  push_cast
  exact hn

theorem isWholeExponent_and_half_iff : (isWholeExponent t = true ∧ isWholeExponent (t / 2) = true) ↔
    NearEven (value exponentTolerance) t := by
  rw [isWholeExponent_half_iff_nearEven]
  constructor
  · rintro ⟨hwhole, hhalf⟩
    exact hhalf.of_whole hwhole
  · intro h
    have hpos := value_exponentTolerance_pos
    exact ⟨h.whole, h.mono (by linarith)⟩

namespace Rewriting

variable {op : GateOperation}

/-- The operation is rewritten as identities on its qubits. -/
def Idles (op : GateOperation) : Prop :=
  ∃ ops, Strategy.standard.step op = some ops ∧ ops.map GateOperation.draft = op.qubits.map idle

theorem idles_iff_of_rule {drafts : List Draft} (h : Rule op.gate op.qubits drafts) :
    Idles op ↔ drafts = op.qubits.map idle := by
  obtain ⟨ops, -, hstep, hops⟩ := step_of_rule h
  constructor
  · rintro ⟨ops', hstep', hidle⟩
    cases hstep.symm.trans hstep'
    rw [← hops, hidle]
  · intro hidle
    exact ⟨ops, hstep, hops.trans hidle⟩

theorem hadamardPower_eq_idle_iff (q : Qubit) : hadamardPower t q = [idle q] ↔
    isWholeExponent t = true ∧ isWholeExponent (t / 2) = true := by
  unfold hadamardPower hadamard
  split_ifs with hwhole hhalf
  · exact iff_of_true rfl ⟨hwhole, hhalf⟩
  · simp [hhalf]
  · simp [hwhole]

theorem swapPower_eq_idle_iff (a b : Qubit) : swapPower t a b = [idle a, idle b] ↔
    isWholeExponent (t / 2) = true := by
  unfold swapPower
  split_ifs with hhalf
  · exact iff_of_true rfl hhalf
  · simp [hhalf]

theorem idles_hadamard_iff (h : op.gate = .power .h t) :
    Idles op ↔ isWholeExponent t = true ∧ isWholeExponent (t / 2) = true := by
  obtain ⟨q, hq⟩ : ∃ q, op.qubits = [q] := List.length_eq_one_iff.1 (by rw [op.arity, h]; rfl)
  have hrule : Rule op.gate op.qubits (hadamardPower t q) := by
    rw [h, hq]
    exact .h t q
  rw [idles_iff_of_rule hrule, hq]
  exact hadamardPower_eq_idle_iff q

theorem idles_swap_iff (h : op.gate = .power .swap t) :
    Idles op ↔ isWholeExponent (t / 2) = true := by
  obtain ⟨a, b, hab⟩ : ∃ a b, op.qubits = [a, b] := List.length_eq_two.1 (by rw [op.arity, h]; rfl)
  have hrule : Rule op.gate op.qubits (swapPower t a b) := by
    rw [h, hab]
    exact .swap t a b
  rw [idles_iff_of_rule hrule, hab]
  exact swapPower_eq_idle_iff a b

/-- A power of a Hadamard gate is rewritten as an identity just when it is within the tolerance of
an even integer. A power of a swap is so within twice the tolerance: in the band between the two it
is dropped although it does not count as whole. -/
theorem idles_iff_nearEven (op : GateOperation) (t : Float) :
    (op.gate = .power .h t → (Idles op ↔ NearEven (value exponentTolerance) t)) ∧
    (op.gate = .power .swap t →
      (Idles op ↔ NearEven (2 * value exponentTolerance) t) ∧
      (Idles op ∧ isWholeExponent t = false ↔
        NearEven (2 * value exponentTolerance) t ∧ ¬ NearEven (value exponentTolerance) t)) := by
  constructor
  · intro h
    rw [idles_hadamard_iff h, isWholeExponent_and_half_iff]
  · intro h
    rw [idles_swap_iff h, isWholeExponent_half_iff_nearEven]
    refine ⟨Iff.rfl, and_congr_right fun hhalf => ?_⟩
    rw [← Bool.not_eq_true, not_iff_not]
    exact ⟨hhalf.of_whole, NearEven.whole⟩

/-- Powers that are past two by one and a half times the tolerance. -/
def hadamardPastTwo : GateOperation := .single (.power .h 2.0000000015) (.line 0)

def swapPastTwo : GateOperation :=
  ⟨.power .swap 2.0000000015, [.line 0, .line 1], rfl, by decide⟩

theorem idles_iff_nearEven_pastTwo :
    hadamardPastTwo.gate = .power .h 2.0000000015 ∧
    swapPastTwo.gate = .power .swap 2.0000000015 ∧
    (Idles hadamardPastTwo ↔ NearEven (value exponentTolerance) 2.0000000015) ∧
    (Idles swapPastTwo ↔ NearEven (2 * value exponentTolerance) 2.0000000015) := by
  have hswap := (idles_iff_nearEven swapPastTwo 2.0000000015).2 rfl
  exact ⟨rfl, rfl, (idles_iff_nearEven hadamardPastTwo 2.0000000015).1 rfl, hswap.1⟩

/-- There the swap is dropped, although its exponent does not count as whole, and the Hadamard gate
is not. -/
theorem not_idles_swap_iff_hadamard :
    ¬ (∀ (t : Float) (h s : GateOperation), h.gate = .power .h t → s.gate = .power .swap t →
      (Idles s ↔ Idles h)) ∧
    ¬ ∀ (t : Float) (s : GateOperation), s.gate = .power .swap t → isWholeExponent t = false →
      ¬ Idles s := by
  have hwhole : isWholeExponent 2.0000000015 = false := by decide +kernel
  have hhalf : isWholeExponent (2.0000000015 / 2) = true := by decide +kernel
  have hswap : Idles swapPastTwo := (idles_swap_iff rfl).2 hhalf
  constructor
  · intro halike
    have hhadamard := (halike _ hadamardPastTwo swapPastTwo rfl rfl).1 hswap
    rw [((idles_hadamard_iff rfl).1 hhadamard).1] at hwhole
    cases hwhole
  · intro hkept
    exact hkept 2.0000000015 swapPastTwo rfl hwhole hswap

end Rewriting
end AtomArray
