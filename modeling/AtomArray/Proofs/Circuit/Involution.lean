import Mathlib

/-! Powers of involutions, and pairs of involutions that anticommute. -/

namespace AtomArray

open Complex (I)

/-- The phase of a number of half turns. -/
noncomputable def halfTurns (t : ℚ) : ℂ := Complex.exp ((t * Real.pi : ℝ) * I)

section Phases

variable (s t : ℚ)

theorem norm_halfTurns : ‖halfTurns t‖ = 1 := Complex.norm_exp_ofReal_mul_I _

theorem halfTurns_add : halfTurns (s + t) = halfTurns s * halfTurns t := by
  rw [halfTurns, halfTurns, halfTurns, ← Complex.exp_add]
  push_cast
  ring_nf

theorem halfTurns_zero : halfTurns 0 = 1 := by simp [halfTurns]

theorem halfTurns_mul_neg : halfTurns t * halfTurns (-t) = 1 := by
  rw [← halfTurns_add, add_neg_cancel, halfTurns_zero]

theorem halfTurns_one : halfTurns 1 = -1 := by simp [halfTurns]

theorem halfTurns_intCast (n : ℤ) : halfTurns n = (-1) ^ n := by
  rw [← halfTurns_one, halfTurns, halfTurns, ← Complex.exp_int_mul]
  push_cast
  ring_nf

theorem halfTurns_quarter : halfTurns (1 / 4) = (Real.sqrt 2 : ℂ)⁻¹ * (1 + I) := by
  have hangle : ((1 / 4 : ℚ) * Real.pi : ℝ) = Real.pi / 4 := by
    push_cast
    ring
  have hsqrt : Real.sqrt 2 / 2 = (Real.sqrt 2)⁻¹ := by rw [Real.sqrt_div_self', one_div]
  rw [halfTurns, Complex.exp_mul_I, ← Complex.ofReal_cos, ← Complex.ofReal_sin, hangle,
    Real.cos_pi_div_four, Real.sin_pi_div_four, hsqrt]
  push_cast
  ring

theorem sqrt_two_inv_mul_self : (Real.sqrt 2 : ℂ)⁻¹ * (Real.sqrt 2 : ℂ)⁻¹ = 1 / 2 := by
  have hsq : (Real.sqrt 2 : ℂ) * Real.sqrt 2 = 2 := by
    exact_mod_cast Real.mul_self_sqrt (by norm_num : (0 : ℝ) ≤ 2)
  rw [← mul_inv, hsq, one_div]

theorem halfTurns_half : halfTurns (1 / 2) = I := by
  have hsum : (1 / 2 : ℚ) = 1 / 4 + 1 / 4 := by norm_num
  rw [hsum, halfTurns_add, halfTurns_quarter, mul_mul_mul_comm, sqrt_two_inv_mul_self]
  linear_combination Complex.I_sq / 2

end Phases

variable {A : Type*} [Ring A] [Algebra ℂ A] {P Q U V X Z : A}

/-- The power of an involution that leaves alone what it fixes and turns by `t` what it negates. -/
noncomputable def involutionPower (t : ℚ) (P : A) : A :=
  ((1 + halfTurns t) / 2) • 1 + ((1 - halfTurns t) / 2) • P

theorem involutionPower_add (hP : P * P = 1) (s t : ℚ) :
    involutionPower (s + t) P = involutionPower s P * involutionPower t P := by
  simp only [involutionPower, halfTurns_add, mul_add, add_mul, smul_mul_smul_comm, hP, mul_one,
    one_mul]
  module

theorem involutionPower_one : involutionPower 1 P = P := by
  rw [involutionPower, halfTurns_one]
  norm_num

theorem involutionPower_of_even {n : ℤ} (hn : Even n) : involutionPower n P = 1 := by
  rw [involutionPower, halfTurns_intCast, hn.neg_one_zpow]
  norm_num

theorem involutionPower_of_odd {n : ℤ} (hn : Odd n) : involutionPower n P = P := by
  rw [involutionPower, halfTurns_intCast, hn.neg_one_zpow]
  norm_num

theorem involutionPower_mul_neg (hP : P * P = 1) (t : ℚ) :
    involutionPower t P * involutionPower (-t) P = 1 := by
  have hzero := involutionPower_of_even (P := P) Even.zero
  rw [← involutionPower_add hP, add_neg_cancel]
  exact_mod_cast hzero

theorem isUnit_involutionPower (hP : P * P = 1) (t : ℚ) : IsUnit (involutionPower t P) := by
  have hleft := involutionPower_mul_neg hP (-t)
  rw [neg_neg] at hleft
  exact ⟨⟨_, _, involutionPower_mul_neg hP t, hleft⟩, rfl⟩

/-- Conjugation goes through a power. -/
theorem conj_involutionPower (hUV : U * V = 1) (t : ℚ) :
    U * involutionPower t P * V = involutionPower t (U * P * V) := by
  simp only [involutionPower, mul_add, add_mul, mul_smul_comm, smul_mul_assoc, mul_one, hUV]

/-- A power passes an involution that anticommutes with its base with the sign of its exponent
changed. -/
theorem mul_involutionPower (h : Q * P = -(P * Q)) (t : ℚ) :
    Q * involutionPower t P = halfTurns t • (involutionPower (-t) P * Q) := by
  have hunit := halfTurns_mul_neg t
  simp only [involutionPower, mul_add, add_mul, mul_smul_comm, smul_mul_assoc, mul_one, one_mul, h]
  simp only [smul_add, smul_smul]
  have hfirst : halfTurns t * ((1 + halfTurns (-t)) / 2) = (1 + halfTurns t) / 2 := by
    linear_combination hunit / 2
  have hsecond : halfTurns t * ((1 - halfTurns (-t)) / 2) = -((1 - halfTurns t) / 2) := by
    linear_combination -hunit / 2
  rw [hfirst, hsecond]
  module

/-- Two involutions that anticommute. -/
structure Anticommuting (X Z : A) : Prop where
  left : X * X = 1
  right : Z * Z = 1
  anti : Z * X = -(X * Z)

/-- The involution half way between two others. -/
noncomputable def halfway (X Z : A) : A := (Real.sqrt 2 : ℂ)⁻¹ • (X + Z)

/-- The third involution of two. -/
noncomputable def third (X Z : A) : A := I • (X * Z)

namespace Anticommuting

variable (h : Anticommuting X Z)
include h

theorem halfway_mul_self : halfway X Z * halfway X Z = 1 := by
  simp only [halfway, smul_mul_smul_comm, sqrt_two_inv_mul_self, mul_add, add_mul, h.left, h.right,
    h.anti]
  module

/-- Conjugation with the involution half way between them exchanges the two. -/
theorem conj_halfway : halfway X Z * Z * halfway X Z = X := by
  have hleft : X * Z * X = -Z := by
    rw [mul_assoc, h.anti, mul_neg, ← mul_assoc, h.left, one_mul]
  have hright : X * Z * Z = X := by rw [mul_assoc, h.right, mul_one]
  rw [halfway, smul_mul_assoc, smul_mul_smul_comm, sqrt_two_inv_mul_self]
  simp only [mul_add, add_mul, h.right, one_mul, hleft, hright]
  module

theorem third_mul_self : third X Z * third X Z = 1 := by
  have hsquare : X * Z * (X * Z) = -1 := by
    rw [mul_assoc, ← mul_assoc Z, h.anti, neg_mul, mul_neg, mul_assoc, h.right, mul_one, h.left]
  rw [third, smul_mul_smul_comm, hsquare, Complex.I_mul_I]
  simp

theorem mul_third : Z * third X Z = -(third X Z * Z) := by
  rw [third, mul_smul_comm, smul_mul_assoc, ← mul_assoc, h.anti, neg_mul, smul_neg]

/-- Half a turn about one axis and then a quarter turn about the third is the involution half way,
up to an eighth of a turn. -/
theorem half_third_mul :
    involutionPower (1 / 2) (third X Z) * Z = halfTurns (1 / 4) • halfway X Z := by
  have hthird : third X Z * Z = I • X := by
    rw [third, smul_mul_assoc, mul_assoc, h.right, mul_one]
  have hphase : halfTurns (1 / 4) * (Real.sqrt 2 : ℂ)⁻¹ = (1 + I) / 2 := by
    rw [halfTurns_quarter, mul_right_comm, sqrt_two_inv_mul_self]
    ring
  have hX : (1 - I) / 2 * I = (1 + I) / 2 := by linear_combination -Complex.I_sq / 2
  rw [involutionPower, halfTurns_half, halfway, add_mul, smul_mul_assoc, smul_mul_assoc, one_mul,
    hthird, smul_smul, smul_smul, hphase, hX]
  module

/-- An eighth of a turn about the third axis takes one axis to the axis half way. -/
theorem conj_quarter_third :
    involutionPower (1 / 4) (third X Z) * Z * involutionPower (-(1 / 4)) (third X Z) =
      halfway X Z := by
  have hhalf : (1 / 2 : ℚ) = 1 / 4 + 1 / 4 := by norm_num
  rw [mul_assoc, mul_involutionPower h.mul_third, neg_neg, mul_smul_comm, ← mul_assoc,
    ← involutionPower_add h.third_mul_self, ← hhalf, h.half_third_mul, smul_smul, mul_comm,
    halfTurns_mul_neg, one_smul]

end Anticommuting
end AtomArray
