import AtomArray.Proofs.Circuit.Bits
import AtomArray.Proofs.Circuit.Involution

/-! Operators on the amplitudes of a register, built from flips and signs of basis states. -/

namespace AtomArray

/-- An amplitude for each assignment of bits. -/
abbrev Amplitudes (W : Type) := (W → Bool) → ℂ

abbrev Operator (W : Type) := Module.End ℂ (Amplitudes W)

/-- The one algebra of operators that all their statements are about. -/
noncomputable instance (W : Type) : Algebra ℂ (Operator W) := inferInstance

namespace Operator

variable {W : Type}

/-- Reads each amplitude where a map of basis states sends it. -/
def pull (f : (W → Bool) → W → Bool) : Operator W := LinearMap.funLeft ℂ ℂ f

/-- Changes the sign of the amplitudes at which some wires are all set. -/
def sign (ws : List W) : Operator W := LinearMap.mulLeft ℂ fun s => if ws.all s then -1 else 1

section

variable {f g : (W → Bool) → W → Bool} {ws : List W} {s : W → Bool} {ψ : Amplitudes W}

theorem pull_apply : pull f ψ s = ψ (f s) := rfl

theorem pull_mul_pull : pull f * pull g = pull fun s => g (f s) := rfl

theorem pull_eq_one (h : ∀ s, f s = s) : pull f = 1 := by
  apply LinearMap.ext
  intro ψ
  funext s
  rw [pull_apply, h]
  rfl

theorem sign_mul_self (ws : List W) : sign ws * sign ws = 1 := by
  apply LinearMap.ext
  intro ψ
  funext s
  change (if ws.all s then -1 else 1) * ((if ws.all s then -1 else 1) * ψ s) = ψ s
  split_ifs <;> ring

theorem involutionPower_apply_of_fixed {P : Operator W} (h : P ψ = ψ) (t : ℚ) :
    involutionPower t P ψ = ψ := by
  change ((1 + halfTurns t) / 2) • ψ + ((1 - halfTurns t) / 2) • P ψ = ψ
  rw [h]
  module

theorem involutionPower_apply_of_negated {P : Operator W} (h : P ψ = -ψ) (t : ℚ) :
    involutionPower t P ψ = halfTurns t • ψ := by
  change ((1 + halfTurns t) / 2) • ψ + ((1 - halfTurns t) / 2) • P ψ = _
  rw [h]
  module

/-- A power of a sign turns the amplitudes that the sign changes. -/
theorem involutionPower_sign (t : ℚ) :
    involutionPower t (sign ws) ψ s = (if ws.all s then halfTurns t else 1) * ψ s := by
  change (1 + halfTurns t) / 2 * ψ s +
    (1 - halfTurns t) / 2 * ((if ws.all s then -1 else 1) * ψ s) = _
  split_ifs <;> ring

theorem sign_append (ws : List W) (w : W) :
    sign (ws ++ [w]) = (1 / 2 : ℂ) • (1 + sign ws) + (1 / 2 : ℂ) • ((1 - sign ws) * sign [w]) := by
  apply LinearMap.ext
  intro ψ
  funext s
  change (if (ws ++ [w]).all s then -1 else 1) * ψ s =
    1 / 2 * (ψ s + (if ws.all s then -1 else 1) * ψ s) +
    1 / 2 * ((if [w].all s then -1 else 1) * ψ s -
      (if ws.all s then -1 else 1) * ((if [w].all s then -1 else 1) * ψ s))
  cases hws : ws.all s <;> cases hw : s w <;> simp [hws, hw] <;> ring

end

variable [DecidableEq W]

/-- The flip of one wire, in every basis state in which the controls are set. -/
def not (controls : List W) (w : W) : Operator W := pull (Bits.flip controls w)

noncomputable def hadamard (w : W) : Operator W := halfway (not [] w) (sign [w])

def exchange (a b : W) : Operator W := pull fun s => s ∘ Equiv.swap a b

variable {ws controls : List W} {a b w : W} {s : W → Bool} {ψ : Amplitudes W}

theorem exchange_mul_self (a b : W) : exchange a b * exchange a b = 1 := by
  rw [exchange, pull_mul_pull]
  apply pull_eq_one
  intro s
  funext w
  simp

theorem not_mul_self (hw : w ∉ controls) : not controls w * not controls w = 1 := by
  rw [not, pull_mul_pull]
  apply pull_eq_one
  intro s
  exact Bits.flip_flip s hw

/-- The flip and the sign of one wire anticommute. -/
theorem anticommuting (w : W) : Anticommuting (not [] w) (sign [w]) := by
  refine ⟨not_mul_self List.not_mem_nil, sign_mul_self [w], ?_⟩
  · apply LinearMap.ext
    intro ψ
    funext s
    change (if [w].all s then -1 else 1) * ψ (Bits.flip [] w s) =
      -((if [w].all (Bits.flip [] w s) then -1 else 1) * ψ (Bits.flip [] w s))
    cases hw : s w <;> simp [hw]

/-- The third involution of a wire is the Y of the Pauli matrices. -/
theorem third_apply : third (not [] w) (sign [w]) ψ s =
    (if s w then Complex.I else -Complex.I) * ψ (Bits.flip [] w s) := by
  change Complex.I * ((if [w].all (Bits.flip [] w s) then -1 else 1) * ψ (Bits.flip [] w s)) = _
  cases hw : s w <;> simp [hw]

theorem hadamard_mul_self (w : W) : hadamard w * hadamard w = 1 :=
  (anticommuting w).halfway_mul_self

theorem isUnit_conj_hadamard (ws : List W) (w : W) (t : ℚ) :
    IsUnit (hadamard w * involutionPower t (sign ws) * hadamard w) := by
  have hhadamard : IsUnit (hadamard w) := ⟨⟨_, _, hadamard_mul_self w, hadamard_mul_self w⟩, rfl⟩
  exact (hhadamard.mul (isUnit_involutionPower (sign_mul_self ws) t)).mul hhadamard

/-- What happens on a wire commutes with a sign of other wires. -/
theorem hadamard_mul_sign (hw : w ∉ ws) : hadamard w * sign ws = sign ws * hadamard w := by
  have hnot : not [] w * sign ws = sign ws * not [] w := by
    apply LinearMap.ext
    intro ψ
    funext s
    change (if ws.all (Bits.flip [] w s) then -1 else 1) * ψ (Bits.flip [] w s) =
      (if ws.all s then -1 else 1) * ψ (Bits.flip [] w s)
    rw [Bits.all_flip s hw]
  have hsign : sign [w] * sign ws = sign ws * sign [w] := by
    apply LinearMap.ext
    intro ψ
    funext s
    change (if [w].all s then -1 else 1) * ((if ws.all s then -1 else 1) * ψ s) =
      (if ws.all s then -1 else 1) * ((if [w].all s then -1 else 1) * ψ s)
    exact mul_left_comm _ _ _
  rw [hadamard, halfway, smul_mul_assoc, mul_smul_comm, add_mul, mul_add, hnot, hsign]

theorem not_eq (controls : List W) (w : W) :
    not controls w = (1 / 2 : ℂ) • (1 + sign controls) +
      (1 / 2 : ℂ) • ((1 - sign controls) * not [] w) := by
  apply LinearMap.ext
  intro ψ
  funext s
  change ψ (Bits.flip controls w s) =
    1 / 2 * (ψ s + (if controls.all s then -1 else 1) * ψ s) +
    1 / 2 * (ψ (Bits.flip [] w s) - (if controls.all s then -1 else 1) * ψ (Bits.flip [] w s))
  cases h : controls.all s with
  | true =>
      rw [Bits.flip_of_set s h, if_pos rfl]
      ring
  | false =>
      rw [Bits.flip_of_clear s h, if_neg Bool.false_ne_true]
      ring

/-- Between Hadamard gates on a wire, the sign of the wire and its controls becomes the controlled
flip of the wire. -/
theorem conj_hadamard (hw : w ∉ controls) :
    hadamard w * sign (controls ++ [w]) * hadamard w = not controls w := by
  have hsign := hadamard_mul_sign hw
  have hsum : hadamard w * (1 + sign controls) = (1 + sign controls) * hadamard w := by
    rw [mul_add, add_mul, mul_one, one_mul, hsign]
  have hdiff : hadamard w * (1 - sign controls) = (1 - sign controls) * hadamard w := by
    rw [mul_sub, sub_mul, mul_one, one_mul, hsign]
  have hturn : hadamard w * sign [w] * hadamard w = not [] w := (anticommuting w).conj_halfway
  rw [sign_append, not_eq, mul_add, add_mul, mul_smul_comm, mul_smul_comm, smul_mul_assoc,
    smul_mul_assoc]
  congr 2
  · rw [hsum, mul_assoc, hadamard_mul_self, mul_one]
  · rw [← mul_assoc, hdiff, mul_assoc (1 - sign controls), mul_assoc, hturn]

theorem not_mul_not_mul_not (hab : a ≠ b) :
    not [a] b * not [b] a * not [a] b = exchange a b := by
  rw [not, not, pull_mul_pull, pull_mul_pull]
  apply congrArg pull
  funext s
  exact Bits.flip_flip_flip s hab

end Operator
end AtomArray
