import AtomArray.Proofs.Rewriting.Rule
import AtomArray.Proofs.WholeExponent
import Mathlib.Algebra.Ring.Int.Parity

/-! The wires of a register, and the gates that only move its basis states about. -/

namespace AtomArray

variable {W : Type}

/-- The register has a wire of its own for each of the qubits. -/
def Separates (wire : Qubit.Identity → W) (qs : List Qubit) : Prop :=
  (qs.map fun q => wire q.identity).Nodup

theorem separates_identity {qs : List Qubit} (h : Qubit.Distinct qs) : Separates id qs := h

section

variable {wire : Qubit.Identity → W} {a b c : Qubit}

theorem separates_two : Separates wire [a, b] ↔ wire a.identity ≠ wire b.identity := by
  simp [Separates]

theorem separates_three : Separates wire [a, b, c] ↔ wire a.identity ≠ wire b.identity ∧
    wire a.identity ≠ wire c.identity ∧ wire b.identity ≠ wire c.identity := by
  simp [Separates, and_assoc]

end

namespace Circuit

/-- Runs operations one after the other, up to the first that has no action. -/
def run? {S : Type} (act? : Gate → List W → S → Option S) (wire : Qubit.Identity → W)
    (drafts : List Rewriting.Draft) (s : S) : Option S :=
  drafts.foldlM (fun s draft => act? draft.gate (draft.qubits.map fun q => wire q.identity) s) s

variable {S : Type} {act? : Gate → List W → S → Option S} {wire : Qubit.Identity → W}
  {draft : Rewriting.Draft} {drafts : List Rewriting.Draft} {s t : S}

@[simp] theorem run?_nil : run? act? wire [] s = some s := rfl

theorem run?_cons (h : act? draft.gate (draft.qubits.map fun q => wire q.identity) s = some t) :
    run? act? wire (draft :: drafts) s = run? act? wire drafts t := by
  rw [run?, List.foldlM_cons, h]
  rfl

end Circuit

namespace Bits

variable [DecidableEq W]

/-- Flips the target if every control is set. -/
def flip (controls : List W) (target : W) (s : W → Bool) : W → Bool :=
  Function.update s target (s target ^^ controls.all s)

variable {controls : List W} {a b c w : W} (s : W → Bool)

@[simp] theorem flip_self : flip controls a s a = (s a ^^ controls.all s) :=
  Function.update_self a _ s

theorem flip_of_ne (h : w ≠ a) : flip controls a s w = s w := Function.update_of_ne h _ s

theorem flip_of_clear (h : controls.all s = false) : flip controls a s = s := by
  rw [flip, h, Bool.xor_false, Function.update_eq_self]

theorem flip_of_set (h : controls.all s = true) : flip controls a s = flip [] a s := by
  rw [flip, flip, h, List.all_nil]

theorem flip_cons_of_set (h : s b = true) : flip (b :: controls) a s = flip controls a s := by
  rw [flip, flip, List.all_cons, h, Bool.true_and]

theorem all_flip {ws : List W} (ha : a ∉ ws) : ws.all (flip controls a s) = ws.all s := by
  rw [Bool.eq_iff_iff, List.all_eq_true, List.all_eq_true]
  apply forall₂_congr
  intro w hw
  rw [flip_of_ne s (ne_of_mem_of_not_mem hw ha)]

theorem flip_flip (ha : a ∉ controls) : flip controls a (flip controls a s) = s := by
  funext w
  by_cases hw : w = a
  · subst hw
    rw [flip_self, flip_self, all_flip s ha, Bool.xor_assoc, Bool.xor_self, Bool.xor_false]
  · rw [flip_of_ne _ hw, flip_of_ne _ hw]

/-- Three flips in turn exchange two bits. -/
theorem flip_flip_flip (hab : a ≠ b) :
    flip [a] b (flip [b] a (flip [a] b s)) = s ∘ Equiv.swap a b := by
  funext w
  rw [Function.comp_apply]
  by_cases hb : w = b
  · subst hb
    rw [Equiv.swap_apply_right]
    simp [flip_of_ne _ hab, flip_of_ne _ hab.symm]
  · rw [flip_of_ne _ hb]
    by_cases ha : w = a
    · subst ha
      rw [Equiv.swap_apply_left]
      simp [flip_of_ne _ hab, Bool.xor_left_comm]
    · rw [flip_of_ne _ ha, flip_of_ne _ hb, Equiv.swap_apply_of_ne_of_ne ha hb]

/-- Under a control of the middle flip, the exchange happens only when the control is set. -/
theorem flip_flip_flip_controlled (hab : a ≠ b) (hbc : b ≠ c) :
    flip [c] b (flip [a, b] c (flip [c] b s)) = if s a then s ∘ Equiv.swap b c else s := by
  have hkeep : flip [c] b s a = s a := flip_of_ne s hab
  cases ha : s a with
  | true =>
      rw [flip_cons_of_set _ (hkeep.trans ha), flip_flip_flip _ hbc.symm, Equiv.swap_comm]
      rfl
  | false =>
      have hclear : [a, b].all (flip [c] b s) = false := by
        rw [List.all_cons, hkeep, ha, Bool.false_and]
      rw [flip_of_clear _ hclear, flip_flip _ (mt List.mem_singleton.1 hbc)]
      rfl

end Bits

variable [DecidableEq W]

open Binary64

/-- The gates whose action on basis states is known: the identity, and the whole powers of the
controlled flips. -/
inductive Gate.Permutes : Gate → Prop
  | identity : Permutes .identity
  | cnot {t : Float} {n : ℤ} (h : integer? t = some n) : Permutes (.power .cnot t)
  | ccx {t : Float} {n : ℤ} (h : integer? t = some n) : Permutes (.power .ccx t)

/-- What these gates do to the bits of a register; the last wire is the target. -/
def Gate.permute? : Gate → List W → (W → Bool) → Option (W → Bool)
  | .identity, [_], s => some s
  | .power .cnot t, [a, b], s =>
    (integer? t).map fun n => if Odd n then Bits.flip [a] b s else s
  | .power .ccx t, [a, b, c], s =>
    (integer? t).map fun n => if Odd n then Bits.flip [a, b] c s else s
  | _, _, _ => none

namespace Gate

variable {t : Float} {n : ℤ} {a b c : W} {s : W → Bool}

@[simp] theorem permute?_identity : permute? .identity [a] s = some s := rfl

theorem permute?_cnot (h : integer? t = some n) (hn : Odd n) :
    permute? (.power .cnot t) [a, b] s = some (Bits.flip [a] b s) := by
  rw [permute?, h, Option.map_some, if_pos hn]

theorem permute?_ccx (h : integer? t = some n) (hn : Odd n) :
    permute? (.power .ccx t) [a, b, c] s = some (Bits.flip [a, b] c s) := by
  rw [permute?, h, Option.map_some, if_pos hn]

end Gate

end AtomArray
