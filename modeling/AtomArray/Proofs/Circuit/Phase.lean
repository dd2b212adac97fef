import AtomArray.Proofs.Binary64.NotANumber
import AtomArray.Proofs.Circuit.Bits
import AtomArray.Proofs.Rewriting.Standard

/-! The phase that the rewritten controlled rotations leave on a basis state. -/

namespace AtomArray

open Binary64 Rewriting

variable {W : Type} [DecidableEq W]

namespace Bits

/-- Adds the bit `a` to `b`, and then `b` to `c`. -/
def sweep (a b c : W) (s : W → Bool) : W → Bool := flip [b] c (flip [a] b s)

variable {a b c w : W} (s : W → Bool)

theorem sweep_first (hab : a ≠ b) (hac : a ≠ c) : sweep a b c s a = s a := by
  rw [sweep, flip_of_ne _ hac, flip_of_ne _ hab]

theorem sweep_second (hbc : b ≠ c) : sweep a b c s b = (s b ^^ s a) := by
  rw [sweep, flip_of_ne _ hbc]
  simp

theorem sweep_third (hbc : b ≠ c) : sweep a b c s c = (s c ^^ (s b ^^ s a)) := by
  rw [sweep, flip_self, flip_of_ne _ hbc.symm]
  simp

theorem sweep_of_ne (hb : w ≠ b) (hc : w ≠ c) : sweep a b c s w = s w := by
  rw [sweep, flip_of_ne _ hc, flip_of_ne _ hb]

/-- The bits come back after four sweeps. -/
theorem sweep_four (hab : a ≠ b) (hac : a ≠ c) (hbc : b ≠ c) :
    sweep a b c (sweep a b c (sweep a b c (sweep a b c s))) = s := by
  funext w
  by_cases hb : w = b
  · subst hb
    simp only [sweep_second _ hbc, sweep_first _ hab hac]
    cases s a <;> cases s w <;> rfl
  · by_cases hc : w = c
    · subst hc
      simp only [sweep_third _ hbc, sweep_second _ hbc, sweep_first _ hab hac]
      cases s a <;> cases s b <;> cases s w <;> rfl
    · simp only [sweep_of_ne _ hb hc]

end Bits

/-- The bits of a register and the phase gathered so far, in half turns. -/
@[ext] structure Phased (W : Type) where
  bits : W → Bool
  phase : ℚ

/-- Adds to the phase if the bit is set. -/
def Phased.turn (w : W) (angle : ℚ) (s : Phased W) : Phased W :=
  { s with phase := s.phase + (s.bits w).toNat * angle }

/-- A rotation about Z only adds its exponent to the phase, which the gates that move basis states
leave alone. The exponents are read as numbers by `ρ`. -/
def Gate.turn? (ρ : Float → ℚ) : Gate → List W → Phased W → Option (Phased W)
  | .power .z e, [w], s => some (s.turn w (ρ e))
  | gate, ws, s => (gate.permute? ws s.bits).map fun bits => { s with bits }

section

variable {ρ : Float → ℚ} {wire : Qubit.Identity → W} {drafts : List Draft} {s : Phased W}

theorem run?_z (e : Float) (q : Qubit) :
    Circuit.run? (Gate.turn? ρ) wire (z e q :: drafts) s =
      Circuit.run? (Gate.turn? ρ) wire drafts (s.turn (wire q.identity) (ρ e)) :=
  Circuit.run?_cons rfl

theorem run?_cnot (a b : Qubit) :
    Circuit.run? (Gate.turn? ρ) wire (cnot a b :: drafts) s =
      Circuit.run? (Gate.turn? ρ) wire drafts
        ⟨Bits.flip [wire a.identity] (wire b.identity) s.bits, s.phase⟩ := by
  apply Circuit.run?_cons
  change Option.map _ (Gate.permute? (.power .cnot 1) [wire a.identity, wire b.identity] s.bits) = _
  rw [Gate.permute?_cnot integer?_one odd_one]
  rfl

end

/-- The reading is exact at a part of an exponent, and at its opposite. -/
structure ReadsAs (ρ : Float → ℚ) (part : Float) (v : ℚ) : Prop where
  exact : ρ part = v
  opposite : ρ (-part) = -v

theorem exists_readsAs {part : Float} (h : part.isNaN = false) (v : ℚ) :
    ∃ ρ, ReadsAs ρ part v := by
  refine ⟨fun x => if x = part then v else -v, if_pos rfl, ?_⟩
  exact if_neg (neg_ne_self h)

/-- The rewriting of an operation leaves the bits as they are and adds an angle to the phase. -/
def Rewriting.Turns (ρ : Float → ℚ) (wire : Qubit.Identity → W) (op : GateOperation)
    (angle : (W → Bool) → ℚ) : Prop :=
  ∃ ops, step op = some ops ∧ ∀ s : Phased W,
    Circuit.run? (Gate.turn? ρ) wire (ops.map GateOperation.draft) s =
      some { s with phase := s.phase + angle s.bits }

variable {ρ : Float → ℚ} {wire : Qubit.Identity → W} {op : GateOperation} {a b c : Qubit}
  {t : Float} {v : ℚ}

/-- Two bits and their parity share out the product of the bits. -/
theorem product_of_parities_two (x y : Bool) (v : ℚ) :
    v * x.toNat * y.toNat = v / 2 * (x.toNat + y.toNat - (y ^^ x).toNat) := by
  cases x <;> cases y <;> norm_num

/-- Three bits, the parities of two of them and the parity of all share out the product. -/
theorem product_of_parities_three (x y z : Bool) (v : ℚ) :
    v * x.toNat * y.toNat * z.toNat = v / 4 * (x.toNat + y.toNat + z.toNat - (y ^^ x).toNat -
      (z ^^ x).toNat - (z ^^ y).toNat + (z ^^ (y ^^ x)).toNat) := by
  cases x <;> cases y <;> cases z <;> norm_num

theorem run?_czPower (hwire : Separates wire [a, b]) (hρ : ReadsAs ρ (t / 2) (v / 2))
    (s : Phased W) :
    Circuit.run? (Gate.turn? ρ) wire (czPower t a b) s =
      some { s with
        phase := s.phase + v * (s.bits (wire a.identity)).toNat *
          (s.bits (wire b.identity)).toNat } := by
  have hab := separates_two.1 hwire
  unfold czPower
  rw [run?_z, run?_z, run?_cnot, run?_z, run?_cnot, Circuit.run?_nil, hρ.exact, hρ.opposite]
  apply congrArg some
  apply Phased.ext
  · exact Bits.flip_flip _ (mt List.mem_singleton.1 hab.symm)
  · simp only [Phased.turn, Bits.flip_self, List.all_cons, List.all_nil, Bool.and_true]
    rw [product_of_parities_two]
    ring

theorem run?_sweep (drafts : List Draft) (s : Phased W) :
    Circuit.run? (Gate.turn? ρ) wire (cnot a b :: cnot b c :: drafts) s =
      Circuit.run? (Gate.turn? ρ) wire drafts
        ⟨Bits.sweep (wire a.identity) (wire b.identity) (wire c.identity) s.bits, s.phase⟩ := by
  rw [run?_cnot, run?_cnot]
  rfl

theorem run?_cczPower (hwire : Separates wire [a, b, c]) (hρ : ReadsAs ρ (t / 4) (v / 4))
    (s : Phased W) :
    Circuit.run? (Gate.turn? ρ) wire (cczPower t a b c) s =
      some { s with
        phase := s.phase + v * (s.bits (wire a.identity)).toNat *
          (s.bits (wire b.identity)).toNat * (s.bits (wire c.identity)).toNat } := by
  obtain ⟨hab, hac, hbc⟩ := separates_three.1 hwire
  simp only [cczPower, List.cons_append, List.nil_append, run?_z, run?_sweep, Circuit.run?_nil,
    hρ.exact, hρ.opposite]
  apply congrArg some
  apply Phased.ext
  · exact Bits.sweep_four _ hab hac hbc
  · simp only [Phased.turn, Bits.sweep_third _ hbc, Bits.sweep_second _ hbc,
      Bits.sweep_first _ hab hac]
    have hsecond : ∀ x y z : Bool, ((z ^^ (y ^^ x)) ^^ ((y ^^ x) ^^ x)) = (z ^^ x) := by decide
    have hthird : ∀ x y z : Bool,
        (((z ^^ (y ^^ x)) ^^ ((y ^^ x) ^^ x)) ^^ (((y ^^ x) ^^ x) ^^ x)) = (z ^^ y) := by decide
    rw [hthird, hsecond, product_of_parities_three]
    ring

/-- A rule whose run leaves the bits alone and adds an angle is what the operation is rewritten
as. -/
theorem Rewriting.turns_of_rule {drafts : List Draft} {angle : (W → Bool) → ℚ}
    (hrule : Rule op.gate op.qubits drafts)
    (hrun : ∀ s : Phased W, Circuit.run? (Gate.turn? ρ) wire drafts s =
      some { s with phase := s.phase + angle s.bits }) : Turns ρ wire op angle := by
  obtain ⟨ops, -, hstep, rfl⟩ := step_of_rule hrule
  exact ⟨ops, hstep, hrun⟩

/-- Where a half of the exponent is read as it is, the rewriting of a controlled rotation turns by
the exponent just when both bits are set; so it is with a quarter and three bits. -/
theorem Rewriting.turns_controlled_rotation (hwire : Separates wire op.qubits)
    (ht : t.isFinite = true) :
    (∀ a b, op.gate = .power .cz t → op.qubits = [a, b] →
      (∃ ρ, ReadsAs ρ (t / 2) (value t / 2)) ∧
      ∀ ρ, ReadsAs ρ (t / 2) (value t / 2) → Turns ρ wire op fun bits =>
        value t * (bits (wire a.identity)).toNat * (bits (wire b.identity)).toNat) ∧
    (∀ a b c, op.gate = .power .ccz t → op.qubits = [a, b, c] →
      (∃ ρ, ReadsAs ρ (t / 4) (value t / 4)) ∧
      ∀ ρ, ReadsAs ρ (t / 4) (value t / 4) → Turns ρ wire op fun bits =>
        value t * (bits (wire a.identity)).toNat * (bits (wire b.identity)).toNat *
          (bits (wire c.identity)).toNat) := by
  constructor
  · intro a b hgate hqubits
    refine ⟨exists_readsAs (isNaN_div_of_finite ht unpack_two) _, ?_⟩
    intro ρ hρ
    rw [hqubits] at hwire
    have hrule : Rule op.gate op.qubits (czPower t a b) := by
      rw [hgate, hqubits]
      exact .cz t a b
    exact turns_of_rule hrule (run?_czPower hwire hρ)
  · intro a b c hgate hqubits
    refine ⟨exists_readsAs (isNaN_div_of_finite ht unpack_four) _, ?_⟩
    intro ρ hρ
    rw [hqubits] at hwire
    have hrule : Rule op.gate op.qubits (cczPower t a b c) := by
      rw [hgate, hqubits]
      exact .ccz t a b c
    exact turns_of_rule hrule (run?_cczPower hwire hρ)

/-- The value of a double reads its half exactly unless the half is rounded. -/
theorem readsAs_half (ht : t.isFinite = true) (h : 2 ∣ magnitude t) :
    ReadsAs value (t / 2) (value t / 2) := by
  obtain ⟨hfinite, hvalue⟩ := value_half ht h
  exact ⟨hvalue, (value_neg hfinite).2.trans (congrArg _ hvalue)⟩

theorem readsAs_quarter (ht : t.isFinite = true) (h : 4 ∣ magnitude t) :
    ReadsAs value (t / 4) (value t / 4) := by
  obtain ⟨hfinite, hvalue⟩ := value_quarter ht h
  exact ⟨hvalue, (value_neg hfinite).2.trans (congrArg _ hvalue)⟩

theorem Rewriting.turns_onLine :
    Separates id (Device.onPair (.power .cz 0.5)).qubits ∧
    Separates id (Device.onLine (.power .ccz 0.5)).qubits ∧
    (0.5 : Float).isFinite = true ∧
    (Turns value id (Device.onPair (.power .cz 0.5)) fun bits => value 0.5 *
      (bits (Qubit.site (.onRow 0)).identity).toNat *
        (bits (Qubit.site (.onRow 1)).identity).toNat) ∧
    (Turns value id (Device.onLine (.power .ccz 0.5)) fun bits => value 0.5 *
      (bits (Qubit.site (.onRow 0)).identity).toNat *
        (bits (Qubit.site (.onRow 1)).identity).toNat *
          (bits (Qubit.site (.onRow 2)).identity).toNat) := by
  have hcz : Separates id (Device.onPair (.power .cz 0.5)).qubits :=
    separates_identity (Device.onPair (.power .cz 0.5)).distinct
  have hccz : Separates id (Device.onLine (.power .ccz 0.5)).qubits :=
    separates_identity (Device.onLine (.power .ccz 0.5)).distinct
  have hfinite : (0.5 : Float).isFinite = true := by decide
  refine ⟨hcz, hccz, hfinite, ?_, ?_⟩
  · apply ((turns_controlled_rotation hcz hfinite).1 _ _ rfl rfl).2
    exact readsAs_half hfinite (by decide +kernel)
  · apply ((turns_controlled_rotation hccz hfinite).2 _ _ _ rfl rfl).2
    exact readsAs_quarter hfinite (by decide +kernel)

end AtomArray
