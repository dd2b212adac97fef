import AtomArray.Proofs.Circuit.Operator
import AtomArray.Proofs.Rewriting.Standard

/-! The unitaries of the gates, and those of the Hadamard-based rewritings. -/

namespace AtomArray

open Binary64 Rewriting

variable {W : Type} [DecidableEq W]

/-- The unitary of a gate on some wires; its exponent stands for a number of half turns. -/
noncomputable def Gate.unitary? : Gate → List W → Option (Operator W)
  | .identity, [_] => some 1
  | .power .x t, [a] => some (involutionPower (value t) (.not [] a))
  | .power .y t, [a] => some (involutionPower (value t) (third (.not [] a) (.sign [a])))
  | .power .z t, [a] => some (involutionPower (value t) (.sign [a]))
  | .power .h t, [a] => some (involutionPower (value t) (.hadamard a))
  | .power .cz t, [a, b] => some (involutionPower (value t) (.sign [a, b]))
  | .power .cnot t, [a, b] =>
    some (.hadamard b * involutionPower (value t) (.sign [a, b]) * .hadamard b)
  | .power .swap t, [a, b] => some (involutionPower (value t) (.exchange a b))
  | .power .ccz t, [a, b, c] => some (involutionPower (value t) (.sign [a, b, c]))
  | .power .ccx t, [a, b, c] =>
    some (.hadamard c * involutionPower (value t) (.sign [a, b, c]) * .hadamard c)
  | _, _ => none

/-- The unitary of a gate can be undone. -/
theorem Gate.isUnit_of_unitary? {gate : Gate} {ws : List W} {U : Operator W}
    (h : gate.unitary? ws = some U) : IsUnit U := by
  unfold unitary? at h
  split at h
  · cases h
    exact isUnit_one
  · cases h
    exact isUnit_involutionPower (Operator.anticommuting _).left _
  · cases h
    exact isUnit_involutionPower (Operator.anticommuting _).third_mul_self _
  · cases h
    exact isUnit_involutionPower (Operator.sign_mul_self _) _
  · cases h
    exact isUnit_involutionPower (Operator.hadamard_mul_self _) _
  · cases h
    exact isUnit_involutionPower (Operator.sign_mul_self _) _
  · cases h
    exact Operator.isUnit_conj_hadamard _ _ _
  · cases h
    exact isUnit_involutionPower (Operator.exchange_mul_self _ _) _
  · cases h
    exact isUnit_involutionPower (Operator.sign_mul_self _) _
  · cases h
    exact Operator.isUnit_conj_hadamard _ _ _
  · cases h

/-- Puts the unitary of a gate after an operator. -/
noncomputable def Gate.compose? (gate : Gate) (ws : List W) (U : Operator W) :
    Option (Operator W) :=
  (gate.unitary? ws).map (· * U)

/-- An operation is rewritten into operations whose unitaries, in order, make up its own up to a
phase. -/
def Rewriting.Realizes (wire : Qubit.Identity → W) (op : GateOperation) : Prop :=
  ∃ (ops : List GateOperation) (U : Operator W) (c : ℂ), step op = some ops ∧
    op.gate.unitary? (op.qubits.map fun q => wire q.identity) = some U ∧
    Circuit.run? Gate.compose? wire (ops.map GateOperation.draft) 1 = some (c • U) ∧ ‖c‖ = 1

variable {wire : Qubit.Identity → W} {op : GateOperation} {draft : Draft} {drafts : List Draft}
  {U V : Operator W} {a b c q : Qubit} {t : Float}

theorem run?_unitary
    (h : draft.gate.unitary? (draft.qubits.map fun q => wire q.identity) = some V) :
    Circuit.run? Gate.compose? wire (draft :: drafts) U =
      Circuit.run? Gate.compose? wire drafts (V * U) := by
  apply Circuit.run?_cons
  rw [Gate.compose?, h]
  rfl

theorem Rewriting.realizes_of_rule {u : ℂ} (hrule : Rule op.gate op.qubits drafts)
    (hU : op.gate.unitary? (op.qubits.map fun q => wire q.identity) = some U)
    (hrun : Circuit.run? Gate.compose? wire drafts 1 = some (u • U)) (hu : ‖u‖ = 1) :
    Realizes wire op := by
  obtain ⟨ops, -, hstep, rfl⟩ := step_of_rule hrule
  exact ⟨ops, U, u, hstep, hU, hrun, hu⟩

/-- The rewritten Hadamard gate is the Hadamard gate up to an eighth of a turn. -/
theorem run?_hadamard (wire : Qubit.Identity → W) (q : Qubit) (drafts : List Draft)
    (U : Operator W) :
    Circuit.run? Gate.compose? wire (hadamard q ++ drafts) U =
      Circuit.run? Gate.compose? wire drafts
        (halfTurns (1 / 4) • (.hadamard (wire q.identity) * U)) := by
  have hz : involutionPower (value 1) (Operator.sign [wire q.identity]) =
      Operator.sign [wire q.identity] := by
    rw [value_one, involutionPower_one]
  have hthird := (Operator.anticommuting (wire q.identity)).half_third_mul
  change Circuit.run? Gate.compose? wire (z 1 q :: y 0.5 q :: drafts) U = _
  rw [run?_unitary rfl, run?_unitary rfl, hz, value_one_half, ← mul_assoc, hthird, smul_mul_assoc]
  rfl

/-- Between two rewritten Hadamard gates stands the unitary of the gate in the middle. -/
theorem run?_conjugate
    (h : draft.gate.unitary? (draft.qubits.map fun q => wire q.identity) = some V) :
    Circuit.run? Gate.compose? wire (conjugate q draft) 1 =
      some ((halfTurns (1 / 4) * halfTurns (1 / 4)) •
        (.hadamard (wire q.identity) * V * .hadamard (wire q.identity))) := by
  have hlast := run?_hadamard wire q []
  simp only [List.append_nil] at hlast
  rw [conjugate, run?_hadamard, run?_unitary h, hlast, Circuit.run?_nil]
  simp only [mul_one, mul_smul_comm, smul_smul, mul_assoc]

theorem run?_hadamardPower (wire : Qubit.Identity → W) (q : Qubit) (ht : t.isFinite = true)
    (h : ClearExponent t) :
    ∃ c : ℂ, ‖c‖ = 1 ∧ Circuit.run? Gate.compose? wire (hadamardPower t q) 1 =
      some (c • involutionPower (value t) (.hadamard (wire q.identity))) := by
  have hcases := h.cases ht
  unfold hadamardPower
  split_ifs with hwhole hhalf
  · obtain ⟨n, hn, -, heven⟩ | ⟨hnot, -⟩ := hcases
    · refine ⟨1, norm_one, ?_⟩
      rw [hn, involutionPower_of_even (heven.1 hhalf), run?_unitary rfl, Circuit.run?_nil, one_smul]
      rfl
    · cases hwhole.symm.trans hnot
  · obtain ⟨n, hn, -, heven⟩ | ⟨hnot, -⟩ := hcases
    · have hodd : Odd n := Int.not_even_iff_odd.1 (mt heven.2 hhalf)
      refine ⟨halfTurns (1 / 4), norm_halfTurns _, ?_⟩
      have hrun := run?_hadamard wire q [] 1
      simp only [List.append_nil, mul_one] at hrun
      rw [hn, involutionPower_of_odd hodd, hrun, Circuit.run?_nil]
    · cases hwhole.symm.trans hnot
  · refine ⟨1, norm_one, ?_⟩
    have hthird := (Operator.anticommuting (wire q.identity)).third_mul_self
    rw [run?_unitary rfl, run?_unitary rfl, run?_unitary rfl, Circuit.run?_nil,
      value_neg_one_quarter, value_one_quarter, mul_one, one_smul, ← mul_assoc,
      conj_involutionPower (involutionPower_mul_neg hthird _),
      (Operator.anticommuting (wire q.identity)).conj_quarter_third]
    rfl

theorem conj_hadamard_power {controls : List W} {w : W} (hw : w ∉ controls) (r : ℚ) :
    .hadamard w * involutionPower r (.sign (controls ++ [w])) * .hadamard w =
      involutionPower r (Operator.not controls w) := by
  rw [conj_involutionPower (Operator.hadamard_mul_self w), Operator.conj_hadamard hw]

/-- A power of an exchange comes out of the power of the middle one of three controlled flips. -/
theorem run?_swapPower_unitary (hwire : Separates wire [a, b]) (ht : t.isFinite = true)
    (h : ClearExponent t) :
    Circuit.run? Gate.compose? wire (swapPower t a b) 1 =
      some (involutionPower (value t) (.exchange (wire a.identity) (wire b.identity))) := by
  have hab := separates_two.1 hwire
  unfold swapPower
  split_ifs with hhalf
  · obtain ⟨n, hn, -, heven⟩ | ⟨-, hnot⟩ := h.cases ht
    · rw [hn, involutionPower_of_even (heven.1 hhalf), run?_unitary rfl, run?_unitary rfl,
        Circuit.run?_nil]
      rfl
    · cases hhalf.symm.trans hnot
  · have hleft : wire b.identity ∉ [wire a.identity] := mt List.mem_singleton.1 hab.symm
    have hright : wire a.identity ∉ [wire b.identity] := mt List.mem_singleton.1 hab
    have houter : Gate.unitary? (cnot a b).gate ((cnot a b).qubits.map fun q => wire q.identity) =
        some (involutionPower (value 1) (Operator.not [wire a.identity] (wire b.identity))) :=
      congrArg some (conj_hadamard_power hleft (value 1))
    have hinner : Gate.unitary? (Draft.mk (.power .cnot t) [b, a]).gate
        ([b, a].map fun q => wire q.identity) =
        some (involutionPower (value t) (Operator.not [wire b.identity] (wire a.identity))) :=
      congrArg some (conj_hadamard_power hright (value t))
    have hnot := Operator.not_mul_self hleft
    rw [run?_unitary houter, run?_unitary hinner, run?_unitary houter, Circuit.run?_nil, value_one,
      involutionPower_one, mul_one, ← mul_assoc, conj_involutionPower hnot,
      Operator.not_mul_not_mul_not hab]

/-- Up to a phase, a power of a Hadamard gate, a controlled flip, an exchange or a doubly controlled
flip is rewritten as itself, for exponents that are integers or far enough from them. -/
theorem Rewriting.realizes_hadamard_rewriting {family : Family}
    (hfamily : family ∈ [Family.h, .cnot, .swap, .ccx]) (hgate : op.gate = .power family t)
    (hwire : Separates wire op.qubits) (ht : t.isFinite = true) (hclear : ClearExponent t) :
    Realizes wire op := by
  obtain ⟨gate, qs, arity, distinct⟩ := op
  obtain rfl : gate = .power family t := hgate
  simp only [List.mem_cons, List.not_mem_nil, or_false] at hfamily
  rcases hfamily with rfl | rfl | rfl | rfl
  · obtain ⟨q, rfl⟩ := List.length_eq_one_iff.1 arity
    obtain ⟨c, hc, hrun⟩ := run?_hadamardPower wire q ht hclear
    exact realizes_of_rule (.h t q) rfl hrun hc
  · obtain ⟨a, b, rfl⟩ := List.length_eq_two.1 arity
    refine realizes_of_rule (.cnot t a b) rfl (run?_conjugate rfl) ?_
    rw [norm_mul, norm_halfTurns, mul_one]
  · obtain ⟨a, b, rfl⟩ := List.length_eq_two.1 arity
    refine realizes_of_rule (u := 1) (.swap t a b) rfl ?_ norm_one
    rw [run?_swapPower_unitary hwire ht hclear, one_smul]
  · obtain ⟨a, b, c, rfl⟩ := List.length_eq_three.1 arity
    refine realizes_of_rule (.ccx t a b c) rfl (run?_conjugate rfl) ?_
    rw [norm_mul, norm_halfTurns, mul_one]

theorem clearExponent_one_half : ClearExponent 0.5 := by
  right
  intro n
  have hhalf : 1 / 2 ≤ |(1 / 2 : ℚ) - n| := by
    rcases le_or_gt n 0 with hn | hn
    · have hcast : (n : ℚ) ≤ 0 := by exact_mod_cast hn
      rw [le_abs]
      exact .inl (by linarith)
    · have hcast : (1 : ℚ) ≤ n := by exact_mod_cast hn
      rw [le_abs]
      exact .inr (by linarith)
  rw [value_one_half]
  have := value_exponentTolerance_lt
  linarith

theorem Rewriting.realizes_onLine :
    Separates id (Device.onPair (.power .swap 3)).qubits ∧
    Separates id (Device.onLine (.power .ccx 0.5)).qubits ∧
    (3 : Float).isFinite = true ∧ ClearExponent 3 ∧
    (0.5 : Float).isFinite = true ∧ ClearExponent 0.5 ∧
    Realizes id (Device.onPair (.power .swap 3)) ∧
    Realizes id (Device.onLine (.power .ccx 0.5)) := by
  have hswap := separates_identity (Device.onPair (.power .swap 3)).distinct
  have hccx := separates_identity (Device.onLine (.power .ccx 0.5)).distinct
  have hhalf : (0.5 : Float).isFinite = true := by decide
  obtain ⟨hthree, hvalue⟩ := integer?_eq_some_iff.1 integer?_three
  have hclear : ClearExponent 3 := .inl ⟨3, hvalue⟩
  refine ⟨hswap, hccx, hthree, hclear, hhalf, clearExponent_one_half, ?_, ?_⟩
  · exact realizes_hadamard_rewriting (by decide) rfl hswap hthree hclear
  · exact realizes_hadamard_rewriting (by decide) rfl hccx hhalf clearExponent_one_half

end AtomArray
