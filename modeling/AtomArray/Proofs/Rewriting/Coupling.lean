import AtomArray.Proofs.Rewriting.Height

/-! The pairs of qubits that have to be near each other for a gate to be executed. -/

namespace AtomArray

def allPairs (a b c : Qubit) : List (Qubit × Qubit) := [(a, b), (a, c), (b, c)]

/-- A broken power of a gate on three qubits only needs the pairs along their line. -/
def Gate.couplings : Gate → List Qubit → List (Qubit × Qubit)
  | .power .cz _, [a, b] => [(a, b)]
  | .power .cnot _, [a, b] => [(a, b)]
  | .power .swap t, [a, b] => if isWholeExponent (t / 2) then [] else [(a, b)]
  | .power .ccz t, [a, b, c] => if isWholeExponent t then allPairs a b c else [(a, b), (b, c)]
  | .power .ccx t, [a, b, c] => if isWholeExponent t then allPairs a b c else [(a, b), (b, c)]
  | .cswap, [a, b, c] => allPairs a b c
  | _, _ => []

/-- A gate on some qubits couples two that are in a relation. -/
def Gate.Couples (R : Qubit → Qubit → Prop) (gate : Gate) (qs : List Qubit) : Prop :=
  ∃ pair ∈ gate.couplings qs, R pair.1 pair.2

namespace Gate

variable {R : Qubit → Qubit → Prop} {t : Float} {a b c : Qubit}

theorem couples_cz : Couples R (.power .cz t) [a, b] ↔ R a b := by simp [Couples, couplings]

theorem couples_cnot : Couples R (.power .cnot t) [a, b] ↔ R a b := by simp [Couples, couplings]

theorem couples_swap :
    Couples R (.power .swap t) [a, b] ↔ isWholeExponent (t / 2) = false ∧ R a b := by
  cases h : isWholeExponent (t / 2) <;> simp [Couples, couplings, h]

theorem couples_ccz : Couples R (.power .ccz t) [a, b, c] ↔
    if isWholeExponent t then R a b ∨ R a c ∨ R b c else R a b ∨ R b c := by
  cases h : isWholeExponent t <;> simp [Couples, couplings, h, allPairs]

theorem couples_ccx : Couples R (.power .ccx t) [a, b, c] ↔
    if isWholeExponent t then R a b ∨ R a c ∨ R b c else R a b ∨ R b c := couples_ccz

theorem couples_cswap : Couples R .cswap [a, b, c] ↔ R a b ∨ R a c ∨ R b c := by
  simp [Couples, couplings, allPairs]

theorem couples_one_ccx : Couples R (.one .ccx) [a, b, c] ↔ R a b ∨ R a c ∨ R b c := by
  rw [one, couples_ccx, if_pos isWholeExponent_one]

end Gate

namespace Rewriting

variable {R : Qubit → Qubit → Prop} {gate : Gate} {qs : List Qubit} {drafts : List Draft}

theorem not_couples_z (e : Float) (q : Qubit) : ¬ Gate.Couples R (z e q).gate (z e q).qubits := by
  simp [Gate.Couples, Gate.couplings, z]

theorem not_couples_y (e : Float) (q : Qubit) : ¬ Gate.Couples R (y e q).gate (y e q).qubits := by
  simp [Gate.Couples, Gate.couplings, y]

theorem not_couples_idle (q : Qubit) : ¬ Gate.Couples R (idle q).gate (idle q).qubits := by
  simp [Gate.Couples, Gate.couplings, idle]

theorem couples_cnot (a b : Qubit) :
    Gate.Couples R (cnot a b).gate (cnot a b).qubits ↔ R a b := Gate.couples_cnot

/-- The Hadamard gates around an operation couple nothing. -/
theorem couples_conjugate (q : Qubit) (middle : Draft) :
    (∃ draft ∈ conjugate q middle, Gate.Couples R draft.gate draft.qubits) ↔
      Gate.Couples R middle.gate middle.qubits := by
  simp [conjugate, hadamard, not_couples_z, not_couples_y]

/-- A rule couples two qubits in a symmetric relation just when its gate does. -/
theorem Rule.couples_iff (h : Rule gate qs drafts) (hg : gate.isNative = false)
    (symm : ∀ a b, R a b → R b a) :
    (∃ draft ∈ drafts, Gate.Couples R draft.gate draft.qubits) ↔ gate.Couples R qs := by
  cases h with
  | h t q =>
      have hh : ¬ Gate.Couples R (.power .h t) [q] := by simp [Gate.Couples, Gate.couplings]
      unfold hadamardPower hadamard
      split_ifs <;> simp [hh, not_couples_z, not_couples_y, not_couples_idle]
  | cz t a b =>
      rw [Gate.couples_cz]
      simp [czPower, not_couples_z, couples_cnot]
  | cnot t a b =>
      rw [Gate.couples_cnot, couples_conjugate, Gate.couples_cz]
  | swap t a b =>
      have hba : R b a ↔ R a b := ⟨symm b a, symm a b⟩
      rw [Gate.couples_swap]
      unfold swapPower
      split_ifs with ht
      · simp [not_couples_idle, ht]
      · simp [couples_cnot, Gate.couples_cnot, ht, hba]
  | ccz t a b c =>
      rw [Gate.isNative_ccz] at hg
      rw [Gate.couples_ccz, hg]
      simp [cczPower, not_couples_z, couples_cnot]
      tauto
  | ccx t a b c =>
      rw [Gate.couples_ccx, couples_conjugate, Gate.couples_ccz]
  | cswap a b c =>
      have hcb : R c b ↔ R b c := ⟨symm c b, symm b c⟩
      rw [Gate.couples_cswap]
      simp [controlledSwap, couples_cnot, Gate.couples_one_ccx, hcb]
      tauto

end Rewriting
end AtomArray
