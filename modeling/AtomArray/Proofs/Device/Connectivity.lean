import AtomArray.Proofs.Binary64
import AtomArray.Proofs.Device.Ruling
import AtomArray.Proofs.Rewriting.Coupling
import AtomArray.Proofs.Rewriting.Standard

/-! Which targets of a gate have to be within each other's reach for it to be prepared. -/

namespace AtomArray
namespace Device

variable {d : Device} {op n : GateOperation} {R : Qubit → Qubit → Prop}

theorem distance_comm (d : Device) (s t : Site) :
    d.distance (.site s) (.site t) = d.distance (.site t) (.site s) :=
  congrArg Except.ok (s.distance_comm t)

theorem farApart_site_iff {s t : Site} :
    d.FarApart (.site s) (.site t) ↔ d.radius < s.distance t := by
  constructor
  · rintro ⟨distance, hdistance, hfar⟩
    cases hdistance
    exact hfar
  · exact fun hfar => ⟨_, rfl, hfar⟩

theorem FarApart.symm {a b : Qubit} (h : d.FarApart a b) : d.FarApart b a := by
  obtain ⟨distance, hdistance, hfar⟩ := h
  cases a with
  | site s =>
      cases b with
      | site t => exact ⟨distance, (d.distance_comm t s).trans hdistance, hfar⟩
      | line m => cases hdistance
      | named name => cases hdistance
  | line m => cases hdistance
  | named name => cases hdistance

/-- A native gate couples all its qubits or none. -/
theorem couples_iff_of_native (h : n.gate.isNative = true) :
    n.gate.Couples R n.qubits ↔
      (Operation.gate n).IsEntangler ∧ ¬ n.qubits.Pairwise fun a b => ¬ R a b := by
  obtain ⟨gate, qs, arity, distinct⟩ := n
  cases gate with
  | identity => simp [Gate.Couples, Gate.couplings, Operation.IsEntangler]
  | measure key => simp [Gate.Couples, Gate.couplings, Operation.IsEntangler]
  | phasedX phase e => simp [Gate.Couples, Gate.couplings, Operation.IsEntangler]
  | custom name arity => cases h
  | cswap => cases h
  | power family t =>
      cases family with
      | h => cases h
      | swap => cases h
      | x => simp [Gate.Couples, Gate.couplings, Operation.IsEntangler]
      | y => simp [Gate.Couples, Gate.couplings, Operation.IsEntangler]
      | z => simp [Gate.Couples, Gate.couplings, Operation.IsEntangler]
      | cz =>
          obtain ⟨a, b, rfl⟩ := List.length_eq_two.1 arity
          simp [Gate.couples_cz, Operation.IsEntangler]
      | cnot =>
          obtain ⟨a, b, rfl⟩ := List.length_eq_two.1 arity
          simp [Gate.couples_cnot, Operation.IsEntangler]
      | ccz =>
          obtain ⟨a, b, c, rfl⟩ := List.length_eq_three.1 arity
          rw [Gate.isNative_ccz] at h
          simp [Gate.couples_ccz, Operation.IsEntangler, h]
          tauto
      | ccx =>
          obtain ⟨a, b, c, rfl⟩ := List.length_eq_three.1 arity
          rw [Gate.isNative_ccx] at h
          simp [Gate.couples_ccx, Operation.IsEntangler, h]
          tauto

/-- On the device, a native gate operation is only refused for a pair that is out of reach. -/
theorem check_gate_cases (h : n.gate.isNative = true) (targets : ∀ q ∈ n.qubits, d.OnDevice q) :
    (d.check (.gate n) = .ok () ∧ ¬ n.gate.Couples d.FarApart n.qubits) ∨
    ((∃ a b distance, d.check (.gate n) = .error (.tooFarApart a b distance d.radius)) ∧
      n.gate.Couples d.FarApart n.qubits) := by
  have native : (Operation.gate n).isNative = true := h
  rw [couples_iff_of_native h]
  by_cases hpairs : (Operation.gate n).IsEntangler
  · rw [check_of_entangler native targets hpairs]
    rcases checkPairs_cases targets with ⟨hok, hnear⟩ | ⟨i, j, a, b, far, hfirst, -, herror⟩
    · exact .inl ⟨hok, fun hcouples => hcouples.2 hnear⟩
    · exact .inr ⟨⟨a, b, far, herror⟩, hpairs, hfirst.not_pairwise⟩
  · refine .inl ⟨?_, fun hcouples => hpairs hcouples.1⟩
    exact check_of_other native targets hpairs not_false not_false

theorem prepare_of_lower {ops : List Operation} (h : d.lower (.gate op) = .ok ops) :
    d.prepare [.gate op] = (d.checkAll ops).map fun _ => ops := by
  have hone : d.prepareOne (.gate op) = (d.checkAll ops).map fun _ => ops := by
    unfold prepareOne
    simp only [h]
    change (d.checkAll ops >>= fun _ => pure ops) = _
    cases d.checkAll ops <;> rfl
  unfold prepare
  cases hall : d.checkAll ops with
  | error e =>
      rw [hall] at hone
      rw [Traversal.mapM_cons_error hone]
      rfl
  | ok u =>
      rw [hall] at hone
      rw [Traversal.mapM_cons_ok hone]
      exact congrArg Except.ok (List.append_nil ops)

variable {ls : List GateOperation}

/-- A rewriting couples two qubits in a symmetric relation just when the operation does. -/
theorem couples_expand_iff (symm : ∀ a b, R a b → R b a)
    (h : Lowering.expand Rewriting.step maxLoweringDepth op = .ok ls) :
    (∃ n ∈ ls, n.gate.Couples R n.qubits) ↔ op.gate.Couples R op.qubits := by
  refine Lowering.expand_exists_iff (fun op ops hop hs => ?_) h
  rw [← (Rewriting.rule_of_step hs).couples_iff hop symm]
  simp only [List.mem_map, exists_exists_and_eq_and]
  rfl

/-- The check of the operations that a gate is lowered to fails only for a pair out of reach. -/
theorem checkAll_lowered_cases (targets : ∀ q ∈ op.qubits, d.OnDevice q)
    (h : Lowering.expand Rewriting.step maxLoweringDepth op = .ok ls) :
    (d.checkAll (ls.map .gate) = .ok () ∧ ¬ op.gate.Couples d.FarApart op.qubits) ∨
    ((∃ a b distance,
        d.checkAll (ls.map .gate) = .error (.tooFarApart a b distance d.radius)) ∧
      op.gate.Couples d.FarApart op.qubits) := by
  rw [← couples_expand_iff (fun _ _ => FarApart.symm) h]
  have hcases : ∀ n ∈ ls,
      (d.check (.gate n) = .ok () ∧ ¬ n.gate.Couples d.FarApart n.qubits) ∨
      ((∃ a b distance, d.check (.gate n) = .error (.tooFarApart a b distance d.radius)) ∧
        n.gate.Couples d.FarApart n.qubits) := by
    intro n hn
    refine check_gate_cases (Lowering.isNative_of_expand h n hn) fun q hq => ?_
    exact targets q ((mem_qubits_of_expand h q).1 ⟨n, hn, hq⟩)
  cases hall : d.checkAll (ls.map .gate) with
  | ok u =>
      refine .inl ⟨rfl, ?_⟩
      rintro ⟨n, hn, hcouples⟩
      have hok := Traversal.forM_eq_ok_iff.1 hall (.gate n) (List.mem_map_of_mem hn)
      rcases hcases n hn with ⟨-, hnot⟩ | ⟨⟨a, b, far, herror⟩, -⟩
      · exact hnot hcouples
      · cases hok.symm.trans herror
  | error e =>
      obtain ⟨o, ho, he⟩ := Traversal.exists_of_forM_eq_error hall
      obtain ⟨n, hn, rfl⟩ := List.mem_map.1 ho
      rcases hcases n hn with ⟨hok, -⟩ | ⟨⟨a, b, far, herror⟩, hcouples⟩
      · cases hok.symm.trans he
      · cases herror.symm.trans he
        exact .inr ⟨⟨a, b, far, rfl⟩, n, hn, hcouples⟩

/-- Preparing a gate on sites of the device succeeds, or fails because two of its targets are too
far apart; it fails just when that is so of a pair that the gate couples. -/
theorem prepare_standard (d : Device) (hd : d.strategy = .standard) (op : GateOperation)
    (hcustom : ¬ op.gate.IsCustom) (targets : ∀ q ∈ op.qubits, d.OnDevice q) :
    ((∃ ops, d.prepare [.gate op] = .ok ops) ∨
      ∃ a b distance, d.prepare [.gate op] = .error (.tooFarApart a b distance d.radius)) ∧
    ((∃ e, d.prepare [.gate op] = .error e) ↔
      ∃ pair ∈ op.gate.couplings op.qubits, d.FarApart pair.1 pair.2) ∧
    ∀ s t : Site, d.distance (.site s) (.site t) = d.distance (.site t) (.site s) := by
  obtain ⟨ls, hls, hlower⟩ := exists_lower hd hcustom
  rw [prepare_of_lower hlower]
  rcases checkAll_lowered_cases targets hls with ⟨hok, hnot⟩ | ⟨⟨a, b, far, herror⟩, hcouples⟩
  · rw [hok]
    exact ⟨.inl ⟨_, rfl⟩, iff_of_false (fun ⟨_, h⟩ => nomatch h) hnot, d.distance_comm⟩
  · rw [herror]
    exact ⟨.inr ⟨a, b, far, rfl⟩, iff_of_true ⟨_, rfl⟩ hcouples, d.distance_comm⟩

/-- The outer targets of a square root of CCX need not be near each other. -/
theorem prepare_standard_sqrt_ccx :
    line.FarApart (.site (.onRow 0)) (.site (.onRow 2)) ∧
      ∃ ops, line.prepare [.gate (onLine (.power .ccx 0.5))] = .ok ops := by
  refine ⟨farApart_site_iff.2 (by decide +kernel), ?_⟩
  have hcustom : ¬ (onLine (.power .ccx 0.5)).gate.IsCustom := fun ⟨_, _, h⟩ => nomatch h
  have targets : ∀ q ∈ (onLine (.power .ccx 0.5)).qubits, line.OnDevice q :=
    fun q hq => ⟨q, hq, rfl⟩
  obtain ⟨hok | ⟨a, b, far, herror⟩, hiff, -⟩ := prepare_standard line rfl _ hcustom targets
  · exact hok
  · have hbroken : isWholeExponent 0.5 = false := by decide +kernel
    have hcouples : Gate.Couples line.FarApart (.power .ccx 0.5)
        [.site (.onRow 0), .site (.onRow 1), .site (.onRow 2)] := hiff.1 ⟨_, herror⟩
    rw [Gate.couples_ccx, hbroken, if_neg Bool.false_ne_true, farApart_site_iff,
      farApart_site_iff] at hcouples
    exact absurd hcouples (by decide +kernel)

end Device
end AtomArray
