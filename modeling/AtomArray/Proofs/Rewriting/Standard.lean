import AtomArray.Proofs.Lowering.Expansion
import AtomArray.Proofs.Rewriting.Height

/-! The standard strategy lowers every gate but the custom ones. -/

namespace AtomArray
namespace Rewriting

variable {op : GateOperation} {ops : List GateOperation}

/-! The rules as steps between operations. -/

theorem step_of_custom (h : op.gate.IsCustom) : step op = none := by
  obtain ⟨name, arity, h⟩ := h
  simp [step, rewrite?, draft?, h, Except.toOption]

theorem height_lt_of_step (hop : op.gate.isNative = false)
    (hs : step op = some ops) {c : GateOperation} (hc : c ∈ ops) :
    c.gate.height < op.gate.height :=
  (rule_of_step hs).height_lt hop c.draft (List.mem_map_of_mem hc)

theorem sum_spread_le_of_step (hop : op.gate.isNative = false)
    (hs : step op = some ops) : (ops.map (·.gate.spread)).sum ≤ op.gate.spread := by
  have h := (rule_of_step hs).spread_le hop
  rw [List.map_map] at h
  exact h

theorem mem_qubits_of_step (hs : step op = some ops) (q : Qubit) :
    (∃ c ∈ ops, q ∈ c.qubits) ↔ q ∈ op.qubits := by
  rw [← (rule_of_step hs).mem_qubits q]
  simp only [List.mem_map, exists_exists_and_eq_and]
  rfl

theorem length_add_height_le_of_node {p : List Nat} {n : GateOperation}
    (h : Lowering.Node step op p n) : p.length + n.gate.height ≤ op.gate.height := by
  induction h with
  | root op => simp
  | child hop hs hnext _ ih =>
      have hlt := height_lt_of_step hop hs (List.mem_of_getElem? hnext)
      simp only [List.length_cons]
      omega

/-- Within as many steps as a gate is high, everything but a custom gate is lowered. -/
theorem exists_expand {limit : Nat} (hheight : op.gate.height ≤ limit)
    (hcustom : ¬ op.gate.IsCustom) : ∃ ls, Lowering.expand step limit op = .ok ls := by
  induction limit generalizing op with
  | zero =>
      have hop := Gate.height_eq_zero_iff.1 (Nat.le_zero.1 hheight)
      exact ⟨_, Lowering.expand_of_native hop⟩
  | succ limit ih =>
      cases hop : op.gate.isNative with
      | true => exact ⟨_, Lowering.expand_of_native hop⟩
      | false =>
          obtain ⟨drafts, hrule⟩ := exists_rule op hop hcustom
          obtain ⟨ops, -, hs, rfl⟩ := step_of_rule hrule
          have hall : ∀ c ∈ ops, ∃ ls, Lowering.expand step limit c = .ok ls := by
            intro c hc
            have hlt := height_lt_of_step hop hs hc
            exact ih (by omega) (hrule.not_custom c.draft (List.mem_map_of_mem hc))
          obtain ⟨lss, hlss⟩ := Traversal.exists_mapM_ok hall
          refine ⟨lss.flatten, ?_⟩
          rw [Lowering.expand_of_some hop hs, hlss]
          rfl

end Rewriting

namespace Device

variable {d : Device} {op : GateOperation}

theorem lower_eq_expand (hd : d.strategy = .standard) :
    d.lower (.gate op) =
      (Lowering.expand Rewriting.step maxLoweringDepth op).map fun ls => ls.map .gate := by
  rw [lower, hd]
  rfl

theorem lower_of_custom (hd : d.strategy = .standard) (h : op.gate.IsCustom) :
    d.lower (.gate op) = .error (.notLowered op .noRule) := by
  have hop : op.gate.isNative = false := by
    obtain ⟨name, arity, h⟩ := h
    rw [h]
    rfl
  rw [lower_eq_expand hd, maxLoweringDepth,
    Lowering.expand_of_none hop (Rewriting.step_of_custom h)]
  rfl

theorem exists_lower (hd : d.strategy = .standard) (h : ¬ op.gate.IsCustom) :
    ∃ ls, Lowering.expand Rewriting.step maxLoweringDepth op = .ok ls ∧
      d.lower (.gate op) = .ok (ls.map .gate) := by
  have hheight : op.gate.height ≤ maxLoweringDepth := op.gate.height_le.trans (by decide)
  obtain ⟨ls, hls⟩ := Rewriting.exists_expand hheight h
  refine ⟨ls, hls, ?_⟩
  rw [lower_eq_expand hd, hls]
  rfl

theorem mem_qubits_of_expand {ls : List GateOperation}
    (h : Lowering.expand Rewriting.step maxLoweringDepth op = .ok ls) (q : Qubit) :
    (∃ n ∈ ls, q ∈ n.qubits) ↔ q ∈ op.qubits :=
  Lowering.expand_exists_iff (fun _ _ _ hs => Rewriting.mem_qubits_of_step hs q) h

theorem length_expand_le_spread {ls : List GateOperation}
    (h : Lowering.expand Rewriting.step maxLoweringDepth op = .ok ls) :
    ls.length ≤ op.gate.spread :=
  Lowering.length_expand_le (fun _ hop => (Gate.spread_of_native hop).ge)
    (fun _ _ => Rewriting.sum_spread_le_of_step) h

end Device

open Lowering in
/-- A device with the standard strategy lowers every gate but a custom one. It makes at most 19
native operations on the same qubits of it, in at most three steps, all of which can be built. -/
theorem Device.lower_standard (d : Device) (hd : d.strategy = .standard) (op : GateOperation) :
    ((∃ ops, d.lower (.gate op) = .ok ops) ↔ ¬ op.gate.IsCustom) ∧
    (op.gate.IsCustom → d.lower (.gate op) = .error (.notLowered op .noRule)) ∧
    (∀ ops, d.lower (.gate op) = .ok ops →
      ops ≠ [] ∧ ops.length ≤ 19 ∧
      (∀ o ∈ ops, o.isNative = true ∧ ∃ g : GateOperation, o = .gate g ∧
        g.qubits.length = g.gate.arity ∧ Qubit.Distinct g.qubits) ∧
      ∀ q, (∃ o ∈ ops, q ∈ o.qubits) ↔ q ∈ op.qubits) ∧
    (∀ p n, Node d.strategy.step op p n → p.length ≤ 3) ∧
    (∀ n, d.lower (.gate op) ≠ .error (.notLowered n .depthLimit)) ∧
    ∀ n : GateOperation, Rewriting.rewrite? n.gate n.qubits = .ok (d.strategy.step n) := by
  have hok : ∀ ops, d.lower (.gate op) = .ok ops → ¬ op.gate.IsCustom := by
    intro ops h hcustom
    rw [lower_of_custom hd hcustom] at h
    cases h
  refine ⟨⟨fun ⟨ops, h⟩ => hok ops h, fun h => ?_⟩, lower_of_custom hd, ?_, ?_, ?_, ?_⟩
  · obtain ⟨ls, -, hls⟩ := exists_lower hd h
    exact ⟨_, hls⟩
  · intro ops h
    obtain ⟨ls, hexpand, hlower⟩ := exists_lower hd (hok ops h)
    cases h.symm.trans hlower
    have hqubits : ∀ q, (∃ o ∈ ls.map Operation.gate, q ∈ o.qubits) ↔ q ∈ op.qubits := by
      intro q
      rw [← mem_qubits_of_expand hexpand q]
      simp only [List.mem_map, exists_exists_and_eq_and]
      rfl
    refine ⟨?_, ?_, ?_, hqubits⟩
    · obtain ⟨q, hq⟩ := op.exists_qubit (hok _ h)
      obtain ⟨o, ho, -⟩ := (hqubits q).2 hq
      exact List.ne_nil_of_mem ho
    · rw [List.length_map]
      exact (length_expand_le_spread hexpand).trans op.gate.spread_le
    · intro o ho
      obtain ⟨g, hg, rfl⟩ := List.mem_map.1 ho
      exact ⟨isNative_of_expand hexpand g hg, g, rfl, g.arity, g.distinct⟩
  · intro p n hn
    rw [hd] at hn
    have hle := Rewriting.length_add_height_le_of_node hn
    have hheight := op.gate.height_le
    omega
  · intro n h
    by_cases hcustom : op.gate.IsCustom
    · rw [lower_of_custom hd hcustom] at h
      cases h
    · obtain ⟨ls, -, hls⟩ := exists_lower hd hcustom
      cases h.symm.trans hls
  · intro n
    rw [hd]
    exact Rewriting.rewrite?_eq_ok n

/-- The site at a row, on column and layer 0. -/
def Site.onRow (row : Float) : Site := ⟨row, 0, 0⟩

theorem Site.ascending_onRow : Site.Ascending [onRow 0, onRow 1, onRow 2] := by
  unfold Ascending
  decide +kernel

/-- A device of radius 1 with three sites on a line, of which the outer two are out of each other's
reach. -/
def Device.line : Device :=
  ⟨1, [.onRow 0, .onRow 1, .onRow 2], .standard, .standard, isRadius_one, Site.ascending_onRow⟩

/-- A gate on the three sites of the line in order. -/
def Device.onLine (gate : Gate) (arity : gate.arity = 3 := by rfl) : GateOperation :=
  ⟨gate, line.qubits, arity.symm, by decide +kernel⟩

/-- A gate on the first two sites of the line. -/
def Device.onPair (gate : Gate) (arity : gate.arity = 2 := by rfl) : GateOperation :=
  ⟨gate, [.site (.onRow 0), .site (.onRow 1)], arity.symm, by decide +kernel⟩

theorem Device.lower_standard_nan :
    line.strategy = .standard ∧
      ∃ ops, line.lower (.gate (onLine (.power .ccx (0 / 0)))) = .ok ops := by
  refine ⟨rfl, (lower_standard line rfl _).1.2 ?_⟩
  rintro ⟨name, arity, h⟩
  cases h

end AtomArray
