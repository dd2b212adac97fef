import AtomArray.Device
import AtomArray.Proofs.Lowering.Tree
import AtomArray.Proofs.Traversal

/-! What lowering returns, read off the rewriting tree: its leaves in order, or the first faulty
node. -/

namespace AtomArray
namespace Lowering

variable {step : GateOperation → Option (List GateOperation)} {limit depth : Nat}
  {op n : GateOperation} {ops : List GateOperation} {p : List Nat} {f : LoweringFailure}

/-! The recursion of lowering: one equation for each kind of node, and what a result says of it. -/

theorem expand_of_native (h : op.gate.isNative = true) : expand step limit op = .ok [op] := by
  cases limit <;> simp [expand, h]

theorem expand_zero (h : op.gate.isNative = false) :
    expand step 0 op = .error (.notLowered op .depthLimit) := by
  simp [expand, h]

theorem expand_of_none (h : op.gate.isNative = false) (hs : step op = none) :
    expand step (limit + 1) op = .error (.notLowered op .noRule) := by
  simp [expand, h, hs]

theorem expand_of_some (h : op.gate.isNative = false) (hs : step op = some ops) :
    expand step (limit + 1) op = (ops.mapM (expand step limit)).map List.flatten := by
  simp only [expand, h, hs]
  cases ops.mapM (expand step limit) <;> rfl

/-- A step that leaves only native operations ends the lowering. -/
theorem expand_of_native_step (h : op.gate.isNative = false) (hs : step op = some ops)
    (hops : ∀ n ∈ ops, n.gate.isNative = true) : expand step (limit + 1) op = .ok ops := by
  have hall : ops.mapM (expand step limit) = .ok (ops.map fun n => [n]) := by
    rw [Traversal.mapM_eq_ok_iff, List.forall₂_map_right_iff, List.forall₂_same]
    intro n hn
    exact expand_of_native (hops n hn)
  rw [expand_of_some h hs, hall]
  exact congrArg Except.ok (List.flatMap_singleton' ops)

theorem expand_ok_cases {ls : List GateOperation} (h : expand step limit op = .ok ls) :
    (op.gate.isNative = true ∧ ls = [op]) ∨
      ∃ rest ops lss, limit = rest + 1 ∧ op.gate.isNative = false ∧ step op = some ops ∧
        List.Forall₂ (fun c ls => expand step rest c = .ok ls) ops lss ∧ ls = lss.flatten := by
  cases hop : op.gate.isNative with
  | true =>
      rw [expand_of_native hop] at h
      cases h
      exact .inl ⟨rfl, rfl⟩
  | false =>
      cases limit with
      | zero =>
          rw [expand_zero hop] at h
          cases h
      | succ rest =>
          cases hs : step op with
          | none =>
              rw [expand_of_none hop hs] at h
              cases h
          | some ops =>
              rw [expand_of_some hop hs, Traversal.map_eq_ok_iff] at h
              obtain ⟨lss, hlss, rfl⟩ := h
              exact .inr ⟨rest, ops, lss, rfl, rfl, rfl, Traversal.mapM_eq_ok_iff.1 hlss, rfl⟩

theorem expand_error_cases {e : DeviceError} (h : expand step limit op = .error e) :
    op.gate.isNative = false ∧
      ((limit = 0 ∧ e = .notLowered op .depthLimit) ∨
        ∃ rest, limit = rest + 1 ∧
          ((step op = none ∧ e = .notLowered op .noRule) ∨
            ∃ before c after, step op = some (before ++ c :: after) ∧
              expand step rest c = .error e ∧
              ∀ b ∈ before, ∃ ls, expand step rest b = .ok ls)) := by
  cases hop : op.gate.isNative with
  | true =>
      rw [expand_of_native hop] at h
      cases h
  | false =>
      refine ⟨rfl, ?_⟩
      cases limit with
      | zero =>
          rw [expand_zero hop] at h
          cases h
          exact .inl ⟨rfl, rfl⟩
      | succ rest =>
          refine .inr ⟨rest, rfl, ?_⟩
          cases hs : step op with
          | none =>
              rw [expand_of_none hop hs] at h
              cases h
              exact .inl ⟨rfl, rfl⟩
          | some ops =>
              rw [expand_of_some hop hs, Traversal.map_eq_error_iff] at h
              obtain ⟨before, c, after, rfl, hc⟩ := Traversal.mapM_eq_error_iff.1 h
              exact .inr ⟨before, c, after, rfl, hc⟩

/-- What holds of native operations, and of a rewritten one when it holds of its children, holds of
every operation that can be lowered. -/
theorem expand_induction
    {motive : ∀ limit op ls, expand step limit op = .ok ls → Prop}
    (native : ∀ limit op h, op.gate.isNative = true → motive limit op [op] h)
    (rewritten : ∀ limit op ops lss h, op.gate.isNative = false → step op = some ops →
      List.Forall₂ (fun c ls => ∃ h, motive limit c ls h) ops lss →
      motive (limit + 1) op lss.flatten h)
    {limit : Nat} {op : GateOperation} {ls : List GateOperation}
    (h : expand step limit op = .ok ls) : motive limit op ls h := by
  induction limit generalizing op ls with
  | zero =>
      rcases expand_ok_cases h with ⟨hop, rfl⟩ | ⟨rest, _, _, hrest, _⟩
      · exact native 0 op h hop
      · cases hrest
  | succ limit ih =>
      rcases expand_ok_cases h with ⟨hop, rfl⟩ | ⟨rest, ops, lss, hrest, hop, hs, hall, rfl⟩
      · exact native (limit + 1) op h hop
      · cases hrest
        exact rewritten limit op ops lss h hop hs (hall.imp fun _ _ hc => ⟨hc, ih hc⟩)

/-! What a rewriting step keeps, lowering keeps. -/

theorem isNative_of_expand {ls : List GateOperation} (h : expand step limit op = .ok ls) :
    ∀ n ∈ ls, n.gate.isNative = true := by
  induction h using expand_induction with
  | native limit op _ hop => simpa using hop
  | rewritten limit op ops lss _ hop hs hall =>
      intro n hn
      obtain ⟨ls, hls, hn⟩ := List.mem_flatten.1 hn
      obtain ⟨c, -, -, hc⟩ := Traversal.exists_of_forall₂ hall.flip hls
      exact hc n hn

/-- If an operation has a property just when some child does, it has it just when some leaf does. -/
theorem expand_exists_iff {P : GateOperation → Prop}
    (hP : ∀ op ops, op.gate.isNative = false → step op = some ops → ((∃ c ∈ ops, P c) ↔ P op))
    {ls : List GateOperation} (h : expand step limit op = .ok ls) : (∃ n ∈ ls, P n) ↔ P op := by
  induction h using expand_induction with
  | native limit op _ hop => simp
  | rewritten limit op ops lss _ hop hs hall =>
      rw [← hP op ops hop hs]
      constructor
      · rintro ⟨n, hn, hPn⟩
        obtain ⟨ls, hls, hn⟩ := List.mem_flatten.1 hn
        obtain ⟨c, hc, -, hiff⟩ := Traversal.exists_of_forall₂ hall.flip hls
        exact ⟨c, hc, hiff.1 ⟨n, hn, hPn⟩⟩
      · rintro ⟨c, hc, hPc⟩
        obtain ⟨ls, hls, -, hiff⟩ := Traversal.exists_of_forall₂ hall hc
        obtain ⟨n, hn, hPn⟩ := hiff.2 hPc
        exact ⟨n, List.mem_flatten.2 ⟨ls, hls, hn⟩, hPn⟩

/-- A weight that children do not exceed together bounds the number of leaves. -/
theorem length_expand_le {w : GateOperation → Nat}
    (hnative : ∀ op, op.gate.isNative = true → 1 ≤ w op)
    (hstep : ∀ op ops, op.gate.isNative = false → step op = some ops → (ops.map w).sum ≤ w op)
    {ls : List GateOperation} (h : expand step limit op = .ok ls) : ls.length ≤ w op := by
  induction h using expand_induction with
  | native limit op _ hop => exact hnative op hop
  | rewritten limit op ops lss h hop hs hall =>
      have hsum : lss.flatten.length ≤ (ops.map w).sum := by
        clear h hs
        induction hall with
        | nil => exact Nat.le_refl 0
        | cons hc _ ih =>
            obtain ⟨-, hc⟩ := hc
            simp only [List.flatten_cons, List.length_append, List.map_cons, List.sum_cons]
            exact Nat.add_le_add hc ih
      exact hsum.trans (hstep op ops hop hs)

/-! A result that is a list holds the leaves of the tree, and the tree has no faulty node. -/

theorem leaves_of_native (h : op.gate.isNative = true) : Leaves step op [([], op)] := by
  refine ⟨List.pairwise_singleton _ _, ?_⟩
  intro p n
  rw [List.mem_singleton, Prod.mk.injEq, node_of_native h]
  constructor
  · rintro ⟨rfl, rfl⟩
    exact ⟨⟨rfl, rfl⟩, h⟩
  · exact fun hn => hn.1

/-- The leaves under the children of a node, which are numbered from `k`. -/
theorem exists_leaves_children {lss : List (List GateOperation)} (k : Nat)
    (h : List.Forall₂ (fun c ls => ∃ leaves, Leaves step c leaves ∧ leaves.map Prod.snd = ls)
      ops lss) :
    ∃ leaves : List (List Nat × GateOperation), leaves.Pairwise (fun a b => a.1 < b.1) ∧
      (∀ p n, (p, n) ∈ leaves ↔ ∃ i c q, p = (k + i) :: q ∧ ops[i]? = some c ∧
        Node step c q n ∧ n.gate.isNative = true) ∧
      leaves.map Prod.snd = lss.flatten := by
  induction h generalizing k with
  | nil => exact ⟨[], .nil, by simp, rfl⟩
  | @cons c ls ops lss hc _ ih =>
      obtain ⟨head, hhead, rfl⟩ := hc
      obtain ⟨tail, hsorted, hmem, hmap⟩ := ih (k + 1)
      refine ⟨head.map (fun x => (k :: x.1, x.2)) ++ tail, ?_, ?_, ?_⟩
      · refine List.pairwise_append.2 ⟨?_, hsorted, ?_⟩
        · exact List.pairwise_map.2 (hhead.ascending.imp fun hlt => List.Lex.cons hlt)
        · intro x hx y hy
          obtain ⟨z, -, rfl⟩ := List.mem_map.1 hx
          obtain ⟨i, d, q, hq, -⟩ := (hmem y.1 y.2).1 hy
          rw [hq]
          exact List.Lex.rel (by omega)
      · intro p n
        rw [List.mem_append, hmem]
        constructor
        · rintro (hx | ⟨i, d, q, rfl, hd, hn⟩)
          · obtain ⟨⟨q, m⟩, hz, he⟩ := List.mem_map.1 hx
            cases he
            exact ⟨0, c, q, rfl, rfl, (hhead.mem_iff q m).1 hz⟩
          · exact ⟨i + 1, d, q, by rw [Nat.add_right_comm, Nat.add_assoc], hd, hn⟩
        · rintro ⟨i, d, q, rfl, hd, hn⟩
          cases i with
          | zero =>
              cases hd
              exact .inl (List.mem_map.2 ⟨(q, n), (hhead.mem_iff q n).2 hn, rfl⟩)
          | succ i => exact .inr ⟨i, d, q, by rw [Nat.add_right_comm, Nat.add_assoc], hd, hn⟩
      · simp only [List.map_append, List.map_map, List.flatten_cons, hmap]
        rfl

theorem exists_leaves_of_expand {ls : List GateOperation} (h : expand step limit op = .ok ls) :
    ∃ leaves, Leaves step op leaves ∧ leaves.map Prod.snd = ls := by
  induction h using expand_induction with
  | native limit op _ hop => exact ⟨_, leaves_of_native hop, rfl⟩
  | rewritten limit op ops lss _ hop hs hall =>
      obtain ⟨leaves, hsorted, hmem, hmap⟩ :=
        exists_leaves_children 0 (hall.imp fun _ _ hc => hc.2)
      refine ⟨leaves, ⟨hsorted, ?_⟩, hmap⟩
      intro p n
      rw [hmem]
      constructor
      · rintro ⟨i, c, q, rfl, hc, hn, hnative⟩
        rw [Nat.zero_add, node_cons_iff hop hs]
        exact ⟨⟨c, hc, hn⟩, hnative⟩
      · rintro ⟨hn, hnative⟩
        cases hn with
        | root => simp [hop] at hnative
        | @child _ _ i next q _ _ hs' hnext hn =>
            cases hs.symm.trans hs'
            exact ⟨i, next, q, by rw [Nat.zero_add], hnext, hn, hnative⟩

theorem finishes_of_expand {ls : List GateOperation} (h : expand step limit op = .ok ls) :
    Finishes step limit op := by
  induction h using expand_induction with
  | native limit op _ hop =>
      intro p n hn hnative
      obtain ⟨-, rfl⟩ := (node_of_native hop).1 hn
      simp [hop] at hnative
  | rewritten limit op ops lss _ hop hs hall =>
      intro p n hn hnative
      cases hn with
      | root => exact ⟨Nat.succ_pos _, by simp [hs]⟩
      | @child _ _ i next q _ _ hs' hnext hn =>
          cases hs.symm.trans hs'
          obtain ⟨ls, -, -, hnext⟩ := Traversal.exists_of_forall₂ hall (List.mem_of_getElem? hnext)
          obtain ⟨hq, hsome⟩ := hnext q n hn hnative
          exact ⟨Nat.succ_lt_succ hq, hsome⟩

/-! A result that is an error names the first faulty node of the tree. -/

theorem firstFault_root (h : Fault step limit 0 op f) : FirstFault step limit op [] op f :=
  ⟨.root op, h, fun hq => absurd hq (List.not_lt_nil _)⟩

/-- A fault below a child is the first of the tree when the children before it finish. -/
theorem FirstFault.child {before after : List GateOperation} {c : GateOperation}
    (hop : op.gate.isNative = false) (hs : step op = some (before ++ c :: after))
    (hbefore : ∀ b ∈ before, Finishes step limit b) (h : FirstFault step limit c p n f) :
    FirstFault step (limit + 1) op (before.length :: p) n f := by
  have hc : (before ++ c :: after)[before.length]? = some c := by simp
  refine ⟨.child hop hs hc h.node, fault_succ.2 h.fault, ?_⟩
  intro q m g hq hm hg
  cases hm with
  | root =>
      cases hg with
      | depthLimit _ hd => cases hd
      | noRule _ _ hnone => simp [hs] at hnone
  | @child _ _ i next q _ _ hs' hnext hm =>
      cases hs.symm.trans hs'
      rw [List.length_cons, fault_succ] at hg
      rcases List.cons_lt_cons_iff.1 hq with hi | ⟨rfl, hlt⟩
      · rw [List.getElem?_append_left hi] at hnext
        exact (hbefore next (List.mem_of_getElem? hnext)).no_fault hm hg
      · cases hc.symm.trans hnext
        exact h.first hlt hm hg

theorem exists_firstFault_of_expand {e : DeviceError} (h : expand step limit op = .error e) :
    ∃ p n f, FirstFault step limit op p n f ∧ e = .notLowered n f := by
  induction limit generalizing op with
  | zero =>
      obtain ⟨hop, ⟨-, rfl⟩ | ⟨rest, hrest, -⟩⟩ := expand_error_cases h
      · exact ⟨[], op, .depthLimit, firstFault_root (.depthLimit hop rfl), rfl⟩
      · cases hrest
  | succ limit ih =>
      obtain ⟨hop, ⟨hzero, -⟩ | ⟨rest, hrest, ⟨hs, rfl⟩ | ⟨before, c, after, hs, hc, hbefore⟩⟩⟩ :=
        expand_error_cases h
      · cases hzero
      · exact ⟨[], op, .noRule, firstFault_root (.noRule hop (Nat.succ_pos _) hs), rfl⟩
      · cases hrest
        obtain ⟨p, n, f, hfirst, rfl⟩ := ih hc
        refine ⟨before.length :: p, n, f, hfirst.child hop hs ?_, rfl⟩
        intro b hb
        obtain ⟨ls, hls⟩ := hbefore b hb
        exact finishes_of_expand hls

/-! Lowering as a whole. -/

theorem expand_eq_ok_iff {ls : List GateOperation} :
    expand step limit op = .ok ls ↔
      Finishes step limit op ∧ ∃ leaves, Leaves step op leaves ∧ leaves.map Prod.snd = ls := by
  constructor
  · intro h
    exact ⟨finishes_of_expand h, exists_leaves_of_expand h⟩
  · rintro ⟨hfinishes, leaves, hleaves, rfl⟩
    cases h : expand step limit op with
    | error e =>
        obtain ⟨p, n, f, hfirst, -⟩ := exists_firstFault_of_expand h
        exact absurd hfirst.fault (hfinishes.no_fault hfirst.node)
    | ok ls =>
        obtain ⟨leaves', hleaves', rfl⟩ := exists_leaves_of_expand h
        rw [hleaves.unique hleaves']

theorem expand_eq_error_iff {e : DeviceError} :
    expand step limit op = .error e ↔
      ∃ p n f, FirstFault step limit op p n f ∧ e = .notLowered n f := by
  constructor
  · exact exists_firstFault_of_expand
  · rintro ⟨p, n, f, hfirst, rfl⟩
    cases h : expand step limit op with
    | ok ls => exact absurd hfirst.fault ((finishes_of_expand h).no_fault hfirst.node)
    | error e =>
        obtain ⟨q, m, g, hfirst', rfl⟩ := exists_firstFault_of_expand h
        obtain ⟨rfl, rfl⟩ := hfirst.unique hfirst'
        rfl

/-- Lowering asks a strategy only at nodes above the limit that are not native. -/
theorem expand_congr {step' : GateOperation → Option (List GateOperation)}
    (h : ∀ p n, Node step op p n → n.gate.isNative = false → p.length < limit →
      step' n = step n) : expand step' limit op = expand step limit op := by
  induction limit generalizing op with
  | zero => rfl
  | succ limit ih =>
      cases hop : op.gate.isNative with
      | true => rw [expand_of_native hop, expand_of_native hop]
      | false =>
          have hroot := h [] op (.root op) hop (Nat.succ_pos _)
          cases hs : step op with
          | none => rw [expand_of_none hop hs, expand_of_none hop (hroot.trans hs)]
          | some ops =>
              rw [expand_of_some hop hs, expand_of_some hop (hroot.trans hs)]
              refine congrArg (Except.map List.flatten) (Traversal.mapM_congr fun c hc => ih ?_)
              intro p n hn hnative hp
              obtain ⟨i, hi⟩ := List.mem_iff_getElem?.1 hc
              exact h (i :: p) n (.child hop hs hi hn) hnative (Nat.succ_lt_succ hp)

end Lowering

theorem DeviceError.message_noRule (n : GateOperation) :
    (DeviceError.notLowered n .noRule).message =
      "Cannot decompose " ++ n.render ++ " into device-native operations" := by
  have h : (DeviceError.notLowered n .noRule).message =
      "Cannot decompose " ++ n.render ++ "" ++ " into device-native operations" := rfl
  rw [h, String.append_empty]

theorem DeviceError.message_depthLimit (n : GateOperation) :
    (DeviceError.notLowered n .depthLimit).message =
      "Cannot decompose " ++ (n.render ++ " (depth limit 16 reached)") ++
        " into device-native operations" := by
  have h : (DeviceError.notLowered n .depthLimit).message =
      "Cannot decompose " ++ n.render ++ " (depth limit 16 reached)" ++
        " into device-native operations" := rfl
  simp only [h, String.append_assoc]

open Lowering in
/-- With any strategy, a gate operation is lowered to the leaves of its rewriting tree in preorder
if every node that is not native lies above the depth limit and has an answer, and fails with the
first faulty node otherwise. The strategy is not asked at the limit. -/
theorem Device.lowerWith_reads_tree (d : Device) (strategy : Strategy) (op : Operation) :
    (match op with
      | .gate g =>
        (∀ ops, d.lowerWith strategy op = .ok ops ↔
          Finishes strategy.step maxLoweringDepth g ∧
            ∃ leaves, Leaves strategy.step g leaves ∧ ops = leaves.map fun leaf => .gate leaf.2) ∧
        (∀ e, d.lowerWith strategy op = .error e ↔
          ∃ p n f, FirstFault strategy.step maxLoweringDepth g p n f ∧ e = .notLowered n f) ∧
        ∀ other : Strategy,
          (∀ p n, Node strategy.step g p n → n.gate.isNative = false →
            p.length < maxLoweringDepth → other.step n = strategy.step n) →
          d.lowerWith other op = d.lowerWith strategy op
      | other => d.lowerWith strategy op = .error (.notAGate other)) ∧
    ∀ n : GateOperation,
      (DeviceError.notLowered n .noRule).message =
        "Cannot decompose " ++ n.render ++ " into device-native operations" ∧
      (DeviceError.notLowered n .depthLimit).message =
        "Cannot decompose " ++ (n.render ++ " (depth limit 16 reached)") ++
          " into device-native operations" := by
  refine ⟨?_, fun n => ⟨DeviceError.message_noRule n, DeviceError.message_depthLimit n⟩⟩
  cases op with
  | gate g =>
      refine ⟨fun ops => ?_, fun e => ?_, fun other h => ?_⟩
      · simp only [lowerWith, Traversal.map_eq_ok_iff, expand_eq_ok_iff]
        constructor
        · rintro ⟨_, ⟨hfinishes, leaves, hleaves, rfl⟩, rfl⟩
          exact ⟨hfinishes, leaves, hleaves, List.map_map⟩
        · rintro ⟨hfinishes, leaves, hleaves, rfl⟩
          exact ⟨_, ⟨hfinishes, leaves, hleaves, rfl⟩, List.map_map⟩
      · simp only [lowerWith, Traversal.map_eq_error_iff, expand_eq_error_iff]
      · simp only [lowerWith, expand_congr h]
  | parallel g => rfl
  | block name qs => rfl

end AtomArray
