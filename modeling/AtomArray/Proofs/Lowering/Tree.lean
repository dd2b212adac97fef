import AtomArray.Lowering
import Mathlib.Data.List.Lex

/-! The rewriting tree of a strategy: below an operation that is not native stand those of the
strategy's answer, in order. The tree need not be finite. -/

namespace AtomArray.Lowering

/-- The nodes of the tree under an operation. A node stands at the list of child numbers that leads
to it, so that its depth is the length of the list and preorder is the order of lists. -/
inductive Node (step : GateOperation → Option (List GateOperation)) :
    GateOperation → List Nat → GateOperation → Prop
  | root (op : GateOperation) : Node step op [] op
  | child {op ops i next p n} : op.gate.isNative = false → step op = some ops →
      ops[i]? = some next → Node step next p n → Node step op (i :: p) n

/-- A node that is not native is faulty at the depth limit, where the strategy is not asked, and
above it if the strategy has no answer. -/
inductive Fault (step : GateOperation → Option (List GateOperation)) (limit depth : Nat)
    (n : GateOperation) : LoweringFailure → Prop
  | depthLimit : n.gate.isNative = false → depth = limit → Fault step limit depth n .depthLimit
  | noRule : n.gate.isNative = false → depth < limit → step n = none →
      Fault step limit depth n .noRule

structure FirstFault (step : GateOperation → Option (List GateOperation)) (limit : Nat)
    (op : GateOperation) (p : List Nat) (n : GateOperation) (f : LoweringFailure) : Prop where
  node : Node step op p n
  fault : Fault step limit p.length n f
  first : ∀ {q m g}, q < p → Node step op q m → ¬ Fault step limit q.length m g

/-- Every node that is not native lies above the limit and has an answer. -/
def Finishes (step : GateOperation → Option (List GateOperation)) (limit : Nat)
    (op : GateOperation) : Prop :=
  ∀ p n, Node step op p n → n.gate.isNative = false → p.length < limit ∧ (step n).isSome

/-- The native nodes of the tree with their places, each of them once and in preorder. -/
structure Leaves (step : GateOperation → Option (List GateOperation)) (op : GateOperation)
    (leaves : List (List Nat × GateOperation)) : Prop where
  ascending : leaves.Pairwise fun a b => a.1 < b.1
  mem_iff : ∀ p n, (p, n) ∈ leaves ↔ Node step op p n ∧ n.gate.isNative = true

variable {step : GateOperation → Option (List GateOperation)} {limit depth : Nat}
  {op n : GateOperation} {ops : List GateOperation} {p : List Nat} {f : LoweringFailure}

theorem node_of_native (h : op.gate.isNative = true) : Node step op p n ↔ p = [] ∧ n = op := by
  constructor
  · intro hn
    cases hn with
    | root => exact ⟨rfl, rfl⟩
    | child hop => simp [h] at hop
  · rintro ⟨rfl, rfl⟩
    exact .root n

theorem node_cons_iff {i : Nat} (hop : op.gate.isNative = false) (hops : step op = some ops) :
    Node step op (i :: p) n ↔ ∃ next, ops[i]? = some next ∧ Node step next p n := by
  constructor
  · intro h
    cases h with
    | child _ hops' hnext hn =>
        cases hops.symm.trans hops'
        exact ⟨_, hnext, hn⟩
  · rintro ⟨next, hnext, hn⟩
    exact .child hop hops hnext hn

theorem Node.unique {m : GateOperation} (h : Node step op p n) (h' : Node step op p m) : n = m := by
  induction h with
  | root op => cases h'; rfl
  | child hop hops hnext hn ih =>
      obtain ⟨next, hnext', hm⟩ := (node_cons_iff hop hops).1 h'
      cases hnext.symm.trans hnext'
      exact ih hm

theorem Fault.not_native (h : Fault step limit depth n f) : n.gate.isNative = false := by
  cases h with
  | depthLimit hn => exact hn
  | noRule hn => exact hn

theorem Fault.unique {g : LoweringFailure} (h : Fault step limit depth n f)
    (h' : Fault step limit depth n g) : f = g := by
  cases h with
  | depthLimit _ hd =>
      cases h' with
      | depthLimit => rfl
      | noRule _ hd' => omega
  | noRule _ hd =>
      cases h' with
      | depthLimit _ hd' => omega
      | noRule => rfl

theorem fault_succ : Fault step (limit + 1) (depth + 1) n f ↔ Fault step limit depth n f := by
  constructor
  · intro h
    cases h with
    | depthLimit hn hd => exact .depthLimit hn (Nat.succ.inj hd)
    | noRule hn hd hs => exact .noRule hn (Nat.lt_of_succ_lt_succ hd) hs
  · intro h
    cases h with
    | depthLimit hn hd => exact .depthLimit hn (congrArg Nat.succ hd)
    | noRule hn hd hs => exact .noRule hn (Nat.succ_lt_succ hd) hs

theorem Finishes.no_fault (h : Finishes step limit op) (hn : Node step op p n) :
    ¬ Fault step limit p.length n f := by
  intro hf
  obtain ⟨hp, hs⟩ := h p n hn hf.not_native
  cases hf with
  | depthLimit _ hd => omega
  | noRule _ _ hnone => simp [hnone] at hs

theorem FirstFault.unique {q : List Nat} {m : GateOperation} {g : LoweringFailure}
    (h : FirstFault step limit op p n f) (h' : FirstFault step limit op q m g) :
    n = m ∧ f = g := by
  rcases lt_trichotomy p q with hlt | rfl | hlt
  · exact absurd h.fault (h'.first hlt h.node)
  · cases h.node.unique h'.node
    exact ⟨rfl, h.fault.unique h'.fault⟩
  · exact absurd h'.fault (h.first hlt h'.node)

theorem Leaves.unique {a b : List (List Nat × GateOperation)} (ha : Leaves step op a)
    (hb : Leaves step op b) : a = b := by
  have nodup {l : List (List Nat × GateOperation)} (h : Leaves step op l) : l.Nodup := by
    refine List.Pairwise.imp ?_ h.ascending
    rintro x y hlt rfl
    exact lt_irrefl x.1 hlt
  have hperm : a.Perm b := (List.perm_ext_iff_of_nodup (nodup ha) (nodup hb)).2
    fun x => (ha.mem_iff x.1 x.2).trans (hb.mem_iff x.1 x.2).symm
  exact hperm.eq_of_pairwise (fun x y _ _ hxy hyx => absurd hxy (lt_asymm hyx)) ha.ascending
    hb.ascending

end AtomArray.Lowering
