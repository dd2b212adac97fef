import AtomArray.Operation.Data
import AtomArray.Proofs.Qubit.Order
import AtomArray.Proofs.Rewriting.Rule

/-! Gates bound to qubits: which lists of qubits are refused, for what and in what order, and that
every operation is one that was not, whichever way it came in. -/

namespace AtomArray

namespace Qubit

/-- No two of the qubits are equal. -/
def Unequal (qs : List Qubit) : Prop := qs.Pairwise fun p q => (p == q) = false

/-- The first of some qubits that is equal to an earlier one. -/
def FirstRepeat (q : Qubit) (qs : List Qubit) : Prop :=
  ∃ before after, qs = before ++ q :: after ∧ Unequal before ∧ ∃ p ∈ before, (p == q) = true

variable {p q : Qubit} {qs : List Qubit} {seen : List Identity}

theorem beq_eq_false_iff : (p == q) = false ↔ p.identity ≠ q.identity := by
  rw [← Bool.not_eq_true, beq_iff_identity_eq]

theorem unequal_iff_distinct : Unequal qs ↔ Distinct qs := by
  unfold Unequal Distinct List.Nodup
  rw [List.pairwise_map]
  simp only [beq_eq_false_iff]

theorem firstRepeat?.go_cons_seen (h : q.identity ∈ seen) : go seen (q :: qs) = some q := if_pos h

theorem firstRepeat?.go_cons_new (h : q.identity ∉ seen) :
    go seen (q :: qs) = go (q.identity :: seen) qs := if_neg h

/-- The search with some identities seen before: it stops at one of these or at a repeat. -/
theorem firstRepeat?.go_append {before after : List Qubit} (hbefore : Unequal before)
    (hnew : ∀ p ∈ before, p.identity ∉ seen)
    (hq : q.identity ∈ seen ∨ ∃ p ∈ before, (p == q) = true) :
    go seen (before ++ q :: after) = some q := by
  induction before generalizing seen with
  | nil => exact go_cons_seen (hq.resolve_right (by simp))
  | cons a before ih =>
      obtain ⟨ha, hbefore⟩ := List.pairwise_cons.1 hbefore
      obtain ⟨hanew, hnew⟩ := List.forall_mem_cons.1 hnew
      rw [List.cons_append, go_cons_new hanew]
      apply ih hbefore
      · intro p hp hmem
        rcases List.mem_cons.1 hmem with heq | hseen
        · exact beq_eq_false_iff.1 (ha p hp) heq.symm
        · exact hnew p hp hseen
      · rcases hq with hseen | ⟨p, hp, hpq⟩
        · exact .inl (List.mem_cons_of_mem _ hseen)
        · rcases List.mem_cons.1 hp with rfl | hp
          · exact .inl (List.mem_cons.2 (.inl (beq_iff_identity_eq.1 hpq).symm))
          · exact .inr ⟨p, hp, hpq⟩

theorem FirstRepeat.firstRepeat?_eq (h : FirstRepeat q qs) : firstRepeat? qs = some q := by
  obtain ⟨before, after, rfl, hbefore, hq⟩ := h
  exact firstRepeat?.go_append hbefore (fun p _ => List.not_mem_nil) (.inr hq)

/-- Qubits that are not all unequal have a first repeat: the element behind the longest part that
has none. -/
theorem unequal_or_exists_firstRepeat (qs : List Qubit) :
    Unequal qs ∨ ∃ q, FirstRepeat q qs := by
  induction qs using List.reverseRecOn with
  | nil => exact .inl .nil
  | append_singleton qs a ih =>
      rcases ih with hqs | ⟨q, before, after, rfl, hbefore, hq⟩
      · by_cases ha : ∃ p ∈ qs, (p == a) = true
        · exact .inr ⟨a, qs, [], rfl, hqs, ha⟩
        · refine .inl (List.pairwise_append.2 ⟨hqs, List.pairwise_singleton _ a, ?_⟩)
          intro p hp b hb
          rw [List.mem_singleton.1 hb, ← Bool.not_eq_true]
          exact fun hpa => ha ⟨p, hp, hpa⟩
      · exact .inr ⟨q, before, after ++ [a], by simp, hbefore, hq⟩

theorem firstRepeat?_eq_some_iff : firstRepeat? qs = some q ↔ FirstRepeat q qs := by
  constructor
  · intro h
    rcases unequal_or_exists_firstRepeat qs with hqs | ⟨p, hp⟩
    · cases (firstRepeat?_eq_none.2 (unequal_iff_distinct.1 hqs)).symm.trans h
    · cases hp.firstRepeat?_eq.symm.trans h
      exact hp
  · exact FirstRepeat.firstRepeat?_eq

/-- The search for a repeat with a set that finds qubits by their hashes. -/
def hashedRepeat? (seen : Std.HashSet Qubit) : List Qubit → Option Qubit
  | [] => none
  | q :: rest => if seen.contains q then some q else hashedRepeat? (seen.insert q) rest

/-- Equal qubits have equal hashes, so the set holds a qubit just when its identity was seen. -/
theorem hashedRepeat?_eq_go {set : Std.HashSet Qubit}
    (h : ∀ q, set.contains q = true ↔ q.identity ∈ seen) :
    hashedRepeat? set qs = firstRepeat?.go seen qs := by
  induction qs generalizing set seen with
  | nil => rfl
  | cons q rest ih =>
      by_cases hq : q.identity ∈ seen
      · rw [firstRepeat?.go_cons_seen hq, hashedRepeat?, if_pos ((h q).2 hq)]
      · rw [firstRepeat?.go_cons_new hq, hashedRepeat?, if_neg fun hc => hq ((h q).1 hc)]
        apply ih
        intro p
        rw [Std.HashSet.contains_insert, Bool.or_eq_true, h, beq_iff_identity_eq, List.mem_cons,
          eq_comm]

theorem hashedRepeat?_eq (qs : List Qubit) : hashedRepeat? ∅ qs = firstRepeat? qs := by
  apply hashedRepeat?_eq_go
  intro q
  simp

theorem distinct?_of_firstRepeat (gate : Gate) (h : FirstRepeat q qs) :
    distinct? gate qs = .error (.repeatedQubit q gate.name) := by
  fun_cases distinct? gate qs with
  | case1 p hp =>
      cases h.firstRepeat?_eq.symm.trans hp
      rfl
  | case2 hnone => cases h.firstRepeat?_eq.symm.trans hnone

end Qubit

namespace GateOperation

/-- What binding a gate to qubits may give, and when. -/
inductive Bound (gate : Gate) (qs : List Qubit) : Except OperationError GateOperation → Prop
  | arityMismatch (arity : qs.length ≠ gate.arity) :
      Bound gate qs
        (.error (.arityMismatch gate.name gate.arity (min qs.length (UInt32.size - 1))))
  | repeatedQubit {q : Qubit} (arity : qs.length = gate.arity) (first : Qubit.FirstRepeat q qs) :
      Bound gate qs (.error (.repeatedQubit q gate.name))
  | ok {op : GateOperation} (arity : qs.length = gate.arity) (unequal : Qubit.Unequal qs)
      (gate_eq : op.gate = gate) (qubits_eq : op.qubits = qs) : Bound gate qs (.ok op)

variable {gate : Gate} {qs : List Qubit} {r : Except OperationError GateOperation}

theorem bound_on? (gate : Gate) (qs : List Qubit) : Bound gate qs (on? gate qs) := by
  by_cases arity : qs.length = gate.arity
  · rcases Qubit.unequal_or_exists_firstRepeat qs with hqs | ⟨q, hq⟩
    · rw [on?_eq_ok arity (Qubit.unequal_iff_distinct.1 hqs)]
      exact .ok arity hqs rfl rfl
    · rw [on?, dif_pos arity, Qubit.distinct?_of_firstRepeat gate hq]
      exact .repeatedQubit arity hq
  · rw [on?, dif_neg arity]
    exact .arityMismatch arity

/-- Every operation is what its gate and qubits are bound as. -/
theorem on?_self (op : GateOperation) : on? op.gate op.qubits = .ok op :=
  on?_eq_ok op.arity op.distinct

theorem Bound.on?_eq (h : Bound gate qs r) : on? gate qs = r := by
  cases h with
  | arityMismatch arity => exact dif_neg arity
  | repeatedQubit arity first =>
      rw [on?, dif_pos arity, Qubit.distinct?_of_firstRepeat gate first]
  | ok arity unequal gate_eq qubits_eq =>
      subst gate_eq qubits_eq
      exact on?_self _

theorem on?_eq_iff : on? gate qs = r ↔ Bound gate qs r := by
  constructor
  · rintro rfl
    exact bound_on? gate qs
  · exact Bound.on?_eq

/-- The number of the qubits is judged before a repeat. -/
example (q : Qubit) : on? (.one .ccx) [q, q] = .error (.arityMismatch "ccx" 3 2) := rfl

theorem exists_on?_iff :
    (∃ op, on? gate qs = .ok op) ↔ qs.length = gate.arity ∧ Qubit.Unequal qs := by
  constructor
  · rintro ⟨op, hop⟩
    cases on?_eq_iff.1 hop with
    | ok arity unequal _ _ => exact ⟨arity, unequal⟩
  · rintro ⟨arity, unequal⟩
    exact ⟨_, on?_eq_ok arity (Qubit.unequal_iff_distinct.1 unequal)⟩

end GateOperation

namespace ParallelOperation

/-- What applying a gate to every one of some qubits may give, and when. -/
inductive Bound (gate : Gate) (qs : List Qubit) : Except OperationError ParallelOperation → Prop
  | notSingleQubit (arity : gate.arity ≠ 1) : Bound gate qs (.error (.notSingleQubit gate.name))
  | noTargets (single : gate.arity = 1) (empty : qs = []) :
      Bound gate qs (.error (.noTargets gate.name))
  | repeatedQubit {q : Qubit} (single : gate.arity = 1) (first : Qubit.FirstRepeat q qs) :
      Bound gate qs (.error (.repeatedQubit q gate.name))
  | ok {op : ParallelOperation} (single : gate.arity = 1) (nonempty : qs ≠ [])
      (unequal : Qubit.Unequal qs) (gate_eq : op.gate = gate) (qubits_eq : op.qubits = qs) :
      Bound gate qs (.ok op)

variable {gate : Gate} {qs : List Qubit} {q : Qubit} {r : Except OperationError ParallelOperation}

theorem onEach?_of_firstRepeat (single : gate.arity = 1) (first : Qubit.FirstRepeat q qs) :
    onEach? gate qs = .error (.repeatedQubit q gate.name) := by
  have nonempty : qs ≠ [] := by
    obtain ⟨before, after, rfl, -⟩ := first
    simp
  rw [onEach?, dif_pos single, dif_neg nonempty, Qubit.distinct?_of_firstRepeat gate first]

theorem bound_onEach? (gate : Gate) (qs : List Qubit) : Bound gate qs (onEach? gate qs) := by
  by_cases single : gate.arity = 1
  · rcases Qubit.unequal_or_exists_firstRepeat qs with hqs | ⟨q, hq⟩
    · by_cases hempty : qs = []
      · rw [onEach?, dif_pos single, dif_pos hempty]
        exact .noTargets single hempty
      · rw [onEach?_eq_ok single hempty (Qubit.unequal_iff_distinct.1 hqs)]
        exact .ok single hempty hqs rfl rfl
    · rw [onEach?_of_firstRepeat single hq]
      exact .repeatedQubit single hq
  · rw [onEach?, dif_neg single]
    exact .notSingleQubit single

theorem onEach?_self (op : ParallelOperation) : onEach? op.gate op.qubits = .ok op :=
  onEach?_eq_ok op.single op.nonempty op.distinct

theorem Bound.onEach?_eq (h : Bound gate qs r) : onEach? gate qs = r := by
  cases h with
  | notSingleQubit arity => exact dif_neg arity
  | noTargets single empty => rw [onEach?, dif_pos single, dif_pos empty]
  | repeatedQubit single first => exact onEach?_of_firstRepeat single first
  | ok single nonempty unequal gate_eq qubits_eq =>
      subst gate_eq qubits_eq
      exact onEach?_self _

theorem onEach?_eq_iff : onEach? gate qs = r ↔ Bound gate qs r := by
  constructor
  · rintro rfl
    exact bound_onEach? gate qs
  · exact Bound.onEach?_eq

theorem exists_onEach?_iff :
    (∃ op, onEach? gate qs = .ok op) ↔ gate.arity = 1 ∧ qs ≠ [] ∧ Qubit.Unequal qs := by
  constructor
  · rintro ⟨op, hop⟩
    cases onEach?_eq_iff.1 hop with
    | ok single nonempty unequal _ _ => exact ⟨single, nonempty, unequal⟩
  · rintro ⟨single, nonempty, unequal⟩
    exact ⟨_, onEach?_eq_ok single nonempty (Qubit.unequal_iff_distinct.1 unequal)⟩

end ParallelOperation

namespace Operation

/-- The value is a record of a kind that names a gate and its targets. -/
def Targets (value : Data) (kind : String) (gate : Gate) (qs : List Qubit) : Prop :=
  ∃ rest, value.tagged? [] "type" = some (kind, rest) ∧ targetsOf? rest = some (gate, qs)

/-- The value names the operation, with the very gate and qubits that it has. -/
def ReadFrom (value : Data) : Operation → Prop
  | .gate op => Targets value "gate" op.gate op.qubits
  | .parallel op => Targets value "parallel" op.gate op.qubits
  | .block name qs => ∃ rest, value.tagged? [] "type" = some ("opaque", rest) ∧
      blockOf? rest = some (.block name qs)

variable {value rest : Data} {gate : Gate} {qs : List Qubit} {op : Operation}
  {ops : List Operation} {e : OperationError}

/-- What is built on the gate and the targets of a record, or is malformed without them. -/
theorem build_of_record {α : Type} (build? : Gate → List Qubit → Except OperationError α)
    (wrap : α → Operation) (rest : Data) :
    (do
      let (g, targets) ← ReadError.ofOption (targetsOf? rest)
      return wrap (← refuse (build? g targets))) =
      (targetsOf? rest).elim (.error .malformed) fun t => refuse ((build? t.1 t.2).map wrap) := by
  cases htargets : targetsOf? rest with
  | none => rfl
  | some targets =>
      change (refuse (build? targets.1 targets.2) >>= _) = refuse _
      cases build? targets.1 targets.2 <;> rfl

/-! What a value of each kind is read as. -/

theorem ofData?_gate (htag : value.tagged? [] "type" = some ("gate", rest)) :
    ofData? value = (targetsOf? rest).elim (.error .malformed) fun t =>
      refuse ((GateOperation.on? t.1 t.2).map .gate) := by
  rw [ofData?, htag]
  exact build_of_record GateOperation.on? .gate rest

theorem ofData?_parallel (htag : value.tagged? [] "type" = some ("parallel", rest)) :
    ofData? value = (targetsOf? rest).elim (.error .malformed) fun t =>
      refuse ((ParallelOperation.onEach? t.1 t.2).map .parallel) := by
  rw [ofData?, htag]
  exact build_of_record ParallelOperation.onEach? .parallel rest

theorem ofData?_block (htag : value.tagged? [] "type" = some ("opaque", rest)) :
    ofData? value = ReadError.ofOption (blockOf? rest) := by
  rw [ofData?, htag]
  rfl

theorem ofData?_of_gate (h : Targets value "gate" gate qs) :
    ofData? value = refuse ((GateOperation.on? gate qs).map .gate) := by
  obtain ⟨rest, htag, htargets⟩ := h
  rw [ofData?_gate htag, htargets]
  rfl

theorem ofData?_of_parallel (h : Targets value "parallel" gate qs) :
    ofData? value = refuse ((ParallelOperation.onEach? gate qs).map .parallel) := by
  obtain ⟨rest, htag, htargets⟩ := h
  rw [ofData?_parallel htag, htargets]
  rfl

theorem exists_block (h : blockOf? rest = some op) : ∃ name qs, op = .block name qs := by
  unfold blockOf? at h
  split at h
  · obtain ⟨name, -, h⟩ := Option.bind_eq_some_iff.1 h
    obtain ⟨qs, -, h⟩ := Option.bind_eq_some_iff.1 h
    cases h
    exact ⟨name, qs, rfl⟩
  · cases h

/-- A value names a gate and its targets, or it is a block as it stands, or it is malformed. -/
theorem ofData?_cases (value : Data) :
    (∃ gate qs, Targets value "gate" gate qs) ∨ (∃ gate qs, Targets value "parallel" gate qs) ∨
    (∃ name qs, ofData? value = .ok (.block name qs) ∧ (Operation.block name qs).ReadFrom value) ∨
    ofData? value = .error .malformed := by
  cases htag : value.tagged? [] "type" with
  | none =>
      refine .inr (.inr (.inr ?_))
      rw [ofData?, htag]
      rfl
  | some tagged =>
      obtain ⟨kind, rest⟩ := tagged
      by_cases hgate : kind = "gate"
      · subst hgate
        cases htargets : targetsOf? rest with
        | none => exact .inr (.inr (.inr (by rw [ofData?_gate htag, htargets]; rfl)))
        | some targets => exact .inl ⟨_, _, rest, htag, htargets⟩
      by_cases hparallel : kind = "parallel"
      · subst hparallel
        cases htargets : targetsOf? rest with
        | none => exact .inr (.inr (.inr (by rw [ofData?_parallel htag, htargets]; rfl)))
        | some targets => exact .inr (.inl ⟨_, _, rest, htag, htargets⟩)
      by_cases hblock : kind = "opaque"
      · subst hblock
        have hread := ofData?_block htag
        cases hparts : blockOf? rest with
        | none =>
            rw [hparts] at hread
            exact .inr (.inr (.inr hread))
        | some op =>
            obtain ⟨name, qs, rfl⟩ := exists_block hparts
            rw [hparts] at hread
            exact .inr (.inr (.inl ⟨name, qs, hread, rest, htag, hparts⟩))
      · refine .inr (.inr (.inr ?_))
        rw [ofData?, htag]
        dsimp only [ReadError.ofOption, bind, Except.bind]
        split
        next heq =>
          cases heq
          exact absurd rfl hgate
        next heq =>
          cases heq
          exact absurd rfl hparallel
        next heq =>
          cases heq
          exact absurd rfl hblock
        next => rfl

theorem ofData?_eq_ok_iff : ofData? value = .ok op ↔ op.ReadFrom value := by
  constructor
  · intro h
    rcases ofData?_cases value with ⟨gate, qs, ht⟩ | ⟨gate, qs, ht⟩ | ⟨name, qs, hb, hr⟩ | hm
    · rw [ofData?_of_gate ht, refuse_eq_ok_iff, Traversal.map_eq_ok_iff] at h
      obtain ⟨op, hop, rfl⟩ := h
      cases GateOperation.on?_eq_iff.1 hop with
      | ok arity unequal gate_eq qubits_eq =>
          subst gate_eq qubits_eq
          exact ht
    · rw [ofData?_of_parallel ht, refuse_eq_ok_iff, Traversal.map_eq_ok_iff] at h
      obtain ⟨op, hop, rfl⟩ := h
      cases ParallelOperation.onEach?_eq_iff.1 hop with
      | ok single nonempty unequal gate_eq qubits_eq =>
          subst gate_eq qubits_eq
          exact ht
    · cases hb.symm.trans h
      exact hr
    · cases hm.symm.trans h
  · intro h
    cases op with
    | gate op =>
        rw [ofData?_of_gate h, op.on?_self]
        rfl
    | parallel op =>
        rw [ofData?_of_parallel h, op.onEach?_self]
        rfl
    | block name qs =>
        obtain ⟨rest, htag, hparts⟩ := h
        rw [ofData?_block htag, hparts]
        rfl

/-- A value is refused for what its gate and targets are refused for. -/
theorem ofData?_eq_refused_iff : ofData? value = .error (.refused e) ↔ ∃ gate qs,
    (Targets value "gate" gate qs ∧ GateOperation.on? gate qs = .error e) ∨
    (Targets value "parallel" gate qs ∧ ParallelOperation.onEach? gate qs = .error e) := by
  constructor
  · intro h
    rcases ofData?_cases value with ⟨gate, qs, ht⟩ | ⟨gate, qs, ht⟩ | ⟨name, qs, hb, hr⟩ | hm
    · rw [ofData?_of_gate ht, refuse_eq_refused_iff, Traversal.map_eq_error_iff] at h
      exact ⟨gate, qs, .inl ⟨ht, h⟩⟩
    · rw [ofData?_of_parallel ht, refuse_eq_refused_iff, Traversal.map_eq_error_iff] at h
      exact ⟨gate, qs, .inr ⟨ht, h⟩⟩
    · cases hb.symm.trans h
    · cases hm.symm.trans h
  · rintro ⟨gate, qs, ⟨ht, he⟩ | ⟨ht, he⟩⟩
    · rw [ofData?_of_gate ht, he]
      rfl
    · rw [ofData?_of_parallel ht, he]
      rfl

/-! Operations in texts, alone and in lists. -/

theorem readFrom_of_ofWhole? {depth : Nat} (h : ofWhole? depth value = .ok op) :
    op.ReadFrom value := by
  unfold ofWhole? at h
  split_ifs at h
  exact ofData?_eq_ok_iff.1 h

theorem readFrom_of_ofText? {text : String} (h : ofText? text = .ok op) :
    ∃ value, op.ReadFrom value := by
  obtain ⟨⟨value, rest⟩, -, h⟩ := Traversal.bind_eq_ok_iff.1 h
  obtain ⟨op', hop, h⟩ := Traversal.bind_eq_ok_iff.1 h
  split_ifs at h
  cases h
  exact ⟨value, readFrom_of_ofWhole? hop⟩

theorem readFrom_of_readList {n : Nat} {cs rest : List Char}
    (h : readList n cs = .ok (ops, rest)) : ∀ op ∈ ops, ∃ value, op.ReadFrom value := by
  induction n generalizing cs ops rest with
  | zero => cases h
  | succ n ih =>
      obtain ⟨⟨value, behind⟩, -, h⟩ := Traversal.bind_eq_ok_iff.1 h
      obtain ⟨op, hop, h⟩ := Traversal.bind_eq_ok_iff.1 h
      have hvalue := readFrom_of_ofWhole? hop
      dsimp only at h
      split at h
      · obtain ⟨⟨later, rest⟩, hlater, h⟩ := Traversal.bind_eq_ok_iff.1 h
        cases h
        exact List.forall_mem_cons.2 ⟨⟨value, hvalue⟩, ih hlater⟩
      · cases h
        exact List.forall_mem_singleton.2 ⟨value, hvalue⟩
      · cases h

theorem readFrom_of_listOfText? {text : String} (h : listOfText? text = .ok ops) :
    ∀ op ∈ ops, ∃ value, op.ReadFrom value := by
  unfold listOfText? at h
  split at h
  · dsimp only at h
    split at h
    · obtain ⟨_, hread, h⟩ := Traversal.bind_eq_ok_iff.1 h
      cases hread
      dsimp only at h
      split_ifs at h
      cases h
      exact List.forall_mem_nil _
    · obtain ⟨_, hread, h⟩ := Traversal.bind_eq_ok_iff.1 h
      split_ifs at h
      cases h
      exact readFrom_of_readList hread
  · cases h

/-- As many targets as the gate acts on, or one target at least for a gate on each; no two of them
equal. -/
def WellFormed : Operation → Prop
  | .gate op => op.qubits.length = op.gate.arity ∧ Qubit.Unequal op.qubits
  | .parallel op => op.gate.arity = 1 ∧ op.qubits ≠ [] ∧ Qubit.Unequal op.qubits
  | .block _ _ => True

theorem wellFormed (op : Operation) : op.WellFormed := by
  cases op with
  | gate op => exact ⟨op.arity, Qubit.unequal_iff_distinct.2 op.distinct⟩
  | parallel op => exact ⟨op.single, op.nonempty, Qubit.unequal_iff_distinct.2 op.distinct⟩
  | block name qs => trivial

end Operation

/-- What the standard strategy makes of an operation are the drafts of its rule, all of them
bound. -/
theorem Rewriting.build_of_step {op : GateOperation} {ops : List GateOperation}
    (h : step op = some ops) :
    ∃ drafts, draft? op.gate op.qubits = some drafts ∧ drafts.mapM Draft.build? = .ok ops := by
  refine ⟨ops.map GateOperation.draft, draft?_eq_some_iff.2 (rule_of_step h), ?_⟩
  rw [Traversal.mapM_eq_ok_iff, List.forall₂_map_left_iff, List.forall₂_same]
  intro o _
  exact o.on?_self

/-- A gate is bound to qubits just when these are as many as it acts on and no two of them are
equal; it is applied to each of them just when it acts on one qubit, there is one, and no two are
equal. Nothing is changed then, and otherwise the first fault is reported, with the first repeat
that a search by hashes finds. Measurements, the operations of a text and those of the standard
strategy are bound in these ways, and every operation is well-formed. -/
theorem Operation.binding_exact :
    (∀ gate qs,
      ((∃ op, GateOperation.on? gate qs = .ok op) ↔ qs.length = gate.arity ∧ Qubit.Unequal qs) ∧
      ∀ r, GateOperation.on? gate qs = r ↔ GateOperation.Bound gate qs r) ∧
    (∀ gate qs,
      ((∃ op, ParallelOperation.onEach? gate qs = .ok op) ↔
        gate.arity = 1 ∧ qs ≠ [] ∧ Qubit.Unequal qs) ∧
      ∀ r, ParallelOperation.onEach? gate qs = r ↔ ParallelOperation.Bound gate qs r) ∧
    (∀ qs, Qubit.hashedRepeat? ∅ qs = Qubit.firstRepeat? qs ∧
      ∀ q, Qubit.firstRepeat? qs = some q ↔ Qubit.FirstRepeat q qs) ∧
    (∀ q, GateOperation.on? (.measure none) [q] = .ok (GateOperation.measure q)) ∧
    (∀ value,
      (∀ op, ofData? value = .ok op ↔ op.ReadFrom value) ∧
      ∀ e, ofData? value = .error (.refused e) ↔ ∃ gate qs,
        (Targets value "gate" gate qs ∧ GateOperation.on? gate qs = .error e) ∨
        (Targets value "parallel" gate qs ∧ ParallelOperation.onEach? gate qs = .error e)) ∧
    (∀ text op, ofText? text = .ok op → ∃ value, op.ReadFrom value) ∧
    (∀ text ops, listOfText? text = .ok ops → ∀ op ∈ ops, ∃ value, op.ReadFrom value) ∧
    (∀ op ops, Rewriting.step op = some ops → ∃ drafts,
      Rewriting.draft? op.gate op.qubits = some drafts ∧
        drafts.mapM Rewriting.Draft.build? = .ok ops) ∧
    ∀ op : Operation, op.WellFormed := by
  refine ⟨?_, ?_, ?_, ?_, ?_, ?_, ?_, ?_, wellFormed⟩
  · intro gate qs
    exact ⟨GateOperation.exists_on?_iff, fun r => GateOperation.on?_eq_iff⟩
  · intro gate qs
    exact ⟨ParallelOperation.exists_onEach?_iff, fun r => ParallelOperation.onEach?_eq_iff⟩
  · intro qs
    exact ⟨Qubit.hashedRepeat?_eq qs, fun q => Qubit.firstRepeat?_eq_some_iff⟩
  · intro q
    exact (GateOperation.measure q).on?_self
  · intro value
    exact ⟨fun op => ofData?_eq_ok_iff, fun e => ofData?_eq_refused_iff⟩
  · intro text op h
    exact readFrom_of_ofText? h
  · intro text ops h
    exact readFrom_of_listOfText? h
  · intro op ops h
    exact Rewriting.build_of_step h

/-- Three sites, the last of which is the first to nine decimals. -/
def nearRepeat : List Qubit := [.site ⟨0, 0, 0⟩, .site ⟨1, 0, 0⟩, .site ⟨1e-12, 0, 0⟩]

/-- The site that repeats an earlier one is named as it was given. -/
theorem Operation.binding_exact_nearRepeat :
    GateOperation.on? (.one .ccx) nearRepeat =
      .error (.repeatedQubit (.site ⟨1e-12, 0, 0⟩) "ccx") ∧
    ParallelOperation.onEach? (.one .x) nearRepeat =
      .error (.repeatedQubit (.site ⟨1e-12, 0, 0⟩) "x") := by
  have hunequal : Qubit.Unequal [.site ⟨0, 0, 0⟩, .site ⟨1, 0, 0⟩] := by
    unfold Qubit.Unequal
    decide +kernel
  have hfirst : Qubit.FirstRepeat (.site ⟨1e-12, 0, 0⟩) nearRepeat :=
    ⟨_, [], rfl, hunequal, .site ⟨0, 0, 0⟩, List.mem_cons_self, by decide +kernel⟩
  obtain ⟨hon, heach, -⟩ := binding_exact
  constructor
  · exact ((hon _ _).2 _).2 (.repeatedQubit rfl hfirst)
  · exact ((heach _ _).2 _).2 (.repeatedQubit rfl hfirst)

end AtomArray
