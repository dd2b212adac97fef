import AtomArray.Proofs.Device.Ruling
import AtomArray.Proofs.Rewriting.Standard

/-! Preparing a circuit operation by operation, and preparing again what comes of it. -/

namespace AtomArray.Device

variable {d : Device} {op : Operation} {ops native : List Operation} {e : DeviceError}

/-- What an operation comes to before it is checked: a gate may be lowered, and another operation
stays as it is. -/
def unfolded (d : Device) (lowering : Bool) (op : Operation) :
    Except DeviceError (List Operation) :=
  if lowering && op.isGate then d.lower op else .ok [op]

theorem prepareOne_eq (d : Device) (op : Operation) :
    d.prepareOne op =
      (d.unfolded true op).bind fun native => (d.checkAll native).map fun _ => native := by
  have hchecked : ∀ native, (d.checkAll native >>= fun _ => pure native) =
      (d.checkAll native).map fun _ => native := by
    intro native
    cases d.checkAll native <;> rfl
  cases op with
  | gate op => exact congrArg (d.lower (.gate op)).bind (funext hchecked)
  | parallel op => exact hchecked [.parallel op]
  | block name qs => exact hchecked [.block name qs]

theorem prepareOne_eq_ok_iff : d.prepareOne op = .ok native ↔
    d.unfolded true op = .ok native ∧ d.checkAll native = .ok () := by
  rw [prepareOne_eq]
  cases h : d.unfolded true op with
  | error e => simp [Except.bind]
  | ok ls =>
      change (d.checkAll ls).map (fun _ => ls) = .ok native ↔ _
      rw [Traversal.map_eq_ok_iff]
      constructor
      · rintro ⟨_, hall, rfl⟩
        exact ⟨rfl, hall⟩
      · rintro ⟨hls, hall⟩
        cases hls
        exact ⟨(), hall, rfl⟩

theorem prepare_eq (d : Device) (ops : List Operation) :
    d.prepare ops = (ops.mapM d.prepareOne).map List.flatten := by
  unfold prepare
  cases ops.mapM d.prepareOne <;> rfl

theorem isNative_of_check (h : d.check op = .ok ()) : op.isNative = true := by
  cases native : op.isNative with
  | true => rfl
  | false =>
      rw [check_of_not_native native] at h
      cases h

theorem unfolded_of_native (h : op.isNative = true) (lowering : Bool) :
    d.unfolded lowering op = .ok [op] := by
  cases lowering with
  | false => rfl
  | true =>
      cases op with
      | gate op =>
          exact congrArg (Except.map (List.map Operation.gate)) (Lowering.expand_of_native h)
      | parallel op => rfl
      | block name qs => rfl

/-- An operation that passes the check is prepared as itself. -/
theorem prepareOne_of_check (h : d.check op = .ok ()) : d.prepareOne op = .ok [op] := by
  refine prepareOne_eq_ok_iff.2 ⟨unfolded_of_native (isNative_of_check h) true, ?_⟩
  refine Traversal.forM_eq_ok_iff.2 fun p hp => ?_
  rwa [List.mem_singleton.1 hp]

theorem prepare_eq_ok_iff : d.prepare ops = .ok native ↔
    ∃ parts, List.Forall₂ (fun op part => d.prepareOne op = .ok part) ops parts ∧
      parts.flatten = native := by
  rw [prepare_eq, Traversal.map_eq_ok_iff]
  simp only [Traversal.mapM_eq_ok_iff]

/-- A circuit of which every operation passes the check is prepared as itself. -/
theorem prepare_of_checkAll (h : d.checkAll ops = .ok ()) : d.prepare ops = .ok ops := by
  refine prepare_eq_ok_iff.2 ⟨ops.map fun op => [op], ?_, List.flatMap_singleton' ops⟩
  rw [List.forall₂_map_right_iff, List.forall₂_same]
  exact fun op hop => prepareOne_of_check (Traversal.forM_eq_ok_iff.1 h op hop)

theorem checkAll_of_prepare (h : d.prepare ops = .ok native) : d.checkAll native = .ok () := by
  obtain ⟨parts, hparts, rfl⟩ := prepare_eq_ok_iff.1 h
  refine Traversal.forM_eq_ok_iff.2 fun op hop => ?_
  obtain ⟨part, hpart, hop⟩ := List.mem_flatten.1 hop
  obtain ⟨source, -, hsource⟩ := Traversal.exists_of_forall₂ hparts.flip hpart
  exact Traversal.forM_eq_ok_iff.1 (prepareOne_eq_ok_iff.1 hsource).2 op hop

/-- A circuit in two parts fails in the first part, or in the second once the first is prepared. -/
theorem prepare_append_eq_error_iff {xs ys : List Operation} :
    d.prepare (xs ++ ys) = .error e ↔ d.prepare xs = .error e ∨
      (∃ native, d.prepare xs = .ok native) ∧ d.prepare ys = .error e := by
  simp only [prepare_eq, Traversal.map_eq_error_iff, Traversal.map_eq_ok_iff,
    Traversal.mapM_append_eq_error_iff]
  refine or_congr Iff.rfl (and_congr_left' ?_)
  constructor
  · rintro ⟨parts, hparts⟩
    exact ⟨_, parts, hparts, rfl⟩
  · rintro ⟨_, parts, hparts, -⟩
    exact ⟨parts, hparts⟩

theorem prepare_append_eq_ok_iff {xs ys : List Operation} :
    d.prepare (xs ++ ys) = .ok native ↔
      ∃ n m, d.prepare xs = .ok n ∧ d.prepare ys = .ok m ∧ native = n ++ m := by
  simp only [prepare_eq, Traversal.map_eq_ok_iff, Traversal.mapM_append_eq_ok_iff]
  constructor
  · rintro ⟨_, ⟨us, vs, hus, hvs, rfl⟩, rfl⟩
    exact ⟨_, _, ⟨us, hus, rfl⟩, ⟨vs, hvs, rfl⟩, List.flatten_append⟩
  · rintro ⟨_, _, ⟨us, hus, rfl⟩, ⟨vs, hvs, rfl⟩, rfl⟩
    exact ⟨us ++ vs, ⟨us, vs, hus, hvs, rfl⟩, List.flatten_append⟩

/-- What a circuit is prepared as is native, passes the check and is prepared as itself, with any
strategy. A circuit in two parts is prepared as what the parts are, one after the other, and fails
with the error of the first part that fails. -/
theorem prepare_fixed_opwise (d : Device) :
    (∀ ops native, d.prepare ops = .ok native →
      (∀ op ∈ native, op.isNative = true) ∧ d.checkAll native = .ok () ∧
        d.prepare native = .ok native) ∧
    ∀ xs ys : List Operation,
      (∀ native, d.prepare (xs ++ ys) = .ok native ↔
        ∃ n m, d.prepare xs = .ok n ∧ d.prepare ys = .ok m ∧ native = n ++ m) ∧
      ∀ e, d.prepare (xs ++ ys) = .error e ↔
        d.prepare xs = .error e ∨ (∃ n, d.prepare xs = .ok n) ∧ d.prepare ys = .error e := by
  constructor
  · intro ops native h
    have hall := checkAll_of_prepare h
    refine ⟨fun op hop => ?_, hall, prepare_of_checkAll hall⟩
    exact isNative_of_check (Traversal.forM_eq_ok_iff.1 hall op hop)
  · intro xs ys
    exact ⟨fun native => prepare_append_eq_ok_iff, fun e => prepare_append_eq_error_iff⟩

/-- An exchange on the line is prepared as three gates, which are prepared as themselves. -/
theorem prepare_fixed_swap : ∃ native, line.prepare [.gate (onPair (.one .swap))] = .ok native ∧
    native.length = 3 ∧ line.checkAll native = .ok () ∧ line.prepare native = .ok native := by
  have hlength : ((line.prepare [.gate (onPair (.one .swap))]).map List.length).toOption =
      some 3 := by decide +kernel
  cases hprepare : line.prepare [.gate (onPair (.one .swap))] with
  | error e =>
      rw [hprepare] at hlength
      cases hlength
  | ok native =>
      rw [hprepare] at hlength
      obtain ⟨-, hall, hfixed⟩ := (prepare_fixed_opwise line).1 _ native hprepare
      exact ⟨native, rfl, Option.some_inj.1 hlength, hall, hfixed⟩

end AtomArray.Device
