import AtomArray.Proofs.Device.Reach
import AtomArray.Proofs.Rewriting.Height

/-! What the check of an operation says: the rules of the hardware in their order of precedence. -/

namespace AtomArray
namespace Operation

/-- A power of a controlled gate, whole or not. -/
def IsEntangler : Operation → Prop
  | .gate op => ∃ family ∈ [Family.cz, .cnot, .ccz, .ccx], ∃ e, op.gate = .power family e
  | _ => False

def IsParallelZ : Operation → Prop
  | .parallel op => ∃ e, op.gate = .power .z e
  | _ => False

/-- A rotation about an axis in the plane of X and Y, in parallel. -/
def IsParallelXy : Operation → Prop
  | .parallel op =>
    (∃ e, op.gate = .power .x e) ∨ (∃ e, op.gate = .power .y e) ∨ ∃ p e, op.gate = .phasedX p e
  | _ => False

variable {op : Operation} {kind : NativeKind}

theorem isNative_iff : op.isNative = true ↔ ∃ kind, op.nativeKind? = some kind :=
  Option.isSome_iff_exists

/-- The kinds with a rule for their targets. -/
theorem kind_iff (h : op.nativeKind? = some kind) :
    (op.IsEntangler ↔ kind = .twoQubitEntangler ∨ kind = .threeQubitEntangler) ∧
    (op.IsParallelZ ↔ kind = .parallelZ) ∧ (op.IsParallelXy ↔ kind = .parallelXy) := by
  cases op with
  | gate op =>
      obtain ⟨gate, qs, arity, distinct⟩ := op
      simp only [nativeKind?, Gate.nativeKind?, Gate.singleKind?] at h
      split at h <;> (try split at h) <;> cases h <;>
        simp [IsEntangler, IsParallelZ, IsParallelXy]
  | parallel op =>
      obtain ⟨gate, qs, single, nonempty, distinct⟩ := op
      simp only [nativeKind?, Gate.singleKind?] at h
      split at h <;> cases h <;>
        simp [IsEntangler, IsParallelZ, IsParallelXy, NativeKind.inParallel]
  | block name qs => cases h

theorem IsEntangler.not_parallelZ (h : op.IsEntangler) : ¬ op.IsParallelZ := by
  cases op with
  | gate op => exact not_false
  | parallel op => cases h
  | block name qs => cases h

theorem IsEntangler.not_parallelXy (h : op.IsEntangler) : ¬ op.IsParallelXy := by
  cases op with
  | gate op => exact not_false
  | parallel op => cases h
  | block name qs => cases h

theorem IsParallelZ.not_parallelXy (h : op.IsParallelZ) : ¬ op.IsParallelXy := by
  cases op with
  | gate op => cases h
  | parallel op =>
      obtain ⟨e, he⟩ := h
      simp [IsParallelXy, he]
  | block name qs => cases h

/-- A native operation has a target, and no target twice. -/
theorem targets_of_native (h : op.isNative = true) :
    0 < op.qubits.length ∧ Qubit.Distinct op.qubits := by
  cases op with
  | gate op =>
      refine ⟨?_, op.distinct⟩
      rw [qubits, op.arity]
      exact Gate.arity_pos (Gate.not_custom_of_native h)
  | parallel op => exact ⟨List.length_pos_iff.2 op.nonempty, op.distinct⟩
  | block name qs => cases h

end Operation

namespace Device

variable {d : Device} {op : Operation}

/-- What the check of an operation may say, and when. -/
inductive Ruling (d : Device) (op : Operation) : Except DeviceError Unit → Prop
  | unsupported (h : (∃ name qs, op = .block name qs) ∨ op.isNative = false) :
      d.Ruling op (.error (.unsupportedOperation op))
  | notOnDevice {before after : List Qubit} {q : Qubit} (native : op.isNative = true)
      (targets : op.qubits = before ++ q :: after) (earlier : ∀ p ∈ before, d.OnDevice p)
      (off : ¬ d.OnDevice q) : d.Ruling op (.error (.notOnDevice q))
  | tooFarApart {i j : Nat} {a b : Qubit} {distance : Float} (native : op.isNative = true)
      (targets : ∀ q ∈ op.qubits, d.OnDevice q) (entangler : op.IsEntangler)
      (first : d.FirstFar op.qubits i j a b) (apart : d.distance a b = .ok distance) :
      d.Ruling op (.error (.tooFarApart a b distance d.radius))
  | tooManyZ (native : op.isNative = true) (targets : ∀ q ∈ op.qubits, d.OnDevice q)
      (parallel : op.IsParallelZ) (covered : d.CoveredBy op.qubits) :
      d.Ruling op (.error (.tooManyZ d.size d.size))
  | badXyCount (native : op.isNative = true) (targets : ∀ q ∈ op.qubits, d.OnDevice q)
      (parallel : op.IsParallelXy) (several : op.qubits.length ≠ 1)
      (uncovered : ¬ d.CoveredBy op.qubits) :
      d.Ruling op (.error (.badXyCount op.qubits.length d.size))
  | ok (native : op.isNative = true) (targets : ∀ q ∈ op.qubits, d.OnDevice q)
      (entangler : op.IsEntangler → op.qubits.Pairwise fun a b => ¬ d.FarApart a b)
      (parallelZ : op.IsParallelZ → ¬ d.CoveredBy op.qubits)
      (parallelXy : op.IsParallelXy → op.qubits.length = 1 ∨ d.CoveredBy op.qubits) :
      d.Ruling op (.ok ())

/-! The check in stages, each of which comes before the next. -/

theorem check_of_not_native (h : op.isNative = false) :
    d.check op = .error (.unsupportedOperation op) := by
  have hkind : op.nativeKind? = none := Option.isNone_iff_eq_none.1 (Option.isSome_eq_false_iff.1 h)
  rw [check, hkind]

theorem check_of_off {before after : List Qubit} {q : Qubit} (native : op.isNative = true)
    (targets : op.qubits = before ++ q :: after) (earlier : ∀ p ∈ before, d.OnDevice p)
    (off : ¬ d.OnDevice q) : d.check op = .error (.notOnDevice q) := by
  obtain ⟨kind, hkind⟩ := Operation.isNative_iff.1 native
  have hfind : (op.qubits.find? fun q => !d.contains q) = some q := by
    rw [List.find?_eq_some_iff_append]
    refine ⟨by simpa [contains_eq_false_iff] using off, before, after, targets, ?_⟩
    intro p hp
    simpa [contains_iff] using earlier p hp
  rw [check, hkind]
  simp only [hfind]

theorem check_of_on {kind : NativeKind} (hkind : op.nativeKind? = some kind)
    (targets : ∀ q ∈ op.qubits, d.OnDevice q) : d.check op = d.checkTargets kind op.qubits := by
  have hfind : (op.qubits.find? fun q => !d.contains q) = none := by
    rw [List.find?_eq_none]
    intro q hq
    simpa [contains_iff] using targets q hq
  rw [check, hkind]
  simp only [hfind]

theorem check_of_entangler (native : op.isNative = true) (targets : ∀ q ∈ op.qubits, d.OnDevice q)
    (h : op.IsEntangler) : d.check op = d.checkPairs op.qubits := by
  obtain ⟨kind, hkind⟩ := Operation.isNative_iff.1 native
  rw [check_of_on hkind targets]
  rcases (Operation.kind_iff hkind).1.1 h with rfl | rfl <;> rfl

/-- The count of the targets is compared with the number of sites, which it reaches only when they
are all the sites. -/
theorem check_of_parallelZ (native : op.isNative = true) (targets : ∀ q ∈ op.qubits, d.OnDevice q)
    (h : op.IsParallelZ) :
    (d.CoveredBy op.qubits ∧ d.check op = .error (.tooManyZ d.size d.size)) ∨
    (¬ d.CoveredBy op.qubits ∧ d.check op = .ok ()) := by
  obtain ⟨kind, hkind⟩ := Operation.isNative_iff.1 native
  obtain ⟨hpos, distinct⟩ := op.targets_of_native native
  have hle := length_le_size distinct targets
  rw [check_of_on hkind targets, (Operation.kind_iff hkind).2.1.1 h,
    ← length_eq_size_iff distinct targets, checkTargets]
  by_cases hcount : op.qubits.length = d.size
  · refine .inl ⟨hcount, ?_⟩
    rw [if_pos (by omega), hcount]
  · refine .inr ⟨hcount, ?_⟩
    rw [if_neg (by omega)]

theorem check_of_parallelXy (native : op.isNative = true) (targets : ∀ q ∈ op.qubits, d.OnDevice q)
    (h : op.IsParallelXy) :
    (op.qubits.length ≠ 1 ∧ ¬ d.CoveredBy op.qubits ∧
      d.check op = .error (.badXyCount op.qubits.length d.size)) ∨
    ((op.qubits.length = 1 ∨ d.CoveredBy op.qubits) ∧ d.check op = .ok ()) := by
  obtain ⟨kind, hkind⟩ := Operation.isNative_iff.1 native
  obtain ⟨-, distinct⟩ := op.targets_of_native native
  rw [check_of_on hkind targets, (Operation.kind_iff hkind).2.2.1 h,
    ← length_eq_size_iff distinct targets, checkTargets]
  by_cases hcount : op.qubits.length = 1 ∨ op.qubits.length = d.size
  · refine .inr ⟨hcount, ?_⟩
    rw [if_neg (by omega)]
  · obtain ⟨hone, hall⟩ := not_or.1 hcount
    refine .inl ⟨hone, hall, ?_⟩
    rw [if_pos ⟨hone, hall⟩]

theorem check_of_other (native : op.isNative = true) (targets : ∀ q ∈ op.qubits, d.OnDevice q)
    (hpairs : ¬ op.IsEntangler) (hz : ¬ op.IsParallelZ) (hxy : ¬ op.IsParallelXy) :
    d.check op = .ok () := by
  obtain ⟨kind, hkind⟩ := Operation.isNative_iff.1 native
  obtain ⟨hpairs', hz', hxy'⟩ := Operation.kind_iff hkind
  rw [check_of_on hkind targets]
  rw [hpairs'] at hpairs
  rw [hz'] at hz
  rw [hxy'] at hxy
  unfold checkTargets
  split <;> simp_all

theorem ruling_of_targets (native : op.isNative = true)
    (targets : ∀ q ∈ op.qubits, d.OnDevice q) : d.Ruling op (d.check op) := by
  by_cases hpairs : op.IsEntangler
  · rw [check_of_entangler native targets hpairs]
    rcases checkPairs_cases targets with ⟨h, hnear⟩ | ⟨i, j, a, b, far, hfirst, hfar, h⟩
    · rw [h]
      exact .ok native targets (fun _ => hnear) (absurd · hpairs.not_parallelZ)
        (absurd · hpairs.not_parallelXy)
    · rw [h]
      exact .tooFarApart native targets hpairs hfirst hfar
  by_cases hz : op.IsParallelZ
  · rcases check_of_parallelZ native targets hz with ⟨hcovered, h⟩ | ⟨huncovered, h⟩
    · rw [h]
      exact .tooManyZ native targets hz hcovered
    · rw [h]
      exact .ok native targets (absurd · hpairs) (fun _ => huncovered)
        (absurd · hz.not_parallelXy)
  by_cases hxy : op.IsParallelXy
  · rcases check_of_parallelXy native targets hxy with ⟨hone, huncovered, h⟩ | ⟨hcount, h⟩
    · rw [h]
      exact .badXyCount native targets hxy hone huncovered
    · rw [h]
      exact .ok native targets (absurd · hpairs) (absurd · hz) (fun _ => hcount)
  rw [check_of_other native targets hpairs hz hxy]
  exact .ok native targets (absurd · hpairs) (absurd · hz) (absurd · hxy)

/-- The check says something that the rules give. -/
theorem ruling_check (d : Device) (op : Operation) : d.Ruling op (d.check op) := by
  cases native : op.isNative with
  | false =>
      rw [check_of_not_native native]
      exact .unsupported (.inr native)
  | true =>
      cases hfind : op.qubits.find? fun q => !d.contains q with
      | none =>
          refine ruling_of_targets native fun q hq => ?_
          simpa [contains_iff] using List.find?_eq_none.1 hfind q hq
      | some q =>
          obtain ⟨hoff, before, after, hsplit, hbefore⟩ := List.find?_eq_some_iff_append.1 hfind
          have off : ¬ d.OnDevice q := by simpa [contains_eq_false_iff] using hoff
          have earlier : ∀ p ∈ before, d.OnDevice p := by simpa [contains_iff] using hbefore
          rw [check_of_off native hsplit earlier off]
          exact .notOnDevice native hsplit earlier off

theorem check_of_ok (native : op.isNative = true) (targets : ∀ q ∈ op.qubits, d.OnDevice q)
    (entangler : op.IsEntangler → op.qubits.Pairwise fun a b => ¬ d.FarApart a b)
    (parallelZ : op.IsParallelZ → ¬ d.CoveredBy op.qubits)
    (parallelXy : op.IsParallelXy → op.qubits.length = 1 ∨ d.CoveredBy op.qubits) :
    d.check op = .ok () := by
  by_cases hpairs : op.IsEntangler
  · rw [check_of_entangler native targets hpairs, checkPairs_eq_ok_iff targets]
    exact entangler hpairs
  by_cases hz : op.IsParallelZ
  · rcases check_of_parallelZ native targets hz with ⟨hcovered, -⟩ | ⟨-, h⟩
    · exact absurd hcovered (parallelZ hz)
    · exact h
  by_cases hxy : op.IsParallelXy
  · rcases check_of_parallelXy native targets hxy with ⟨hone, huncovered, -⟩ | ⟨-, h⟩
    · exact absurd (parallelXy hxy) (not_or.2 ⟨hone, huncovered⟩)
    · exact h
  exact check_of_other native targets hpairs hz hxy

/-- The rules give no more than one answer, which is what the check says. -/
theorem Ruling.check_eq {r : Except DeviceError Unit} (h : d.Ruling op r) : d.check op = r := by
  cases h with
  | unsupported h =>
      rcases h with ⟨name, qs, rfl⟩ | h
      · rfl
      · exact check_of_not_native h
  | notOnDevice native hsplit earlier off => exact check_of_off native hsplit earlier off
  | tooFarApart native targets hpairs first apart =>
      rw [check_of_entangler native targets hpairs, checkPairs_eq_error_iff targets]
      exact ⟨_, _, _, _, _, first, apart, rfl⟩
  | tooManyZ native targets hz covered =>
      rcases check_of_parallelZ native targets hz with ⟨-, h⟩ | ⟨huncovered, -⟩
      · exact h
      · exact absurd covered huncovered
  | badXyCount native targets hxy several uncovered =>
      rcases check_of_parallelXy native targets hxy with ⟨-, -, h⟩ | ⟨hone | hcovered, -⟩
      · exact h
      · exact absurd hone several
      · exact absurd hcovered uncovered
  | ok native targets entangler parallelZ parallelXy =>
      exact check_of_ok native targets entangler parallelZ parallelXy

/-- The check of an operation gives the one answer that the rules give. Targets on the device are
never more than its sites, no qubit is reported to have no distance, and a device without sites
accepts nothing. -/
theorem check_rules (d : Device) (op : Operation) :
    (∀ r, d.check op = r ↔ d.Ruling op r) ∧
    (op.isNative = true → (∀ q ∈ op.qubits, d.OnDevice q) → op.qubits.length ≤ d.size) ∧
    (∀ q, d.check op ≠ .error (.unsupportedQubit q)) ∧
    (d.sites = [] → d.check op ≠ .ok ()) := by
  have hruling := d.ruling_check op
  refine ⟨fun r => ⟨fun h => h ▸ hruling, Ruling.check_eq⟩, ?_, ?_, ?_⟩
  · intro native targets
    exact length_le_size (op.targets_of_native native).2 targets
  · intro q h
    rw [h] at hruling
    cases hruling
  · intro hsites h
    rw [h] at hruling
    cases hruling with
    | ok native targets =>
        obtain ⟨q, hq⟩ := List.exists_mem_of_length_pos (op.targets_of_native native).1
        obtain ⟨p, hp, -⟩ := targets q hq
        rw [qubits, hsites] at hp
        cases hp

end Device
end AtomArray
