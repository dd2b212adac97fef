import AtomArray.CommandLine.Outcome
import AtomArray.Proofs.Device.Preparation

/-! The verdicts on single operations, which the command line collects, against the answer to the
whole list, which ends with the first error. -/

namespace AtomArray

/-- What a verdict says, as the answer to its operation alone. -/
def Verdict.result (v : Verdict) : Except DeviceError (List Operation) :=
  match v.error with
  | none => .ok v.native
  | some e => .error e

theorem Verdict.result_eq_ok_iff {v : Verdict} {native : List Operation} :
    v.result = .ok native ↔ v.error = none ∧ v.native = native := by
  unfold result
  cases v.error <;> simp

theorem Verdict.result_eq_error_iff {v : Verdict} {e : DeviceError} :
    v.result = .error e ↔ v.error = some e := by
  unfold result
  cases v.error <;> simp

namespace Device

variable {d : Device} {op : Operation} {ops native : List Operation} {lowering : Bool}
  {e : DeviceError}

theorem checkAll_eq (d : Device) (ops : List Operation) : d.checkAll ops =
    match d.firstError? ops with
    | none => .ok ()
    | some e => .error e := by
  induction ops with
  | nil => rfl
  | cons op ops ih =>
      unfold checkAll firstError? at ih ⊢
      cases h : d.check op with
      | error e => rw [Traversal.forM_cons_error h, List.findSome?_cons, h]
      | ok u => rw [Traversal.forM_cons_ok h, List.findSome?_cons, h, ih]

/-- A verdict is reached by the steps that prepare an operation. -/
theorem result_verdict (d : Device) (lowering : Bool) (op : Operation) :
    (d.verdict lowering op).result =
      (d.unfolded lowering op).bind fun native => (d.checkAll native).map fun _ => native := by
  unfold verdict unfolded
  cases if lowering && op.isGate then d.lower op else .ok [op] with
  | error e => rfl
  | ok native =>
      change Verdict.result ⟨native, d.firstError? native⟩ = (d.checkAll native).map fun _ => native
      rw [checkAll_eq, Verdict.result]
      cases d.firstError? native <;> rfl

theorem checkAll_singleton (d : Device) (op : Operation) : d.checkAll [op] = d.check op := by
  cases h : d.check op with
  | error e => exact Traversal.forM_cons_error h
  | ok u => exact Traversal.forM_cons_ok h

/-- The answer to a list of operations: they are prepared, or else checked as they stand. -/
def batch (d : Device) (lowering : Bool) (ops : List Operation) :
    Except DeviceError (List Operation) :=
  if lowering then d.prepare ops else (d.checkAll ops).map fun _ => ops

/-- A list is answered as its operations are, one by one. -/
theorem batch_eq (d : Device) (lowering : Bool) (ops : List Operation) :
    d.batch lowering ops =
      (ops.mapM fun op => (d.verdict lowering op).result).map List.flatten := by
  cases lowering with
  | true =>
      have hone : d.prepareOne = fun op => (d.verdict true op).result :=
        funext fun op => (prepareOne_eq d op).trans (result_verdict d true op).symm
      rw [← hone]
      exact prepare_eq d ops
  | false =>
      have hone : (fun op => (d.verdict false op).result) =
          fun op => (d.check op).map fun _ => [op] := by
        funext op
        rw [← checkAll_singleton]
        exact result_verdict d false op
      rw [hone, ← Traversal.forM_map_eq_mapM, ← checkAll]
      change (d.checkAll ops).map (fun _ => ops) = _
      cases d.checkAll ops with
      | error e => rfl
      | ok u => exact congrArg Except.ok (List.flatMap_singleton' ops).symm

theorem batch_eq_ok_iff : d.batch lowering ops = .ok native ↔
    (∀ op ∈ ops, (d.verdict lowering op).error = none) ∧
      native = ops.flatMap fun op => (d.verdict lowering op).native := by
  have hnative : ∀ parts : List (List Operation),
      List.Forall₂ (fun op part => (d.verdict lowering op).native = part) ops parts ↔
        parts = ops.map fun op => (d.verdict lowering op).native := by
    intro parts
    rw [← List.forall₂_map_left_iff (R := Eq), List.forall₂_eq_eq_eq, eq_comm]
  rw [batch_eq, Traversal.map_eq_ok_iff]
  simp only [Traversal.mapM_eq_ok_iff, Verdict.result_eq_ok_iff, List.forall₂_and_left, hnative]
  constructor
  · rintro ⟨_, ⟨hnone, rfl⟩, rfl⟩
    exact ⟨hnone, rfl⟩
  · rintro ⟨hnone, rfl⟩
    exact ⟨_, ⟨hnone, rfl⟩, rfl⟩

theorem batch_eq_error_iff : d.batch lowering ops = .error e ↔
    ∃ before op after, ops = before ++ op :: after ∧ (d.verdict lowering op).error = some e ∧
      ∀ b ∈ before, (d.verdict lowering b).error = none := by
  rw [batch_eq, Traversal.map_eq_error_iff, Traversal.mapM_eq_error_iff]
  simp only [Verdict.result_eq_ok_iff, Verdict.result_eq_error_iff, exists_and_left,
    exists_eq', and_true]

theorem isOk_batch_singleton (d : Device) (lowering : Bool) (op : Operation) :
    (d.batch lowering [op]).isOk = !(d.verdict lowering op).error.isSome := by
  cases h : (d.verdict lowering op).error with
  | none =>
      have hok : d.batch lowering [op] = .ok _ := batch_eq_ok_iff.2 ⟨by simpa using h, rfl⟩
      rw [hok]
      rfl
  | some e =>
      have herror : d.batch lowering [op] = .error e :=
        batch_eq_error_iff.2 ⟨[], op, [], rfl, h, by simp⟩
      rw [herror]
      rfl

end Device

namespace CommandLine

variable {d : Device} {ops : List Operation} {lowering : Bool}

theorem countFailures_eq (d : Device) (lowering : Bool) (ops : List Operation) :
    countFailures d lowering ops = ops.countP fun op => !(d.batch lowering [op]).isOk := by
  simp only [countFailures, Device.isOk_batch_singleton, Bool.not_not]

theorem countFailures_eq_zero_iff :
    countFailures d lowering ops = 0 ↔ ∃ native, d.batch lowering ops = .ok native := by
  simp only [countFailures, List.countP_eq_zero, Device.batch_eq_ok_iff]
  simp

theorem Failure.refused_line (failed total : Nat) :
    "Error: " ++ (Failure.refused failed total).message ++ "\n" =
      "Error: " ++ toString failed ++ " of " ++ toString total ++
        " operations failed validation\n" := by
  have happend : ∀ start a between b text stop line : String, text ++ stop = line →
      start ++ (a ++ between ++ b ++ text) ++ stop = start ++ a ++ between ++ b ++ line := by
    rintro start a between b text stop _ rfl
    simp only [String.append_assoc]
  exact happend _ _ _ _ _ _ _ (by decide +kernel)

/-- The printed end of a validation: it is a success when no operation has an error, and otherwise
the count of those that have one is reported. -/
theorem run_validate {folder : Folder} {radius : Option String} {args : List String}
    {device operations : String}
    (hrequest : Request.ofArgs? args = some (.validate device operations lowering))
    (hdevice : loadDevice? folder radius device = .ok d)
    (hoperations : loadOperations? folder operations = .ok ops) :
    ((run folder args radius).exit = 0 ∧ countFailures d lowering ops = 0) ∨
      (run folder args radius).exit = 1 ∧ countFailures d lowering ops ≠ 0 ∧
        (run folder args radius).stderr = "Error: " ++
          (Failure.refused (countFailures d lowering ops) ops.length).message ++ "\n" := by
  have hrun : run folder args radius = validate folder radius device operations lowering := by
    rw [run, hrequest]
    rfl
  have hloaded : (do
      return (← loadDevice? folder radius device, ← loadOperations? folder operations) :
      Except Failure (Device × List Operation)) = .ok (d, ops) := by
    rw [hdevice, hoperations]
    rfl
  rw [hrun, validate, hloaded, Outcome.ofResult]
  cases hcount : countFailures d lowering ops with
  | zero =>
      simp only [hcount]
      exact .inl ⟨rfl, trivial⟩
  | succ failed =>
      simp only [hcount]
      exact .inr ⟨rfl, Nat.succ_ne_zero failed, rfl⟩

/-- The verdicts agree with the answer to the whole list, with lowering and without. The list is
answered by what its verdicts are of, or by the first of their errors. Once its files are read, a
validation ends well just when the list is answered, and counts the operations that are refused
alone otherwise. -/
theorem validate_agrees_with_batch (d : Device) (lowering : Bool) (ops : List Operation) :
    (∀ native, d.batch lowering ops = .ok native ↔
      (∀ op ∈ ops, (d.verdict lowering op).error = none) ∧
        native = ops.flatMap fun op => (d.verdict lowering op).native) ∧
    (∀ e, d.batch lowering ops = .error e ↔
      ∃ before op after, ops = before ++ op :: after ∧ (d.verdict lowering op).error = some e ∧
        ∀ b ∈ before, (d.verdict lowering b).error = none) ∧
    ∀ folder radius args device operations,
      Request.ofArgs? args = some (.validate device operations lowering) →
      loadDevice? folder radius device = .ok d → loadOperations? folder operations = .ok ops →
      ((run folder args radius).exit = 0 ↔ ∃ native, d.batch lowering ops = .ok native) ∧
      ((∃ e, d.batch lowering ops = .error e) → (run folder args radius).exit = 1 ∧
        (run folder args radius).stderr =
          "Error: " ++ toString (ops.countP fun op => !(d.batch lowering [op]).isOk) ++ " of " ++
            toString ops.length ++ " operations failed validation\n") := by
  refine ⟨fun native => Device.batch_eq_ok_iff, fun e => Device.batch_eq_error_iff, ?_⟩
  intro folder radius args device operations hrequest hdevice hoperations
  rw [← countFailures_eq_zero_iff, ← countFailures_eq]
  rcases run_validate hrequest hdevice hoperations with ⟨hexit, hzero⟩ | ⟨hexit, hcount, hstderr⟩
  · refine ⟨iff_of_true hexit hzero, ?_⟩
    rintro ⟨e, he⟩
    obtain ⟨native, hok⟩ := countFailures_eq_zero_iff.1 hzero
    cases he.symm.trans hok
  · have hfailed : (run folder args radius).exit ≠ 0 := by
      rw [hexit]
      decide
    refine ⟨iff_of_false hfailed hcount, fun _ => ⟨hexit, ?_⟩⟩
    rw [hstderr, Failure.refused_line]

/-- A device of one site, and a Hadamard gate on it next to a block. -/
def hadamardAndBlock : Folder :=
  ⟨[("device.json", "[1.5, [\"square\", 1]]"),
    ("operations.json",
      "[[\"gate\", [\"h_pow\", 1], [[0, 0, 0]]], [\"opaque\", \"block\", []]]")]⟩

def validateLowering : List String :=
  ["validate", "--device", "device.json", "--ops", "operations.json", "--decompose"]

theorem validate_hadamardAndBlock :
    (∃ d ops, loadDevice? hadamardAndBlock none "device.json" = .ok d ∧
      loadOperations? hadamardAndBlock "operations.json" = .ok ops ∧
      ∃ e, d.batch true ops = .error e) ∧
    (run hadamardAndBlock validateLowering none).exit = 1 ∧
    (run hadamardAndBlock validateLowering none).stderr =
      "Error: 1 of 2 operations failed validation\n" := by
  have hrequest : Request.ofArgs? validateLowering =
      some (.validate "device.json" "operations.json" true) := by cbv
  have hcount : (match loadDevice? hadamardAndBlock none "device.json",
      loadOperations? hadamardAndBlock "operations.json" with
      | .ok d, .ok ops => !(d.batch true ops).isOk && ops.length == 2 &&
          (ops.countP fun op => !(d.batch true [op]).isOk) == 1
      | _, _ => false) = true := by decide +kernel
  split at hcount
  next d ops hdevice hoperations =>
    rw [Bool.and_eq_true, Bool.and_eq_true, beq_iff_eq, beq_iff_eq] at hcount
    obtain ⟨⟨hfailed, htotal⟩, hone⟩ := hcount
    have herror : ∃ e, d.batch true ops = .error e := by
      cases h : d.batch true ops with
      | error e => exact ⟨e, rfl⟩
      | ok native =>
          rw [h] at hfailed
          cases hfailed
    obtain ⟨hexit, hstderr⟩ := ((validate_agrees_with_batch d true ops).2.2 hadamardAndBlock none
      validateLowering _ _ hrequest hdevice hoperations).2 herror
    rw [hone, htotal] at hstderr
    exact ⟨⟨d, ops, hdevice, hoperations, herror⟩, hexit, hstderr⟩
  next => cases hcount

end CommandLine
end AtomArray
