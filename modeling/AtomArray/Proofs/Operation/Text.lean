import AtomArray.Operation.Data
import AtomArray.Proofs.Qubit.Data

/-! Operations as texts: which of them are read back, and that these come back as they were. -/

namespace AtomArray

open Json (Legible Keeps KeepsAll Writes written)

/-! Gates. -/

theorem Family.ofKind?_kind (family : Family) : ofKind? family.kind = some family := by
  cases family <;> rfl

namespace Gate

/-- The numbers that a gate is written with. -/
def reals : Gate → List Float
  | .power _ e => [e]
  | .phasedX phase e => [phase, e]
  | .identity | .measure _ | .cswap | .custom _ _ => []

variable {g : Gate}

theorem legible_toData (h : KeepsAll g.reals) : Legible g.toData := by
  cases g with
  | identity => exact .member (.text _) .noMembers
  | measure key =>
      cases key with
      | none => exact .member (.text _) .noMembers
      | some key => exact .member (.text _) (.member (.text key) .noMembers)
  | power family e =>
      have he : Legible (.real e) := .real (h e List.mem_cons_self)
      exact .member (.text _) (.member he .noMembers)
  | phasedX phase e =>
      have hphase : Legible (.real phase) := .real (h phase List.mem_cons_self)
      have he : Legible (.real e) := .real (h e (List.mem_cons_of_mem _ List.mem_cons_self))
      exact .member (.text _) (.member hphase (.member he .noMembers))
  | cswap => exact .member (.text _) .noMembers
  | custom name arity =>
      exact .member (.text _) (.member (.text name) (.member (.integer (.uint32 arity)) .noMembers))

theorem fits_toData (n : Nat) (g : Gate) : (written g.toData).fits (n + 1) = true := by
  have hreal := Data.fits_written_real n
  simp only [written] at hreal
  cases g with
  | measure key =>
      cases key <;> simp [toData, written, Json.writtenMembers, Data.fits, Data.fitsMembers]
  | _ => simp [toData, written, Json.writtenMembers, Data.fits, Data.fitsMembers, hreal]

theorem ofKind?_power (family : Family) (e : Float) :
    ofKind? family.kind (.record [("exponent", written (.real e))]) =
      if AllFinite [e] then some (.power family e) else none := by
  have hfields : (Data.record [("exponent", written (.real e))]).fields? ["exponent"] =
      some [some (written (.real e))] := rfl
  have hfinite : AllFinite [e] ↔ e.isFinite = true := List.forall_mem_singleton
  unfold ofKind?
  rw [Family.ofKind?_kind]
  simp only [hfields, Data.float?_written, hfinite]
  cases e.isFinite <;> rfl

theorem ofKind?_phasedX (phase e : Float) :
    ofKind? "phased_x_pow" (.record [("phase_exponent", written (.real phase)),
      ("exponent", written (.real e))]) =
      if AllFinite [phase, e] then some (.phasedX phase e) else none := by
  have hfields : (Data.record [("phase_exponent", written (.real phase)),
      ("exponent", written (.real e))]).fields? ["phase_exponent", "exponent"] =
      some [some (written (.real phase)), some (written (.real e))] := rfl
  have hkind : Family.ofKind? "phased_x_pow" = none := rfl
  have hfinite : AllFinite [phase, e] ↔ phase.isFinite = true ∧ e.isFinite = true := by
    simp [AllFinite]
  unfold ofKind?
  rw [hkind]
  simp only [hfields, Data.float?_written, hfinite]
  cases phase.isFinite <;> cases e.isFinite <;> rfl

theorem ofKind?_custom (name : String) (arity : UInt32) :
    ofKind? "custom" (.record [("name", .text name), ("num_qubits", .integer arity.toNat)]) =
      some (.custom name arity) := by
  have hfields : (Data.record [("name", .text name),
      ("num_qubits", .integer arity.toNat)]).fields? ["name", "num_qubits"] =
      some [some (.text name), some (.integer arity.toNat)] := rfl
  have hkind : Family.ofKind? "custom" = none := rfl
  unfold ofKind?
  rw [hkind]
  simp only [hfields, Data.uint32?_toNat]
  rfl

/-- A gate is read back just when its exponents are finite. -/
theorem ofPart?_written (g : Gate) :
    ofPart? (written g.toData) = if AllFinite g.reals then some g else none := by
  cases g with
  | identity => rfl
  | measure key => cases key <;> rfl
  | power family e => exact ofKind?_power family e
  | phasedX phase e => exact ofKind?_phasedX phase e
  | cswap => rfl
  | custom name arity =>
      have htag : (written (Gate.custom name arity).toData).tagged? kinds "kind" =
          some ("custom", .record [("name", .text name), ("num_qubits", .integer arity.toNat)]) :=
        rfl
      rw [reals, if_pos allFinite_nil, ofPart?, ofNumbered?, htag, Option.bind_eq_bind,
        Option.bind_some]
      dsimp only
      rw [ofKind?_custom]

end Gate

/-! Operations. -/

namespace Operation

/-- The numbers that an operation is written with: the exponents of its gate and the coordinates of
its qubits. -/
def reals (op : Operation) : List Float :=
  op.gate?.elim [] Gate.reals ++ op.qubits.flatMap Qubit.reals

variable {op : Operation} {g : Gate} {qs : List Qubit} {text : String}

theorem forall_mem_reals {p : Float → Prop} : (∀ x ∈ op.reals, p x) ↔
    (∀ g ∈ op.gate?, ∀ x ∈ g.reals, p x) ∧ ∀ q ∈ op.qubits, ∀ x ∈ q.reals, p x := by
  rw [reals, List.forall_mem_append, List.forall_mem_flatMap]
  cases op.gate? with
  | none => simp
  | some g => simp

theorem legible_qubits (h : ∀ q ∈ qs, KeepsAll q.reals) :
    Legible (.list (qs.map Qubit.toData)) :=
  Legible.map fun q hq => Qubit.legible_toData (h q hq)

theorem legible_toData (h : KeepsAll op.reals) : Legible op.toData := by
  obtain ⟨hgate, hqubits⟩ := forall_mem_reals.1 h
  cases op with
  | gate op =>
      have hg := Gate.legible_toData (hgate op.gate rfl)
      exact .member (.text _) (.member hg (.member (legible_qubits hqubits) .noMembers))
  | parallel op =>
      have hg := Gate.legible_toData (hgate op.gate rfl)
      exact .member (.text _) (.member hg (.member (legible_qubits hqubits) .noMembers))
  | block name qs =>
      exact .member (.text _) (.member (.text name) (.member (legible_qubits hqubits) .noMembers))

theorem fits_qubits (n : Nat) (qs : List Qubit) :
    (written (.list (qs.map Qubit.toData))).fits (n + 2) = true := by
  rw [written, Data.fits, Data.writtenItems_map, Data.fitsItems_iff]
  exact List.forall_mem_map.2 fun q _ => Qubit.fits_toData n q

theorem fits_toData (n : Nat) (op : Operation) : (written op.toData).fits (n + 3) = true := by
  have hqubits := fits_qubits n op.qubits
  have htargets : ∀ label g, Data.fits (n + 3) (.record [("type", .text label),
      ("gate", written (Gate.toData g)), ("qubits", written (.list (op.qubits.map Qubit.toData)))])
      = true := by
    intro label g
    simp only [Data.fits, Data.fitsMembers, Gate.fits_toData (n + 1) g, hqubits, Bool.and_self]
  cases op with
  | gate op => exact htargets "gate" op.gate
  | parallel op => exact htargets "parallel" op.gate
  | block name qs =>
      change Data.fits (n + 3) (.record [("type", .text "opaque"), ("name", .text name),
        ("qubits", written (.list (qs.map Qubit.toData)))]) = true
      simp only [Data.fits, Data.fitsMembers, qubits] at hqubits ⊢
      rw [hqubits]
      rfl

theorem qubitsOf?_written (qs : List Qubit) :
    qubitsOf? (written (.list (qs.map Qubit.toData))) =
      if ∀ q ∈ qs, AllFinite q.reals then some qs else none := by
  rw [written, Data.writtenItems_map]
  exact Data.mapM_map_eq Qubit.ofData?_written qs

theorem targetsOf?_written (g : Gate) (qs : List Qubit) :
    targetsOf? (.record [("gate", written g.toData),
      ("qubits", written (.list (qs.map Qubit.toData)))]) =
      if AllFinite g.reals ∧ ∀ q ∈ qs, AllFinite q.reals then some (g, qs) else none := by
  have hfields : (Data.record [("gate", written g.toData),
      ("qubits", written (.list (qs.map Qubit.toData)))]).fields? ["gate", "qubits"] =
      some [some (written g.toData), some (written (.list (qs.map Qubit.toData)))] := rfl
  rw [targetsOf?, hfields]
  simp only [Gate.ofPart?_written, qubitsOf?_written]
  by_cases hg : AllFinite g.reals
  · by_cases hqs : ∀ q ∈ qs, AllFinite q.reals
    · rw [if_pos hg, if_pos hqs, if_pos (And.intro hg hqs)]
      rfl
    · rw [if_pos hg, if_neg hqs, if_neg (not_and_of_not_right _ hqs)]
      rfl
  · rw [if_neg hg, if_neg (not_and_of_not_left _ hg)]
    rfl

theorem blockOf?_written (name : String) (qs : List Qubit) :
    blockOf? (.record [("name", .text name), ("qubits", written (.list (qs.map Qubit.toData)))]) =
      if ∀ q ∈ qs, AllFinite q.reals then some (.block name qs) else none := by
  have hfields : (Data.record [("name", .text name),
      ("qubits", written (.list (qs.map Qubit.toData)))]).fields? ["name", "qubits"] =
      some [some (.text name), some (written (.list (qs.map Qubit.toData)))] := rfl
  rw [blockOf?, hfields]
  simp only [qubitsOf?_written]
  by_cases hqs : ∀ q ∈ qs, AllFinite q.reals
  · rw [if_pos hqs, if_pos hqs]
    rfl
  · rw [if_neg hqs, if_neg hqs]
    rfl

/-- What is built on the gate and the qubits of a record, if these can be read. -/
theorem build_targets {α : Type} {build? : Gate → List Qubit → Except OperationError α}
    {wrap : α → Operation} {a : α} {p : Prop} [Decidable p] (h : build? g qs = .ok a)
    (hp : p ↔ AllFinite g.reals ∧ ∀ q ∈ qs, AllFinite q.reals) :
    (do
      let (g, targets) ← ReadError.ofOption (targetsOf? (.record [("gate", written g.toData),
        ("qubits", written (.list (qs.map Qubit.toData)))]))
      return wrap (← refuse (build? g targets))) =
      if p then Except.ok (wrap a) else .error .malformed := by
  rw [targetsOf?_written, if_congr hp rfl rfl]
  by_cases hfinite : AllFinite g.reals ∧ ∀ q ∈ qs, AllFinite q.reals
  · rw [if_pos hfinite, if_pos hfinite]
    change (do return wrap (← refuse (build? g qs)) : Except _ _) = _
    rw [h]
    rfl
  · rw [if_neg hfinite, if_neg hfinite]
    rfl

/-- An operation is read back just when its numbers are finite. -/
theorem ofData?_written (op : Operation) : ofData? (written op.toData) =
    if AllFinite op.reals then .ok op else .error .malformed := by
  have hreals : AllFinite op.reals ↔ (∀ g ∈ op.gate?, AllFinite g.reals) ∧
    ∀ q ∈ op.qubits, AllFinite q.reals := forall_mem_reals
  cases op with
  | gate op =>
      have htag : (written (Operation.gate op).toData).tagged? [] "type" = some ("gate",
        .record [("gate", written op.gate.toData),
          ("qubits", written (.list (op.qubits.map Qubit.toData)))]) := rfl
      rw [ofData?, htag]
      refine build_targets (GateOperation.on?_eq_ok op.arity op.distinct) (hreals.trans ?_)
      simp only [gate?, Option.mem_def, Option.some.injEq, forall_eq', qubits]
  | parallel op =>
      have htag : (written (Operation.parallel op).toData).tagged? [] "type" = some ("parallel",
        .record [("gate", written op.gate.toData),
          ("qubits", written (.list (op.qubits.map Qubit.toData)))]) := rfl
      rw [ofData?, htag]
      refine build_targets (ParallelOperation.onEach?_eq_ok op.single op.nonempty op.distinct)
        (hreals.trans ?_)
      simp only [gate?, Option.mem_def, Option.some.injEq, forall_eq', qubits]
  | block name qs =>
      have htag : (written (Operation.block name qs).toData).tagged? [] "type" = some ("opaque",
        .record [("name", .text name), ("qubits", written (.list (qs.map Qubit.toData)))]) := rfl
      have hqs : AllFinite (Operation.block name qs).reals ↔ ∀ q ∈ qs, AllFinite q.reals :=
        hreals.trans (and_iff_right fun _ h => nomatch h)
      rw [ofData?, htag]
      change ReadError.ofOption (blockOf? _) = _
      rw [blockOf?_written, if_congr hqs rfl rfl]
      by_cases h : ∀ q ∈ qs, AllFinite q.reals
      · rw [if_pos h, if_pos h]
        rfl
      · rw [if_neg h, if_neg h]
        rfl

theorem ofText?_of_writes (htext : Writes op.toData text) (hkeeps : KeepsAll op.reals) :
    ofText? text = if AllFinite op.reals then .ok op else .error .malformed := by
  have hfits : (written op.toData).fits Json.maxDepth = true := fits_toData 124 op
  rw [ofText?, htext.readFront? (legible_toData hkeeps)]
  change (ofWhole? Json.maxDepth (written op.toData) >>= fun op =>
    if (Json.skipBlanks []).isEmpty then return op else throw .malformed) = _
  rw [ofWhole?, if_pos hfits, ofData?_written]
  by_cases h : AllFinite op.reals
  · rw [if_pos h]
    rfl
  · rw [if_neg h]
    rfl

/-- An operation that is written, on one line or on many, is read back just when its exponents and
coordinates are finite, and then as it was. The three ways to read a qubit never compete. -/
theorem text_round_trip (htext : Writes op.toData text) (hkeeps : KeepsAll op.reals) :
    ((∃ op', ofText? text = .ok op') ↔ AllFinite op.reals) ∧
    (∀ op', ofText? text = .ok op' → op' = op) ∧
    ∀ value : Data, (Site.ofData? value = none ∨ value.int64? = none) ∧
      (Site.ofData? value = none ∨ value.text? = none) ∧
      (value.int64? = none ∨ value.text? = none) := by
  have hread := ofText?_of_writes htext hkeeps
  refine ⟨?_, ?_, fun value =>
    ⟨Qubit.site_or_position value, Qubit.site_or_name value, Qubit.position_or_name value⟩⟩
  · constructor
    · rintro ⟨op', hop'⟩
      by_contra h
      rw [hread, if_neg h] at hop'
      cases hop'
    · intro h
      exact ⟨op, by rw [hread, if_pos h]⟩
  · intro op' hop'
    rw [hread] at hop'
    split_ifs at hop'
    exact (Except.ok.inj hop').symm

/-- A controlled Z to the power of a half, on a site and a line qubit. -/
theorem text_round_trip_entangler :
    let op := Operation.gate ⟨.power .cz 0.5, [.site ⟨1, 0.25, -3⟩, .line 2], rfl, by decide⟩
    Writes op.toData (Json.compact op.toData) ∧ KeepsAll op.reals ∧
      ∀ op', ofText? (Json.compact op.toData) = .ok op' → op' = op := by
  intro op
  have hkeeps : KeepsAll op.reals := by decide +kernel
  exact ⟨.compact, hkeeps, (text_round_trip .compact hkeeps).2.1⟩

end Operation
end AtomArray
