import AtomArray.Proofs.Binary64.Order
import AtomArray.Proofs.Device.Connectivity
import AtomArray.Proofs.Device.Interchange
import AtomArray.Proofs.Device.Preparation

/-! Devices with more sites and a larger radius. What the smaller device accepts the larger one
accepts too, but for a rotation about X or Y in parallel: it meets several sites only if it meets
all of them. -/

namespace AtomArray

namespace Operation

/-- A rotation about an axis in the plane of X and Y, in parallel on more than one target. -/
def IsSpreadXy (op : Operation) : Prop := op.IsParallelXy ∧ 1 < op.qubits.length

theorem not_isSpreadXy_of_isGate {op : Operation} (h : op.isGate = true) : ¬ op.IsSpreadXy := by
  cases op with
  | gate op => exact fun hspread => hspread.1
  | parallel op => cases h
  | block name qs => cases h

end Operation

namespace Device

variable {d e : Device} {a b q : Qubit} {qs : List Qubit} {op : Operation}
  {ops native : List Operation}

/-- Every site of `d` is equal to one of `e`, and the radius of `d` is at most that of `e`. -/
structure Within (d e : Device) : Prop where
  sites : ∀ s ∈ d.sites, ∃ t ∈ e.sites, (t == s) = true
  radius : d.radius ≤ e.radius

namespace Within

theorem among_qubits (h : d.Within e) : ∀ q ∈ d.qubits, q.Among e.qubits := by
  intro q hq
  obtain ⟨s, hs, rfl⟩ := List.mem_map.1 hq
  obtain ⟨t, ht, hts⟩ := h.sites s hs
  have hplace : t.place = s.place := Site.beq_iff_place_eq.1 hts
  exact ⟨.site t, List.mem_map_of_mem ht, congrArg Qubit.Identity.place hplace⟩

theorem onDevice (h : d.Within e) (hq : d.OnDevice q) : e.OnDevice q := by
  obtain ⟨p, hp, hpq⟩ := hq
  obtain ⟨r, hr, hrp⟩ := h.among_qubits p hp
  exact ⟨r, hr, hrp.trans hpq⟩

theorem coveredBy (h : d.Within e) (hcovered : e.CoveredBy qs) : d.CoveredBy qs := by
  intro s hs
  obtain ⟨t, ht, hts⟩ := h.among_qubits s hs
  obtain ⟨q, hq, hqt⟩ := hcovered t ht
  exact ⟨q, hq, hqt.trans hts⟩

/-- A distance beyond the larger radius is beyond the smaller one, an infinite one too. -/
theorem farApart (h : d.Within e) (hfar : e.FarApart a b) : d.FarApart a b := by
  obtain ⟨distance, hdistance, hlt⟩ := hfar
  exact ⟨distance, hdistance, Binary64.lt_of_le_of_lt h.radius hlt⟩

theorem allNear (h : d.Within e) (hnear : d.AllNear qs) : e.AllNear qs := by
  refine List.Pairwise.imp ?_ hnear
  intro a b hab hfar
  exact hab (h.farApart hfar)

/-- Targets that cover the smaller device cover the larger one if it has no more sites. -/
theorem coveredBy_iff (h : d.Within e) (distinct : Qubit.Distinct qs)
    (targets : ∀ q ∈ qs, d.OnDevice q) (hcovered : d.CoveredBy qs) :
    e.CoveredBy qs ↔ e.size = d.size := by
  have targets' : ∀ q ∈ qs, e.OnDevice q := fun q hq => h.onDevice (targets q hq)
  rw [← length_eq_size_iff distinct targets] at hcovered
  rw [← length_eq_size_iff distinct targets', hcovered]
  exact eq_comm

/-- What the smaller device accepts meets every rule of the larger one, with one exception. -/
theorem check_iff (h : d.Within e) (hcheck : d.check op = .ok ()) :
    e.check op = .ok () ↔ (op.IsSpreadXy → e.size = d.size) := by
  obtain ⟨native, targets, entangler, parallelZ, parallelXy⟩ := check_eq_ok_iff.1 hcheck
  have distinct := (op.targets_of_native native).2
  have hcovered : op.IsParallelXy → op.qubits.length ≠ 1 →
      (e.CoveredBy op.qubits ↔ e.size = d.size) := by
    intro hxy hone
    exact h.coveredBy_iff distinct targets ((parallelXy hxy).resolve_left hone)
  constructor
  · rintro hcheck' ⟨hxy, hseveral⟩
    have hone : op.qubits.length ≠ 1 := Nat.ne_of_gt hseveral
    have hall := (check_eq_ok_iff.1 hcheck').2.2.2.2 hxy
    exact (hcovered hxy hone).1 (hall.resolve_left hone)
  · intro hsize
    refine check_eq_ok_iff.2 ⟨native, fun q hq => h.onDevice (targets q hq), ?_, ?_, ?_⟩
    · intro hpairs
      exact h.allNear (entangler hpairs)
    · intro hz hall
      exact parallelZ hz (h.coveredBy hall)
    · intro hxy
      by_cases hone : op.qubits.length = 1
      · exact .inl hone
      · have hpos := (op.targets_of_native native).1
        have hseveral : 1 < op.qubits.length := by omega
        exact .inr ((hcovered hxy hone).2 (hsize ⟨hxy, hseveral⟩))

end Within

/-! Circuits, on devices with the same strategy. -/

theorem unfolded_eq (hstep : d.strategy.step = e.strategy.step) (lowering : Bool)
    (op : Operation) : d.unfolded lowering op = e.unfolded lowering op := by
  have hlower : d.lower op = e.lower op := by
    cases op with
    | gate op => simp only [lower, lowerWith, hstep]
    | _ => rfl
  simp only [unfolded, hlower]

/-- A device prepares a circuit as another does if it accepts what the other makes of it. -/
theorem prepare_of_checks (hstep : d.strategy.step = e.strategy.step)
    (hprepare : d.prepare ops = .ok native) (h : ∀ op ∈ native, e.check op = .ok ()) :
    e.prepare ops = .ok native := by
  obtain ⟨parts, hparts, rfl⟩ := prepare_eq_ok_iff.1 hprepare
  refine prepare_eq_ok_iff.2 ⟨parts, ?_, rfl⟩
  clear hprepare
  induction hparts with
  | nil => exact .nil
  | @cons op part ops parts hpart _ ih =>
      rw [List.flatten_cons, List.forall_mem_append] at h
      refine .cons ?_ (ih h.2)
      have hunfolded := (prepareOne_eq_ok_iff.1 hpart).1
      rw [unfolded_eq hstep] at hunfolded
      exact prepareOne_eq_ok_iff.2 ⟨hunfolded, Traversal.forM_eq_ok_iff.2 h.1⟩

/-- The circuits that both devices prepare as the same operations. -/
theorem Within.prepare_iff (h : d.Within e) (hstep : d.strategy.step = e.strategy.step)
    (hprepare : d.prepare ops = .ok native) :
    e.prepare ops = .ok native ↔ ∀ op ∈ native, op.IsSpreadXy → e.size = d.size := by
  have hall := Traversal.forM_eq_ok_iff.1 (checkAll_of_prepare hprepare)
  constructor
  · intro hprepare' op hop
    have hall' := Traversal.forM_eq_ok_iff.1 (checkAll_of_prepare hprepare')
    exact (h.check_iff (hall op hop)).1 (hall' op hop)
  · intro hsize
    apply prepare_of_checks hstep hprepare
    intro op hop
    exact (h.check_iff (hall op hop)).2 (hsize op hop)

/-- A device with more sites and a larger radius accepts what the smaller one accepts, unless it is
a rotation about X or Y in parallel on more than one target: that is accepted just when there are no
more sites. With the same strategy, a circuit that is prepared without such rotations is prepared as
the same operations. -/
theorem check_widened (h : d.Within e) :
    (∀ op, ¬ op.IsSpreadXy → d.check op = .ok () → e.check op = .ok ()) ∧
    (∀ op, op.IsSpreadXy → d.check op = .ok () → (e.check op = .ok () ↔ e.size = d.size)) ∧
    ∀ ops native, d.strategy.step = e.strategy.step → d.prepare ops = .ok native →
      (∀ op ∈ native, ¬ op.IsSpreadXy) → e.prepare ops = .ok native := by
  refine ⟨?_, ?_, ?_⟩
  · intro op hspread hcheck
    exact (h.check_iff hcheck).2 fun hxy => absurd hxy hspread
  · intro op hspread hcheck
    rw [h.check_iff hcheck]
    exact forall_prop_of_true hspread
  · intro ops native hstep hprepare hspread
    exact (h.prepare_iff hstep hprepare).2 fun op hop hxy => absurd hxy (hspread op hop)

/-- The first two sites of the line alone. -/
def pair : Device :=
  ⟨1, [.onRow 0, .onRow 1], .standard, .standard, isRadius_one,
    Site.ascending_onRow.sublist (by simp)⟩

theorem within_pair : pair.Within line := by
  constructor
  · intro s hs
    have hline : line.sites = pair.sites ++ [.onRow 2] := rfl
    rw [hline]
    exact ⟨s, List.mem_append_left _ hs, Site.beq_iff_place_eq.2 rfl⟩
  · decide +kernel

/-- Half a turn about X of both sites of the pair. -/
def flipPair : ParallelOperation :=
  ⟨.one .x, pair.qubits, rfl, by simp [pair, qubits], pair.distinct_qubits⟩

theorem isSpreadXy_flipPair : (Operation.parallel flipPair).IsSpreadXy :=
  ⟨.inl ⟨1, rfl⟩, by decide⟩

theorem check_flipPair : pair.check (.parallel flipPair) = .ok () := by
  have hall : pair.CoveredBy flipPair.qubits := fun s hs => ⟨s, hs, rfl⟩
  refine check_eq_ok_iff.2 ⟨rfl, fun q hq => ⟨q, hq, rfl⟩, ?_, ?_, ?_⟩
  · intro hentangler
    exact absurd isSpreadXy_flipPair.1 hentangler.not_parallelXy
  · intro hz
    exact absurd isSpreadXy_flipPair.1 hz.not_parallelXy
  · intro _
    exact .inr hall

/-- The pair flips both of its sites, which is not allowed on the line; an exchange of the two is
prepared there as on the pair. -/
theorem check_widened_pair : pair.Within line ∧
    pair.check (.parallel flipPair) = .ok () ∧ line.check (.parallel flipPair) ≠ .ok () ∧
    ∃ native, pair.prepare [.gate (onPair (.one .swap))] = .ok native ∧
      line.prepare [.gate (onPair (.one .swap))] = .ok native := by
  obtain ⟨-, hflip, hcircuit⟩ := check_widened within_pair
  refine ⟨within_pair, check_flipPair, ?_, ?_⟩
  · rw [Ne, hflip _ isSpreadXy_flipPair check_flipPair]
    decide
  · have hgates : ((pair.prepare [.gate (onPair (.one .swap))]).map
        fun native => native.all Operation.isGate).toOption = some true := by decide +kernel
    cases hprepare : pair.prepare [.gate (onPair (.one .swap))] with
    | error e =>
        rw [hprepare] at hgates
        cases hgates
    | ok native =>
        rw [hprepare] at hgates
        have hall := List.all_eq_true.1 (Option.some_inj.1 hgates)
        refine ⟨native, rfl, hcircuit _ native rfl hprepare ?_⟩
        intro op hop
        exact Operation.not_isSpreadXy_of_isGate (hall op hop)

end Device
end AtomArray
