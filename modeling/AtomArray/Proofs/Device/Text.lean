import AtomArray.Device.Data
import AtomArray.Proofs.Config.Data
import AtomArray.Proofs.Device.OnSites

/-! Devices as texts: which of them are read back, and how far timings are held. -/

namespace AtomArray

open Json (Legible KeepsAll Writes written)

namespace Device

/-- The numbers that a device is written with. -/
def reals (d : Device) : List Float := d.radius :: d.sites.flatMap Site.axes

/-- The device that a device becomes when it is written and read: the timings are held in 64 bits
and the strategy is the standard one. -/
def held (d : Device) : Device :=
  { d with timings := (TimingRecord.ofTimings d.timings).toTimings, strategy := .standard }

variable {d : Device} {text : String}

theorem legible_toData (h : KeepsAll d.reals) : Legible d.toData := by
  obtain ⟨hradius, hsites⟩ := List.forall_mem_cons.1 h
  have hsites' : Legible (.list (d.sites.map Site.toData)) :=
    Legible.map fun s hs => Site.legible_toData (List.forall_mem_flatMap.1 hsites s hs)
  refine .member (.real hradius) (.member hsites' ?_)
  split_ifs
  · exact .noMembers
  · exact .member (TimingRecord.legible_toData _) .noMembers

theorem sites_written (sites : List Site) :
    (sites.map fun s => written s.toData).mapM Site.ofData? =
      if AllFinite (sites.flatMap Site.axes) then some sites else none := by
  have hfinite : AllFinite (sites.flatMap Site.axes) ↔ ∀ s ∈ sites, AllFinite s.axes :=
    List.forall_mem_flatMap
  rw [if_congr hfinite rfl rfl]
  exact Data.mapM_map_eq Site.ofData?_written sites

/-- Timings that are left out are the standard ones. -/
theorem recordOf?_written (d : Device) : recordOf? (written d.toData) =
    if AllFinite (d.sites.flatMap Site.axes) then
      some (d.radius, d.sites, TimingRecord.ofTimings d.timings)
    else none := by
  have hradius : (written (.real d.radius)).float? = some d.radius := by
    rw [Data.float?_written, if_pos d.isFinite_radius]
  have htimings : ∃ timings, (written d.toData).fields? ["control_radius", "qubits", "durations"] =
        some [some (written (.real d.radius)),
          some (written (.list (d.sites.map Site.toData))), timings] ∧
      Data.fieldOr .standard TimingRecord.ofData? timings =
        some (TimingRecord.ofTimings d.timings) := by
    rw [toData]
    cases hstandard : (TimingRecord.ofTimings d.timings).isStandard with
    | true => exact ⟨none, rfl, congrArg some (of_decide_eq_true hstandard).symm⟩
    | false =>
        refine ⟨some (written (TimingRecord.ofTimings d.timings).toData), rfl, ?_⟩
        rw [TimingRecord.written_toData, Data.fieldOr_some, TimingRecord.ofData?_toData]
  obtain ⟨timings, hfields, htimings⟩ := htimings
  have hlist : (written (.list (d.sites.map Site.toData))).list? =
      some (d.sites.map fun s => written s.toData) := by
    rw [written, Data.writtenItems_map]
    rfl
  rw [recordOf?, hfields]
  dsimp only
  rw [hradius, htimings, hlist, Option.bind_eq_bind, Option.bind_some, Option.bind_eq_bind,
    Option.bind_some, sites_written]
  split_ifs <;> rfl

theorem ofRecord?_ofTimings (d : Device) :
    ((∃ device, ofRecord? d.radius d.sites (TimingRecord.ofTimings d.timings) = .ok device) ↔
      d.timings.identity.nanoseconds ≠ 0 ∧ d.timings.measurement.nanoseconds ≠ 0) ∧
    ∀ device, ofRecord? d.radius d.sites (TimingRecord.ofTimings d.timings) = .ok device →
      device = d.held := by
  have hcheck : (TimingRecord.ofTimings d.timings).check = .ok () ↔
      d.timings.identity.nanoseconds ≠ 0 ∧ d.timings.measurement.nanoseconds ≠ 0 := by
    rw [TimingRecord.check_eq_ok_iff, TimingRecord.ofTimings, Ne, Ne,
      TimingRecord.saturate_eq_zero_iff, TimingRecord.saturate_eq_zero_iff]
  rw [← hcheck, ofRecord?]
  cases hresult : (TimingRecord.ofTimings d.timings).check with
  | error fault =>
      refine ⟨iff_of_false ?_ ?_, ?_⟩
      · rintro ⟨_, h⟩
        cases h
      · intro h
        cases h
      · intro _ h
        cases h
  | ok =>
      have hbuild : (onSites? d.radius d.sites).map
          (·.withTimings (TimingRecord.ofTimings d.timings).toTimings) = .ok d.held := by
        rw [onSites?, dif_pos d.radius_ok, Except.map, held]
        simp only [withTimings, Site.ascending_of_ascending d.ascending]
      dsimp only
      rw [hbuild]
      exact ⟨iff_of_true ⟨_, rfl⟩ rfl, fun device h => (Except.ok.inj h).symm⟩

theorem ofText?_of_record {value : Data} {radius : Float} {sites : List Site} {r : TimingRecord}
    (hread : Json.readFront? text.toList = some (value, []))
    (hrecord : recordOf? value = some (radius, sites, r)) (device : Device) :
    ofText? text = .ok device ↔ ofRecord? radius sites r = .ok device := by
  rw [ofText?, hread]
  dsimp only [ReadError.ofOption, bind, Except.bind]
  rw [hrecord]
  dsimp only
  cases ofRecord? radius sites r with
  | error e => exact iff_of_false (nomatch ·) (nomatch ·)
  | ok device' =>
      exact ⟨fun h => congrArg _ (Except.ok.inj h), fun h => congrArg _ (Except.ok.inj h)⟩

theorem ofText?_of_no_record {value : Data}
    (hread : Json.readFront? text.toList = some (value, [])) (hrecord : recordOf? value = none) :
    ofText? text = .error .malformed := by
  rw [ofText?, hread]
  dsimp only [ReadError.ofOption, bind, Except.bind]
  rw [hrecord]

/-- A device is read back, though held, just when its coordinates are finite and neither of its
durations is zero. -/
theorem ofText?_of_writes (htext : Writes d.toData text) (hkeeps : KeepsAll d.reals) :
    ((∃ device, ofText? text = .ok device) ↔ AllFinite (d.sites.flatMap Site.axes) ∧
      d.timings.identity.nanoseconds ≠ 0 ∧ d.timings.measurement.nanoseconds ≠ 0) ∧
    ∀ device, ofText? text = .ok device → device = d.held := by
  have hread := htext.readFront? (legible_toData hkeeps)
  have hrecord := recordOf?_written d
  by_cases hfinite : AllFinite (d.sites.flatMap Site.axes)
  · rw [if_pos hfinite] at hrecord
    simp only [ofText?_of_record hread hrecord, hfinite, true_and]
    exact ofRecord?_ofTimings d
  · rw [if_neg hfinite] at hrecord
    rw [ofText?_of_no_record hread hrecord]
    exact ⟨iff_of_false (fun ⟨_, h⟩ => nomatch h) fun h => hfinite h.1, fun _ h => nomatch h⟩

theorem held_beq_iff : (d.held == d) = true ↔
    d.timings.identity.nanoseconds ≤ UInt64.size - 1 ∧
      d.timings.measurement.nanoseconds ≤ UInt64.size - 1 := by
  have hradius : (d.held.radius == d.radius) = true := d.radius_beq_self
  have hsites : d.held.sites = d.sites := rfl
  rw [beq_iff, and_iff_right hradius, hsites, and_iff_right rfl]
  exact TimingRecord.toTimings_ofTimings_iff

/-- A device that is written, on one line or on many, is read back as an equal one just when its
coordinates are finite and its durations are neither zero nor beyond 64 bits. A longer duration is
held at the largest of 64 bits, and nothing else is lost but the strategy. Timings in 64 bits are
kept as they are. -/
theorem record_round_trip (htext : Writes d.toData text) (hkeeps : KeepsAll d.reals) :
    ((∃ device, ofText? text = .ok device ∧ (device == d) = true) ↔
      AllFinite (d.sites.flatMap Site.axes) ∧
      d.timings.identity.nanoseconds ≠ 0 ∧ d.timings.measurement.nanoseconds ≠ 0 ∧
      d.timings.identity.nanoseconds ≤ UInt64.size - 1 ∧
      d.timings.measurement.nanoseconds ≤ UInt64.size - 1) ∧
    (AllFinite (d.sites.flatMap Site.axes) →
      d.timings.identity.nanoseconds ≠ 0 → d.timings.measurement.nanoseconds ≠ 0 →
      ∃ device, ofText? text = .ok device ∧ device.radius = d.radius ∧ device.sites = d.sites ∧
        device.timings.identity.nanoseconds =
          min d.timings.identity.nanoseconds (UInt64.size - 1) ∧
        device.timings.measurement.nanoseconds =
          min d.timings.measurement.nanoseconds (UInt64.size - 1)) ∧
    ∀ r : TimingRecord, TimingRecord.ofTimings r.toTimings = r := by
  obtain ⟨hread, hheld⟩ := ofText?_of_writes htext hkeeps
  refine ⟨?_, ?_, TimingRecord.ofTimings_toTimings⟩
  · constructor
    · rintro ⟨device, hdevice, hbeq⟩
      obtain ⟨hfinite, hidentity, hmeasurement⟩ := hread.1 ⟨device, hdevice⟩
      rw [hheld device hdevice, held_beq_iff] at hbeq
      exact ⟨hfinite, hidentity, hmeasurement, hbeq⟩
    · rintro ⟨hfinite, hidentity, hmeasurement, hsize⟩
      obtain ⟨device, hdevice⟩ := hread.2 ⟨hfinite, hidentity, hmeasurement⟩
      refine ⟨device, hdevice, ?_⟩
      rw [hheld device hdevice, held_beq_iff]
      exact hsize
  · intro hfinite hidentity hmeasurement
    obtain ⟨device, hdevice⟩ := hread.2 ⟨hfinite, hidentity, hmeasurement⟩
    refine ⟨device, hdevice, ?_⟩
    rw [hheld device hdevice]
    exact ⟨rfl, rfl, TimingRecord.toNat_saturate _, TimingRecord.toNat_saturate _⟩

/-- Two sites, with a measurement longer than 64 bits can tell. -/
theorem record_round_trip_pair :
    let d : Device := ⟨1.5, [⟨0, 0, 0⟩, ⟨1, 0, 0⟩], ⟨⟨2000⟩, ⟨2 ^ 70⟩⟩, .standard,
      by decide +kernel, by decide +kernel⟩
    Writes d.toData (Json.pretty d.toData) ∧ KeepsAll d.reals ∧
      ∃ device, ofText? (Json.pretty d.toData) = .ok device ∧
        device.timings.measurement.nanoseconds = 2 ^ 64 - 1 := by
  intro d
  have hkeeps : KeepsAll d.reals := by decide +kernel
  have hfinite : AllFinite (d.sites.flatMap Site.axes) := by decide +kernel
  obtain ⟨device, hdevice, -, -, -, hmeasurement⟩ := (record_round_trip .pretty hkeeps).2.1 hfinite
    (by decide) (by decide)
  exact ⟨.pretty, hkeeps, device, hdevice, hmeasurement⟩

end Device
end AtomArray
