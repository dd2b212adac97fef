import AtomArray.Proofs.Binary64.Order
import AtomArray.Proofs.Device.OnSites
import AtomArray.Proofs.Device.Ruling
import AtomArray.Proofs.Rewriting.Standard

/-! Devices with equal radii and equal sets of sites. The check gives the same answer on both, down
to what its errors say, whatever axes the sites have and whatever else the devices differ in. -/

namespace AtomArray.Device

variable {d e : Device}

/-- Equal radii, and sites that are equal one by one; the axes of these may differ, and so may the
timings and the strategies. -/
structure Alike (d e : Device) : Prop where
  radius : (d.radius == e.radius) = true
  sites : (d.sites == e.sites) = true

theorem alike_of_beq (h : (d == e) = true) : d.Alike e := by
  obtain ⟨hradius, hplaces, -⟩ := beq_iff.1 h
  exact ⟨hradius, Site.list_beq_iff.2 hplaces⟩

theorem contains_site_iff {s : Site} :
    d.contains (.site s) = true ↔ s.place ∈ d.sites.map Site.place := by
  rw [contains_iff, OnDevice, qubits, Qubit.among_map_site_iff]
  constructor
  · rintro ⟨p, hp, hidentity⟩
    rwa [← Qubit.Identity.place.inj hidentity]
  · intro h
    exact ⟨s.place, h, rfl⟩

theorem mem_places_of_contains {p : Site.Place} (h : ∀ q, d.contains q = e.contains q)
    (hp : p ∈ d.sites.map Site.place) : p ∈ e.sites.map Site.place := by
  obtain ⟨s, -, rfl⟩ := List.mem_map.1 hp
  rw [← contains_site_iff] at hp ⊢
  rwa [← h]

/-- Sets of sites are equal just when the same qubits are on the devices. -/
theorem sites_beq_iff : (d.sites == e.sites) = true ↔ ∀ q, d.contains q = e.contains q := by
  rw [Site.list_beq_iff]
  constructor
  · intro hplaces q
    rw [Bool.eq_iff_iff, contains_iff, contains_iff, OnDevice, OnDevice, qubits, qubits,
      Qubit.among_map_site_iff, Qubit.among_map_site_iff, hplaces]
  · intro h
    refine d.ascending.map_place_eq e.ascending ?_
    intro p
    constructor
    · exact mem_places_of_contains h
    · exact mem_places_of_contains fun q => (h q).symm

namespace Alike

/-- A radius is positive, and so the only double that is equal to it. -/
theorem radius_eq (h : d.Alike e) : d.radius = e.radius :=
  Binary64.eq_of_beq_of_pos (isRadius_eq_true_iff.1 d.radius_ok).2 h.radius

theorem size_eq (h : d.Alike e) : d.size = e.size := by
  have hlength := congrArg List.length (Site.list_beq_iff.1 h.sites)
  rwa [List.length_map, List.length_map] at hlength

theorem contains_eq (h : d.Alike e) (q : Qubit) : d.contains q = e.contains q :=
  sites_beq_iff.1 h.sites q

/-- Distances are those of the targets, of which the devices know nothing. -/
theorem checkReach_eq (h : d.Alike e) (a : Qubit) (qs : List Qubit) :
    d.checkReach a qs = e.checkReach a qs := by
  induction qs with
  | nil => rfl
  | cons b rest ih =>
      have hdistance : d.distance a b = e.distance a b := rfl
      simp only [checkReach, hdistance, h.radius_eq, ih]

theorem checkPairs_eq (h : d.Alike e) (qs : List Qubit) : d.checkPairs qs = e.checkPairs qs := by
  induction qs with
  | nil => rfl
  | cons a rest ih => simp only [checkPairs, h.checkReach_eq, ih]

theorem checkTargets_eq (h : d.Alike e) (kind : NativeKind) (qs : List Qubit) :
    d.checkTargets kind qs = e.checkTargets kind qs := by
  simp only [checkTargets, h.checkPairs_eq, h.size_eq]

theorem check_eq (h : d.Alike e) (op : Operation) : d.check op = e.check op := by
  simp only [check, h.contains_eq, h.checkTargets_eq]

theorem checkAll_eq (h : d.Alike e) (ops : List Operation) : d.checkAll ops = e.checkAll ops := by
  have hcheck : d.check = e.check := funext h.check_eq
  rw [checkAll, checkAll, hcheck]

end Alike

/-- The check of an operation depends on the radius of the device and on its set of sites up to
equality, that is on the qubits that are on it. Devices that are equal check every list of
operations alike. -/
theorem check_alike (d e : Device) :
    ((d.sites == e.sites) = true ↔ ∀ q, d.contains q = e.contains q) ∧
    (d.Alike e → ∀ op, d.check op = e.check op) ∧
    ((d == e) = true → ∀ ops, d.checkAll ops = e.checkAll ops) := by
  refine ⟨sites_beq_iff, ?_, ?_⟩
  · intro h op
    exact h.check_eq op
  · intro h ops
    exact (alike_of_beq h).checkAll_eq ops

theorem ascending_nearLine :
    Site.Ascending [.onRow (-0.0), .onRow 1.0000000001, .onRow 2] := by
  unfold Site.Ascending
  decide +kernel

/-- The line with its first two sites at other axes, timings of its own and no rules. -/
def nearLine : Device :=
  ⟨1, [.onRow (-0.0), .onRow 1.0000000001, .onRow 2], ⟨⟨0⟩, ⟨0⟩⟩, ⟨"none", fun _ => none⟩,
    isRadius_one, ascending_nearLine⟩

/-- A controlled sign on the ends of the line. -/
def czEnds : GateOperation :=
  ⟨.one .cz, [.site (.onRow 0), .site (.onRow 2)], rfl, by decide +kernel⟩

theorem check_czEnds : line.check (.gate czEnds) =
    .error (.tooFarApart (.site (.onRow 0)) (.site (.onRow 2)) 2 1) := by
  have targets : ∀ q ∈ (Operation.gate czEnds).qubits, line.OnDevice q := by
    change ∀ q ∈ [Qubit.site (.onRow 0), .site (.onRow 2)], line.OnDevice q
    simp only [← contains_iff, List.forall_mem_cons]
    exact ⟨by decide +kernel, by decide +kernel, by simp⟩
  have hentangler : (Operation.gate czEnds).IsEntangler := ⟨.cz, by simp, 1, rfl⟩
  have hdistance : line.distance (.site (.onRow 0)) (.site (.onRow 2)) = .ok 2 :=
    congrArg Except.ok (by decide +kernel)
  rw [check_of_entangler (by decide +kernel) targets hentangler]
  change line.checkPairs [.site (.onRow 0), .site (.onRow 2)] = _
  rw [checkPairs, checkReach_cons_far hdistance (by decide +kernel)]
  rfl

/-- The line and its near copy refuse a gate on the ends of the line for the same distance. With the
timings of the line the copy is equal to it. -/
theorem check_alike_nearLine : line.Alike nearLine ∧
    line.sites.map Site.x ≠ nearLine.sites.map Site.x ∧
    nearLine.check (.gate czEnds) =
      .error (.tooFarApart (.site (.onRow 0)) (.site (.onRow 2)) 2 1) ∧
    (line == nearLine.withTimings line.timings) = true ∧
    line.checkAll [.gate czEnds] =
      (nearLine.withTimings line.timings).checkAll [.gate czEnds] := by
  have halike : line.Alike nearLine := ⟨by decide +kernel, by decide +kernel⟩
  have hbeq : (line == nearLine.withTimings line.timings) = true := by decide +kernel
  obtain ⟨-, hcheck, -⟩ := check_alike line nearLine
  obtain ⟨-, -, hall⟩ := check_alike line (nearLine.withTimings line.timings)
  refine ⟨halike, by decide +kernel, ?_, hbeq, hall hbeq _⟩
  rw [← hcheck halike, check_czEnds]

end AtomArray.Device
