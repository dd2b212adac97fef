import AtomArray.Proofs.Binary64.NotANumber
import AtomArray.Proofs.Device.Connectivity

/-! Neighbours of a site and the pairs that the checks accept. -/

namespace AtomArray

open Binary64

/-- Coordinates without a difference: one of them is NaN, or they are the same infinity. -/
def Binary64.Clash (x y : Float) : Prop :=
  x.isNaN = true ∨ y.isNaN = true ∨ x.isInf = true ∧ x = y

/-- Sites with coordinates that have no difference. -/
def Site.Clash (a b : Site) : Prop :=
  Binary64.Clash a.x b.x ∨ Binary64.Clash a.y b.y ∨ Binary64.Clash a.z b.z

theorem Site.isNaN_distance_iff {a b : Site} : (a.distance b).isNaN = true ↔ a.Clash b := by
  have hx := isNaN_mul_self (a.x - b.x)
  have hy := isNaN_mul_self (a.y - b.y)
  have hz := isNaN_mul_self (a.z - b.z)
  have hxy := isNaN_add hx.2 hy.2
  have hxyz := isNaN_add hxy.2 hz.2
  rw [distance, isNaN_sqrt hxyz.2, hxyz.1, hxy.1, hx.1, hy.1, hz.1, Bool.or_eq_true,
    Bool.or_eq_true, isNaN_sub, isNaN_sub, isNaN_sub, or_assoc]
  rfl

theorem Binary64.not_clash_of_finite {x y : Float} (hx : x.isFinite = true)
    (hy : y.isFinite = true) : ¬ Clash x y := by
  obtain ⟨hnan, hinf⟩ := not_nan_inf_of_finite hx
  rintro (h | h | ⟨h, -⟩)
  · cases h.symm.trans hnan
  · cases h.symm.trans (not_nan_inf_of_finite hy).1
  · cases h.symm.trans hinf

/-- Sites at finite coordinates have a distance. -/
theorem Site.not_clash_of_finite {a b : Site} (hx : a.x.isFinite = true) (hy : a.y.isFinite = true)
    (hz : a.z.isFinite = true) (hx' : b.x.isFinite = true) (hy' : b.y.isFinite = true)
    (hz' : b.z.isFinite = true) : ¬ a.Clash b := by
  rintro (h | h | h)
  · exact Binary64.not_clash_of_finite hx hx' h
  · exact Binary64.not_clash_of_finite hy hy' h
  · exact Binary64.not_clash_of_finite hz hz' h

namespace Device

variable {d : Device} {a b : Site} {op : GateOperation}

theorem isNaN_radius (d : Device) : d.radius.isNaN = false := by
  have h := d.radius_ok
  rw [isRadius, Bool.and_eq_true] at h
  exact (not_nan_inf_of_finite h.1).1

theorem mem_neighbors_iff :
    b ∈ d.neighbors a ↔ b ∈ d.sites ∧ a.distance b ≤ d.radius ∧ b.place ≠ a.place := by
  have hne : (b != a) = true ↔ b.place ≠ a.place := by
    rw [bne, Bool.not_eq_true', ← Bool.not_eq_true, Site.beq_iff_place_eq]
  rw [neighbors, List.mem_filter, Bool.and_eq_true, decide_eq_true_iff, hne]

theorem check_cz (hgate : op.gate = .one .cz) (hqubits : op.qubits = [.site a, .site b])
    (ha : a ∈ d.sites) (hb : b ∈ d.sites) :
    d.check (.gate op) = .ok () ↔ ¬ d.radius < a.distance b := by
  have targets : ∀ q ∈ (Operation.gate op).qubits, d.OnDevice q := by
    intro q hq
    change q ∈ op.qubits at hq
    rw [hqubits] at hq
    rcases List.mem_pair.1 hq with rfl | rfl
    · exact ⟨_, List.mem_map_of_mem ha, rfl⟩
    · exact ⟨_, List.mem_map_of_mem hb, rfl⟩
  have native : (Operation.gate op).isNative = true := by
    change op.gate.isNative = true
    rw [hgate]
    decide +kernel
  have hpair : (Operation.gate op).qubits = [.site a, .site b] := hqubits
  rw [check_of_entangler native targets ⟨.cz, by simp, 1, hgate⟩, checkPairs_eq_ok_iff targets,
    hpair, List.pairwise_pair, farApart_site_iff]

/-- Two sites of the device are accepted for a controlled sign just when they are neighbours, or
their distance is not a number. -/
theorem check_cz_iff_neighbors (hgate : op.gate = .one .cz)
    (hqubits : op.qubits = [.site a, .site b]) (ha : a ∈ d.sites) (hb : b ∈ d.sites) :
    d.check (.gate op) = .ok () ↔ b ∈ d.neighbors a ∨ a.Clash b := by
  have hplace : b.place ≠ a.place := by
    have hdistinct := op.distinct
    rw [hqubits, Qubit.distinct_two] at hdistinct
    intro h
    exact hdistinct (congrArg Qubit.Identity.place h.symm)
  have hmem : b ∈ d.neighbors a ↔ a.distance b ≤ d.radius := by
    rw [mem_neighbors_iff]
    exact ⟨fun h => h.2.1, fun h => ⟨hb, h, hplace⟩⟩
  rw [check_cz hgate hqubits ha hb, not_lt_iff_le_or_isNaN d.isNaN_radius,
    Site.isNaN_distance_iff, hmem]

/-- A site in the row at infinity. -/
def farSite (column : Float) : Site := ⟨1 / 0, column, 0⟩

theorem ascending_farSite : Site.Ascending [farSite 0, farSite 1] := by
  unfold Site.Ascending
  decide +kernel

def atInfinity : Device :=
  ⟨1, [farSite 0, farSite 1], .standard, .standard, isRadius_one, ascending_farSite⟩

def czAtInfinity : GateOperation := ⟨.one .cz, atInfinity.qubits, rfl, by decide +kernel⟩

theorem check_czAtInfinity :
    czAtInfinity.gate = .one .cz ∧ czAtInfinity.qubits = [.site (farSite 0), .site (farSite 1)] ∧
    farSite 0 ∈ atInfinity.sites ∧ farSite 1 ∈ atInfinity.sites ∧
    (atInfinity.check (.gate czAtInfinity) = .ok () ↔
      farSite 1 ∈ atInfinity.neighbors (farSite 0) ∨ (farSite 0).Clash (farSite 1)) := by
  have hfirst : farSite 0 ∈ atInfinity.sites := List.mem_cons_self
  have hsecond : farSite 1 ∈ atInfinity.sites := List.mem_cons_of_mem _ List.mem_cons_self
  exact ⟨rfl, rfl, hfirst, hsecond, check_cz_iff_neighbors rfl rfl hfirst hsecond⟩

/-- Being accepted is not the same as being neighbours. -/
theorem not_check_cz_iff_mem_neighbors :
    ¬ ∀ (d : Device) (a b : Site) (op : GateOperation), op.gate = .one .cz →
      op.qubits = [.site a, .site b] → a ∈ d.sites → b ∈ d.sites →
      (d.check (.gate op) = .ok () ↔ b ∈ d.neighbors a) := by
  intro h
  have hfirst : farSite 0 ∈ atInfinity.sites := List.mem_cons_self
  have hsecond : farSite 1 ∈ atInfinity.sites := List.mem_cons_of_mem _ List.mem_cons_self
  have hiff : atInfinity.check (.gate czAtInfinity) = .ok () ↔ _ :=
    check_cz rfl rfl hfirst hsecond
  have hmem := (h atInfinity _ _ czAtInfinity rfl rfl hfirst hsecond).1 (hiff.2 (by decide +kernel))
  exact absurd (mem_neighbors_iff.1 hmem).2.1 (by decide +kernel)

end Device
end AtomArray
