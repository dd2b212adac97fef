import AtomArray.Proofs.Binary64.NotANumber
import AtomArray.Proofs.Device.Sites
import AtomArray.Proofs.Qubit.Order
import AtomArray.Proofs.Site.Collection

/-! Devices on a list of sites: which radii are refused, which qubits are on the device, and when two
devices are equal. -/

namespace AtomArray

namespace Qubit

variable {q : Qubit} {qs : List Qubit} {sites : List Site}

theorem among_iff_beq : q.Among qs ↔ ∃ p ∈ qs, (p == q) = true := by
  simp only [Among, beq_iff_identity_eq]

theorem among_map_site_iff :
    q.Among (sites.map .site) ↔ ∃ p ∈ sites.map Site.place, Identity.place p = q.identity := by
  simp only [Among, List.mem_map, exists_exists_and_eq_and]
  exact Iff.rfl

theorem among_ascending_iff :
    q.Among ((Site.ascending sites).map .site) ↔ q.Among (sites.map .site) := by
  simp only [among_map_site_iff, Site.mem_places_ascending]

end Qubit

theorem isRadius_eq_true_iff {radius : Float} :
    isRadius radius = true ↔ radius.isFinite = true ∧ 0 < radius := by
  rw [isRadius, Bool.and_eq_true, decide_eq_true_eq]

/-- A finite radius is no radius just when it is at most zero. -/
theorem isRadius_eq_false_iff {radius : Float} :
    isRadius radius = false ↔ radius.isFinite = false ∨ radius ≤ 0 := by
  rw [← Bool.not_eq_true, isRadius_eq_true_iff]
  cases hfinite : radius.isFinite with
  | false => exact iff_of_true (fun h => Bool.false_ne_true h.1) (.inl rfl)
  | true =>
      have hnumber := (Binary64.not_nan_inf_of_finite hfinite).1
      have hle := Binary64.not_lt_iff_le_or_isNaN (x := radius) (y := 0) (by decide)
      rw [hnumber, or_iff_left Bool.false_ne_true] at hle
      rw [and_iff_right rfl, hle, or_iff_right (Ne.symm Bool.false_ne_true)]

namespace Device

variable {d e : Device} {q : Qubit} {radius : Float} {sites given : List Site}

theorem sitesOf?_map_site (sites : List Site) : sitesOf? (sites.map .site) = .ok sites := by
  induction sites with
  | nil => rfl
  | cons s rest ih =>
      rw [List.map_cons, sitesOf?, ih]
      rfl

theorem new?_map_site (radius : Float) (sites : List Site) :
    new? radius (sites.map .site) = onSites? radius sites := by
  rw [new?, sitesOf?_map_site]
  rfl

theorem onSites?_of_not_isRadius (h : isRadius radius = false) :
    onSites? radius sites = .error (.invalidRadius radius) := by
  rw [onSites?, dif_neg (by rw [h]; exact Bool.false_ne_true)]

/-- A device on a list of sites has the set of them and the given radius, and standard timings. -/
theorem onSites?_of_isRadius (h : isRadius radius = true) (sites : List Site) :
    ∃ d, onSites? radius sites = .ok d ∧ d.radius = radius ∧ d.sites = Site.ascending sites ∧
      d.timings = .standard :=
  ⟨_, dif_pos h, rfl, rfl, rfl⟩

theorem of_onSites? (h : onSites? radius sites = .ok d) : isRadius radius = true ∧
    d.radius = radius ∧ d.sites = Site.ascending sites ∧ d.timings = .standard := by
  cases hradius : isRadius radius with
  | false => cases h.symm.trans (onSites?_of_not_isRadius hradius)
  | true =>
      obtain ⟨e, he, hd⟩ := onSites?_of_isRadius hradius sites
      cases h.symm.trans he
      exact ⟨rfl, hd⟩

/-- A qubit is on the device just when it is equal to a site that the device was made on. -/
theorem contains_iff_of_sites (h : d.sites = Site.ascending sites) :
    d.contains q = true ↔ ∃ p ∈ sites.map Qubit.site, (p == q) = true := by
  rw [contains_iff, OnDevice, qubits, h, Qubit.among_ascending_iff, Qubit.among_iff_beq]

/-- The axes of equal sites may differ, and the strategies of equal devices. -/
theorem beq_iff : (d == e) = true ↔ (d.radius == e.radius) = true ∧
    d.sites.map Site.place = e.sites.map Site.place ∧ d.timings = e.timings := by
  change (d.radius == e.radius && d.sites == e.sites && d.timings == e.timings) = true ↔ _
  rw [Bool.and_eq_true, Bool.and_eq_true, Site.list_beq_iff, beq_iff_eq (a := d.timings), and_assoc]

theorem isFinite_radius (d : Device) : d.radius.isFinite = true :=
  (isRadius_eq_true_iff.1 d.radius_ok).1

theorem radius_beq_self (d : Device) : (d.radius == d.radius) = true :=
  Binary64.beq_self (Binary64.not_nan_inf_of_finite d.isFinite_radius).1

theorem beq_self (d : Device) : (d == d) = true := beq_iff.2 ⟨d.radius_beq_self, rfl, rfl⟩

/-- Devices on the same sites are equal, in whichever order these were given. -/
theorem beq_of_perm (hradius : d.radius = e.radius) (htimings : d.timings = e.timings)
    (hd : d.sites = Site.ascending sites) (he : e.sites = Site.ascending given)
    (h : sites.Perm given) : (d == e) = true := by
  refine beq_iff.2 ⟨hradius ▸ d.radius_beq_self, ?_, htimings⟩
  rw [hd, he, Site.map_place_ascending_of_perm h]

end Device
end AtomArray
