import AtomArray.Proofs.Config.Sites

/-! Devices from configurations: what passes the check is built, and listing the sites of the layout
one by one makes no difference to it. -/

namespace AtomArray.Config

variable {c : Config} {d : Device} {fault : ConfigFault}

theorem sites_ne_nil (h : c.check = .ok ()) : c.layout.sites ≠ [] := by
  obtain ⟨-, n, hn, hpos⟩ := check_eq_ok h
  intro hnil
  rw [← Layout.length_sites hn, hnil] at hpos
  exact hpos rfl

/-- However many sites are listed, none of them is refused for that. -/
theorem check_expand (h : c.check = .ok ()) : c.expand.check = .ok () := by
  obtain ⟨hradius, -, htimings⟩ := check_eq_ok_iff.1 h
  have hlength : c.layout.sites.length ≠ 0 := List.length_eq_zero_iff.not.2 (sites_ne_nil h)
  exact check_eq_ok_iff.2 ⟨hradius, ⟨_, rfl, hlength⟩, htimings⟩

theorem build_expand (h : c.check = .ok ()) : c.expand.build = c.build := by
  rw [build, build, check_expand h, h]
  rfl

theorem build_of_fault (h : c.check = .error fault) : c.build = .error (.config fault) := by
  rw [build, h]
  rfl

/-- The check leaves nothing to refuse to the construction of a device from qubits. -/
theorem new?_of_check (h : c.check = .ok ()) :
    (Device.new? c.radius (c.layout.sites.map .site)).map (·.withTimings c.timings.toTimings) =
      c.build := by
  rw [Device.new?_map_site, build, h]
  cases Device.onSites? c.radius c.layout.sites <;> rfl

theorem of_build (h : c.build = .ok d) : c.check = .ok () ∧ d.radius = c.radius ∧
    d.sites = Site.ascending c.layout.sites ∧ d.timings = c.timings.toTimings := by
  cases hcheck : c.check with
  | error fault => cases h.symm.trans (build_of_fault hcheck)
  | ok =>
      obtain ⟨e, he, hfields⟩ := exists_build hcheck
      cases h.symm.trans he
      exact ⟨rfl, hfields⟩

/-- Nothing but the check refuses a configuration. -/
theorem fault_of_build {e : DeviceError} (h : c.build = .error e) :
    ∃ fault, e = .config fault ∧ c.check = .error fault := by
  cases hcheck : c.check with
  | error fault =>
      cases h.symm.trans (build_of_fault hcheck)
      exact ⟨fault, rfl, rfl⟩
  | ok =>
      obtain ⟨d, hd, -⟩ := exists_build hcheck
      cases h.symm.trans hd

theorem contains_iff_of_build (h : c.build = .ok d) (q : Qubit) :
    d.contains q = true ↔ ∃ s ∈ c.layout.sites, (Qubit.site s == q) = true := by
  obtain ⟨-, -, hsites, -⟩ := of_build h
  rw [Device.contains_iff_of_sites hsites]
  simp only [List.mem_map, exists_exists_and_eq_and]

/-- A site of the layout is on the device, which therefore has sites. -/
theorem sites_ne_nil_of_build (h : c.build = .ok d) : d.sites ≠ [] := by
  obtain ⟨s, hs⟩ := List.exists_mem_of_ne_nil _ (sites_ne_nil (of_build h).1)
  have hon : d.contains (.site s) = true := (contains_iff_of_build h _).2 ⟨s, hs, BEq.rfl⟩
  obtain ⟨p, hp, -⟩ := Device.contains_iff.1 hon
  intro hnil
  rw [Device.qubits, hnil] at hp
  cases hp

/-- A configuration is built just when it passes its check, and what fails is the check alone, never
the construction of the device behind it. The device has the radius and the timings of the
configuration, and at least one site; the qubits on it are those equal to a site of the layout. The
configuration that lists these sites passes the check too, and its device is an equal one. -/
theorem build_iff_check (c : Config) :
    ((∃ d, c.build = .ok d) ↔ c.check = .ok ()) ∧
    (∀ fault, c.check = .error fault → c.build = .error (.config fault)) ∧
    (∀ e, c.build = .error e → ∃ fault, e = .config fault ∧ c.check = .error fault) ∧
    (c.check = .ok () → (Device.new? c.radius (c.layout.sites.map .site)).map
      (·.withTimings c.timings.toTimings) = c.build) ∧
    ∀ d, c.build = .ok d →
      d.sites ≠ [] ∧ d.radius = c.radius ∧ d.timings = c.timings.toTimings ∧
      (∀ q, d.contains q = true ↔ ∃ s ∈ c.layout.sites, (Qubit.site s == q) = true) ∧
      c.expand.check = .ok () ∧ ∃ listed, c.expand.build = .ok listed ∧ (listed == d) = true := by
  refine ⟨?_, fun fault => build_of_fault, fun e => fault_of_build, new?_of_check, ?_⟩
  · constructor
    · rintro ⟨d, hd⟩
      exact (of_build hd).1
    · intro h
      obtain ⟨d, hd, -⟩ := exists_build h
      exact ⟨d, hd⟩
  · intro d hd
    obtain ⟨hcheck, hradius, -, htimings⟩ := of_build hd
    have hlisted : c.expand.build = .ok d := (build_expand hcheck).trans hd
    exact ⟨sites_ne_nil_of_build hd, hradius, htimings, contains_iff_of_build hd,
      check_expand hcheck, d, hlisted, d.beq_self⟩

end AtomArray.Config
