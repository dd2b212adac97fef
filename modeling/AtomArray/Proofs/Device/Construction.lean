import AtomArray.Device.Data
import AtomArray.Proofs.Config.Building
import AtomArray.Proofs.Traversal

/-! How devices come about: which qubits and radii are refused, in what order, and which sites a
device has in the end, whichever way it was made. -/

namespace AtomArray

namespace Qubit

def IsSite (q : Qubit) : Prop := ∃ s, q = .site s

/-- The first of some qubits that is no site. -/
def FirstForeign (q : Qubit) (qs : List Qubit) : Prop :=
  ∃ before after, qs = before ++ q :: after ∧ (∀ p ∈ before, p.IsSite) ∧ ¬ q.IsSite

variable {q : Qubit} {qs : List Qubit} {s t : Site} {sites : List Site}

theorem site_beq_site : (Qubit.site s == .site t) = (s == t) := by
  rw [Bool.eq_iff_iff, beq_iff_identity_eq, Site.beq_iff_place_eq, identity, identity,
    Identity.place.injEq]

theorem map_site_filterMap (h : ∀ q ∈ qs, q.IsSite) : (qs.filterMap site?).map .site = qs := by
  induction qs with
  | nil => rfl
  | cons q rest ih =>
      obtain ⟨⟨s, rfl⟩, hrest⟩ := List.forall_mem_cons.1 h
      exact congrArg (Qubit.site s :: ·) (ih hrest)

theorem filterMap_map_site (sites : List Site) : (sites.map .site).filterMap site? = sites := by
  rw [List.filterMap_map]
  exact List.filterMap_some

theorem find?_map_site :
    (sites.map Qubit.site).find? (· == .site s) = (sites.find? (· == s)).map .site := by
  rw [List.find?_map]
  congr 2
  funext t
  exact site_beq_site

theorem forall_isSite_or_exists_foreign (qs : List Qubit) :
    (∀ q ∈ qs, q.IsSite) ∨ ∃ q, FirstForeign q qs := by
  induction qs with
  | nil => exact .inl (List.forall_mem_nil _)
  | cons q rest ih =>
      by_cases hq : q.IsSite
      · rcases ih with hrest | ⟨p, before, after, rfl, hbefore, hp⟩
        · exact .inl (List.forall_mem_cons.2 ⟨hq, hrest⟩)
        · exact .inr ⟨p, q :: before, after, rfl, List.forall_mem_cons.2 ⟨hq, hbefore⟩, hp⟩
      · exact .inr ⟨q, [], rest, rfl, List.forall_mem_nil _, hq⟩

/-- What a set of sites keeps of some qubits: of those equal to one of them, the first. -/
theorem exists_first_of_collects {kept : List Site} (hsites : ∀ q ∈ qs, q.IsSite)
    (h : Site.Collects (qs.filterMap site?) kept) (hq : q ∈ qs) :
    ∃ s, qs.find? (· == q) = some (.site s) ∧
      ∀ t, t ∈ kept ∧ (Qubit.site t == q) = true ↔ t = s := by
  obtain ⟨u, rfl⟩ := hsites q hq
  obtain ⟨s, hs, hfind, hunique⟩ := h.exists_first (List.mem_filterMap.2 ⟨_, hq, rfl⟩)
  have hbeq : (s == u) = true := List.find?_some (p := (· == u)) hfind
  refine ⟨s, ?_, ?_⟩
  · rw [← map_site_filterMap hsites, find?_map_site, hfind]
    rfl
  · intro t
    rw [site_beq_site]
    constructor
    · rintro ⟨ht, htu⟩
      exact hunique t ht htu
    · rintro rfl
      exact ⟨hs, hbeq⟩

end Qubit

namespace Device

open Qubit (IsSite FirstForeign)

variable {d : Device} {q : Qubit} {qs : List Qubit} {radius : Float} {sites : List Site}

theorem sitesOf?_of_foreign (h : FirstForeign q qs) :
    sitesOf? qs = .error (.unsupportedQubitType q) := by
  obtain ⟨before, after, rfl, hbefore, hq⟩ := h
  induction before with
  | nil =>
      cases q with
      | site s => exact absurd ⟨s, rfl⟩ hq
      | line n => rfl
      | named name => rfl
  | cons p rest ih =>
      obtain ⟨⟨s, rfl⟩, hrest⟩ := List.forall_mem_cons.1 hbefore
      rw [List.cons_append, sitesOf?, ih hrest]
      rfl

theorem new?_of_foreign (h : FirstForeign q qs) :
    new? radius qs = .error (.unsupportedQubitType q) := by
  rw [new?, sitesOf?_of_foreign h]
  rfl

theorem new?_of_sites (h : ∀ q ∈ qs, q.IsSite) :
    new? radius qs = onSites? radius (qs.filterMap Qubit.site?) := by
  rw [← new?_map_site, Qubit.map_site_filterMap h]

/-- What comes of a radius and some qubits, which are judged before the radius. -/
inductive Made (radius : Float) (qs : List Qubit) : Except DeviceError Device → Prop
  | foreign {q : Qubit} (first : FirstForeign q qs) :
      Made radius qs (.error (.unsupportedQubitType q))
  | badRadius (sites : ∀ q ∈ qs, q.IsSite) (radius_bad : isRadius radius = false) :
      Made radius qs (.error (.invalidRadius radius))
  | device {d : Device} (sites : ∀ q ∈ qs, q.IsSite) (radius_ok : isRadius radius = true)
      (radius_eq : d.radius = radius)
      (sites_eq : d.sites = Site.ascending (qs.filterMap Qubit.site?))
      (timings_eq : d.timings = .standard) : Made radius qs (.ok d)

theorem made_new? (radius : Float) (qs : List Qubit) : Made radius qs (new? radius qs) := by
  rcases Qubit.forall_isSite_or_exists_foreign qs with hsites | ⟨q, hforeign⟩
  · rw [new?_of_sites hsites]
    cases hradius : isRadius radius with
    | false =>
        rw [onSites?_of_not_isRadius hradius]
        exact .badRadius hsites hradius
    | true =>
        obtain ⟨d, hd, hfields⟩ := onSites?_of_isRadius hradius (qs.filterMap Qubit.site?)
        rw [hd]
        exact .device hsites hradius hfields.1 hfields.2.1 hfields.2.2
  · rw [new?_of_foreign hforeign]
    exact .foreign hforeign

theorem Made.of_eq {result : Except DeviceError Device} (h : new? radius qs = result) :
    Made radius qs result := by
  rw [← h]
  exact made_new? radius qs

theorem new?_eq_foreign_iff :
    new? radius qs = .error (.unsupportedQubitType q) ↔ FirstForeign q qs := by
  refine ⟨?_, new?_of_foreign⟩
  intro h
  cases Made.of_eq h with
  | foreign first => exact first

theorem new?_eq_invalidRadius_iff {r : Float} : new? radius qs = .error (.invalidRadius r) ↔
    (∀ q ∈ qs, q.IsSite) ∧ (radius.isFinite = false ∨ radius ≤ 0) ∧ r = radius := by
  rw [← isRadius_eq_false_iff]
  constructor
  · intro h
    cases Made.of_eq h with
    | badRadius sites radius_bad => exact ⟨sites, radius_bad, rfl⟩
  · rintro ⟨hsites, hradius, rfl⟩
    rw [new?_of_sites hsites, onSites?_of_not_isRadius hradius]

theorem exists_new?_iff : (∃ d, new? radius qs = .ok d) ↔
    (∀ q ∈ qs, q.IsSite) ∧ ¬ (radius.isFinite = false ∨ radius ≤ 0) := by
  rw [← isRadius_eq_false_iff, Bool.not_eq_false]
  constructor
  · rintro ⟨d, h⟩
    cases Made.of_eq h with
    | device sites radius_ok => exact ⟨sites, radius_ok⟩
  · rintro ⟨hsites, hradius⟩
    obtain ⟨d, hd, -⟩ := onSites?_of_isRadius hradius (qs.filterMap Qubit.site?)
    exact ⟨d, (new?_of_sites hsites).trans hd⟩

/-! Whichever way a device is made, it comes from a radius and some sites. -/

/-- What the record in front of a text says of the radius and the sites. -/
def Recorded (text : String) (radius : Float) (sites : List Site) : Prop :=
  ∃ value rest timings, Json.readFront? text.toList = some (value, rest) ∧
    recordOf? value = some (radius, sites, timings)

theorem of_ofRecord? {timings : TimingRecord} (h : ofRecord? radius sites timings = .ok d) :
    isRadius radius = true ∧ d.radius = radius ∧ d.sites = Site.ascending sites := by
  unfold ofRecord? at h
  cases hcheck : timings.check with
  | error fault =>
      rw [hcheck] at h
      cases h
  | ok =>
      rw [hcheck] at h
      obtain ⟨e, he, rfl⟩ := Traversal.map_eq_ok_iff.1 h
      obtain ⟨hradius, hradius_eq, hsites, -⟩ := of_onSites? he
      exact ⟨hradius, hradius_eq, hsites⟩

theorem of_ofText? {text : String} (h : ofText? text = .ok d) : ∃ value rest radius sites timings,
    Json.readFront? text.toList = some (value, rest) ∧
      recordOf? value = some (radius, sites, timings) ∧ ofRecord? radius sites timings = .ok d := by
  obtain ⟨⟨value, rest⟩, hread, h⟩ := Traversal.bind_eq_ok_iff.1 h
  obtain ⟨⟨radius, sites, timings⟩, hrecord, h⟩ := Traversal.bind_eq_ok_iff.1 h
  refine ⟨value, rest, radius, sites, timings, ReadError.ofOption_eq_ok_iff.1 hread,
    ReadError.ofOption_eq_ok_iff.1 hrecord, ?_⟩
  dsimp only at h
  cases hdevice : ofRecord? radius sites timings with
  | error e =>
      rw [hdevice] at h
      cases h
  | ok device =>
      rw [hdevice] at h
      dsimp only at h
      split_ifs at h
      cases h
      rfl

/-- The ways to a device: from qubits, from a configuration, from a text, and from another device by
giving it timings or a strategy. -/
inductive Built : Float → List Site → Device → Prop
  | new {radius : Float} {qs : List Qubit} {d : Device} :
      new? radius qs = .ok d → Built radius (qs.filterMap Qubit.site?) d
  | config {c : Config} {d : Device} : c.build = .ok d → Built c.radius c.layout.sites d
  | text {text : String} {radius : Float} {sites : List Site} {d : Device} :
      Recorded text radius sites → ofText? text = .ok d → Built radius sites d
  | withTimings {radius : Float} {sites : List Site} {d : Device} (timings : Timings) :
      Built radius sites d → Built radius sites (d.withTimings timings)
  | withStrategy {radius : Float} {sites : List Site} {d : Device} (strategy : Strategy) :
      Built radius sites d → Built radius sites (d.withStrategy strategy)

theorem built_of_text {text : String} (h : ofText? text = .ok d) :
    ∃ radius sites, Recorded text radius sites ∧ Built radius sites d := by
  obtain ⟨value, rest, radius, sites, timings, hread, hrecord, -⟩ := of_ofText? h
  have hrecorded : Recorded text radius sites := ⟨value, rest, timings, hread, hrecord⟩
  exact ⟨radius, sites, hrecorded, .text hrecorded h⟩

/-- Every device that there is can be built. -/
theorem built_self (d : Device) : Built d.radius d.sites d := by
  have hnew : new? d.radius d.qubits = .ok ⟨d.radius, Site.ascending d.sites, .standard, .standard,
      d.radius_ok, Site.ascending_ascending d.sites⟩ := by
    rw [qubits, new?_map_site]
    exact dif_pos d.radius_ok
  have hbuilt := (Built.new hnew).withTimings d.timings |>.withStrategy d.strategy
  rw [qubits, Qubit.filterMap_map_site] at hbuilt
  simpa only [withTimings, withStrategy, Site.ascending_of_ascending d.ascending] using hbuilt

theorem Built.fields (h : Built radius sites d) :
    isRadius radius = true ∧ d.radius = radius ∧ d.sites = Site.ascending sites := by
  induction h with
  | @new radius qs d hnew =>
      cases Made.of_eq hnew with
      | device _ radius_ok radius_eq sites_eq => exact ⟨radius_ok, radius_eq, sites_eq⟩
  | config hbuild =>
      obtain ⟨hcheck, hradius, hsites, -⟩ := Config.of_build hbuild
      exact ⟨(Config.check_eq_ok hcheck).1, hradius, hsites⟩
  | text hrecorded htext =>
      obtain ⟨value, rest, timings, hread, hrecord⟩ := hrecorded
      obtain ⟨_, _, _, _, _, hread', hrecord', hdevice⟩ := of_ofText? htext
      cases hread.symm.trans hread'
      cases hrecord.symm.trans hrecord'
      exact of_ofRecord? hdevice
  | withTimings timings _ ih => exact ih
  | withStrategy strategy _ ih => exact ih

theorem Built.collects (h : Built radius sites d) :
    d.radius = radius ∧ radius.isFinite = true ∧ 0 < radius ∧ Site.Collects sites d.sites := by
  obtain ⟨hradius, hradius_eq, hsites⟩ := h.fields
  obtain ⟨hfinite, hpos⟩ := isRadius_eq_true_iff.1 hradius
  exact ⟨hradius_eq, hfinite, hpos, hsites ▸ Site.collects_ascending sites⟩

/-- A device made of qubits in another order is an equal one. -/
theorem new?_perm {ps : List Qubit} (h : new? radius qs = .ok d) (hperm : qs.Perm ps) :
    ∃ e, new? radius ps = .ok e ∧ (e == d) = true := by
  cases Made.of_eq h with
  | device sites radius_ok radius_eq sites_eq timings_eq =>
      obtain ⟨e, he, hradius, hsites, htimings⟩ :=
        onSites?_of_isRadius radius_ok (ps.filterMap Qubit.site?)
      refine ⟨e, ?_, ?_⟩
      · rw [new?_of_sites fun p hp => sites p (hperm.mem_iff.2 hp), he]
      · exact beq_of_perm (hradius.trans radius_eq.symm) (htimings.trans timings_eq.symm) hsites
          sites_eq (hperm.symm.filterMap _)

/-- The first qubit that is no site is refused, whatever the radius, and then a radius that is not
finite or not positive. Without these there is a device. It has its sites in ascending order, for
each given qubit the first that is equal to it and no other, and only qubits equal to a given one
are on it; another order of the qubits leads to an equal device. Whether a device is made of qubits,
built from a configuration or read from a text, and whichever timings and strategies it gets later,
its radius is finite and positive and it has the set of the sites that it was made on. -/
theorem new?_construction (radius : Float) (qs : List Qubit) :
    (∀ q, new? radius qs = .error (.unsupportedQubitType q) ↔ FirstForeign q qs) ∧
    (∀ r, new? radius qs = .error (.invalidRadius r) ↔
      (∀ q ∈ qs, q.IsSite) ∧ (radius.isFinite = false ∨ radius ≤ 0) ∧ r = radius) ∧
    ((∃ d, new? radius qs = .ok d) ↔
      (∀ q ∈ qs, q.IsSite) ∧ ¬ (radius.isFinite = false ∨ radius ≤ 0)) ∧
    (∀ d, new? radius qs = .ok d →
      d.radius = radius ∧ Site.Ascending d.sites ∧
      (∀ q ∈ qs, ∃ s, qs.find? (· == q) = some (.site s) ∧
        ∀ t, t ∈ d.sites ∧ (Qubit.site t == q) = true ↔ t = s) ∧
      (∀ q, d.contains q = true ↔ ∃ p ∈ qs, (p == q) = true) ∧
      ∀ ps, qs.Perm ps → ∃ e, new? radius ps = .ok e ∧ (e == d) = true) ∧
    (∀ radius sites d, Built radius sites d →
      d.radius = radius ∧ radius.isFinite = true ∧ 0 < radius ∧ Site.Collects sites d.sites) ∧
    ∀ text d, ofText? text = .ok d →
      ∃ radius sites, Recorded text radius sites ∧ Built radius sites d := by
  refine ⟨fun q => new?_eq_foreign_iff, fun r => new?_eq_invalidRadius_iff, exists_new?_iff, ?_,
    fun radius sites d h => h.collects, fun text d => built_of_text⟩
  intro d hd
  have hsites := (exists_new?_iff.1 ⟨d, hd⟩).1
  have hbuilt := Built.new hd
  obtain ⟨hradius, -, -, hcollects⟩ := hbuilt.collects
  refine ⟨hradius, hcollects.ascending, ?_, ?_, fun ps => new?_perm hd⟩
  · intro q hq
    exact Qubit.exists_first_of_collects hsites hcollects hq
  · intro q
    rw [contains_iff_of_sites hbuilt.fields.2.2, Qubit.map_site_filterMap hsites]

end Device
end AtomArray
