import AtomArray.Config
import AtomArray.Proofs.Device.OnSites
import AtomArray.Proofs.Site.Lattice

/-! Counting the sites of a layout: what the count promises, and when the device has that many. -/

namespace AtomArray

namespace Layout

/-- The coordinates of the extent are distinct to nine decimals. -/
def Extent.Apart (e : Extent) : Prop := Lattice.Apart e.offset e.length.toNat

/-- An extent of several coordinates has both ends where doubles tell neighbours apart. -/
def Extent.InRange (e : Extent) : Prop :=
  1 < e.length.toNat →
    Site.InRange e.offset.toInt ∧ Site.InRange (e.offset.toInt + e.length.toNat - 1)

/-- The axes of a dense layout. -/
def extents : Layout → List Extent
  | .box rows cols lays top left upper => [⟨.x, top, rows⟩, ⟨.y, left, cols⟩, ⟨.z, upper, lays⟩]
  | .cube diameter top left upper =>
    [⟨.x, top, diameter⟩, ⟨.y, left, diameter⟩, ⟨.z, upper, diameter⟩]
  | .rect rows cols top left => [⟨.x, top, rows⟩, ⟨.y, left, cols⟩]
  | .square diameter top left => [⟨.x, top, diameter⟩, ⟨.y, left, diameter⟩]
  | .triangular _ _ _ => []
  | .explicit _ => []

/-- No two sites of the layout are the same: along no axis of a dense layout, and no two points of
a packing. -/
def KeepsApart : Layout → Prop
  | .triangular size top left =>
    ∀ i ≤ size.toNat, ∀ j ≤ size.toNat, ∀ i' ≤ size.toNat, ∀ j' ≤ size.toNat,
      (Lattice.triangularSite top left i j).place = (Lattice.triangularSite top left i' j').place →
      i = i' ∧ j = j'
  | .explicit sites => (sites.map Site.place).Nodup
  | layout => ∀ e ∈ layout.extents, e.Apart

/-- Generated layouts whose coordinates are small enough for doubles. -/
def InRange : Layout → Prop
  | .triangular size top left =>
    Lattice.Moderate top size.toNat ∧ Lattice.Moderate left size.toNat
  | .explicit _ => False
  | layout => ∀ e ∈ layout.extents, e.InRange

variable {layout : Layout} {k n : ℕ}

theorem checkLimit_eq_ok_iff : checkLimit k = .ok n ↔ k = n ∧ k ≤ maxLayoutSites := by
  unfold checkLimit
  split_ifs with h
  · simp [h]
  · simp [not_lt.1 h]

theorem countFrom_eq_ok {es : List Extent} (h : countFrom k es = .ok n) :
    n = k * (es.map fun e => e.length.toNat).prod := by
  induction es generalizing k with
  | nil =>
      obtain ⟨rfl, -⟩ := checkLimit_eq_ok_iff.1 h
      simp
  | cons e rest ih =>
      unfold countFrom at h
      dsimp only at h
      split_ifs at h
      rw [ih h, List.map_cons, List.prod_cons, mul_assoc]

theorem countGrid_eq_ok {es : List Extent} (h : countGrid es = .ok n) :
    n = (es.map fun e => e.length.toNat).prod := by
  rw [countFrom_eq_ok h, one_mul]

theorem siteCount_triangular {size : UInt32} {top left : Float}
    (h : (triangular size top left).siteCount = .ok n) :
    n = (size.toNat + 1) * (size.toNat + 1) ∧ n ≤ maxLayoutSites := by
  unfold siteCount at h
  dsimp only at h
  split_ifs at h with hoffsets hword
  obtain ⟨hcount, hlimit⟩ := checkLimit_eq_ok_iff.1 h
  exact ⟨hcount.symm, hcount ▸ hlimit⟩

/-- The count is that of the list. -/
theorem length_sites (h : layout.siteCount = .ok n) : layout.sites.length = n := by
  cases layout with
  | box rows cols lays top left upper =>
      rw [countGrid_eq_ok h]
      simp [sites, Lattice.box, mul_assoc]
  | cube diameter top left upper =>
      rw [countGrid_eq_ok h]
      simp [sites, Lattice.cube, Lattice.box, mul_assoc]
  | rect rows cols top left =>
      rw [countGrid_eq_ok h]
      simp [sites, Lattice.rect, Lattice.box]
  | square diameter top left =>
      rw [countGrid_eq_ok h]
      simp [sites, Lattice.square, Lattice.rect, Lattice.box]
  | triangular size top left =>
      rw [(siteCount_triangular h).1]
      simp [sites, Lattice.triangular]
  | explicit sites =>
      cases h
      rfl

theorem nodup_sites_iff (h : layout.sites ≠ []) :
    (layout.sites.map Site.place).Nodup ↔ layout.KeepsApart := by
  have hbox : ∀ {rows cols lays : UInt32} {top left upper : Int64},
      Lattice.box rows cols lays top left upper ≠ [] →
      0 < rows.toNat * cols.toNat * lays.toNat := by
    intro rows cols lays top left upper hne
    simpa [Lattice.box, Nat.pos_iff_ne_zero] using hne
  cases layout with
  | box rows cols lays top left upper =>
      refine (Lattice.nodup_box_iff (hbox h)).trans ?_
      simp [KeepsApart, extents, Extent.Apart]
  | cube diameter top left upper =>
      refine (Lattice.nodup_box_iff (hbox h)).trans ?_
      simp [KeepsApart, extents, Extent.Apart]
  | rect rows cols top left =>
      refine (Lattice.nodup_box_iff (hbox h)).trans ?_
      simp [KeepsApart, extents, Extent.Apart, Lattice.apart_one]
  | square diameter top left =>
      refine (Lattice.nodup_box_iff (hbox h)).trans ?_
      simp [KeepsApart, extents, Extent.Apart, Lattice.apart_one]
  | triangular size top left => exact Lattice.nodup_triangular_iff
  | explicit sites => exact Iff.rfl

theorem Extent.apart_of_inRange {e : Extent} (h : e.InRange) : e.Apart := by
  by_cases hlength : 1 < e.length.toNat
  · exact Lattice.apart_of_inRange e.length.toNat_lt (h hlength).1 (h hlength).2
  · intro i hi j hj _
    omega

theorem keepsApart_of_inRange (hcount : layout.siteCount = .ok n) (h : layout.InRange) :
    layout.KeepsApart := by
  cases layout with
  | triangular size top left =>
      obtain ⟨hn, hlimit⟩ := siteCount_triangular hcount
      have hsize : size.toNat < 2 ^ 10 := by
        have hmax : maxLayoutSites = 2 ^ 20 := rfl
        by_contra hlarge
        have : (2 ^ 10 + 1) * (2 ^ 10 + 1) ≤ n := by
          rw [hn]
          exact Nat.mul_le_mul (by omega) (by omega)
        omega
      intro i hi j hj i' hi' j' hj' heq
      exact Lattice.triangularSite_inj h.1 h.2 hsize hi hj hi' hj' heq
  | explicit sites => exact h.elim
  | _ =>
      intro e he
      exact Extent.apart_of_inRange (h e he)

end Layout

namespace Config

variable {c : Config}

theorem check_eq_ok_iff : c.check = .ok () ↔ isRadius c.radius = true ∧
    (∃ n, c.layout.siteCount = .ok n ∧ n ≠ 0) ∧ c.timings.check = .ok () := by
  unfold check
  cases hradius : isRadius c.radius with
  | false => exact iff_of_false (nomatch ·) (fun h => nomatch h.1)
  | true =>
      cases hcount : c.layout.siteCount with
      | error fault => exact iff_of_false (nomatch ·) (fun h => nomatch h.2.1)
      | ok n =>
          cases n with
          | zero =>
              refine iff_of_false (nomatch ·) ?_
              rintro ⟨-, ⟨n, hn, hpos⟩, -⟩
              cases hn
              exact hpos rfl
          | succ n =>
              refine Iff.symm ((and_iff_right rfl).trans (and_iff_right ?_))
              exact ⟨n + 1, rfl, Nat.succ_ne_zero n⟩

theorem check_eq_ok (h : c.check = .ok ()) :
    isRadius c.radius = true ∧ ∃ n, c.layout.siteCount = .ok n ∧ n ≠ 0 := by
  obtain ⟨hradius, hcount, -⟩ := check_eq_ok_iff.1 h
  exact ⟨hradius, hcount⟩

/-- A configuration that passes its check is built on the sites of its layout. Its radius is one for
devices too. -/
theorem exists_build (h : c.check = .ok ()) : ∃ d, c.build = .ok d ∧ d.radius = c.radius ∧
    d.sites = Site.ascending c.layout.sites ∧ d.timings = c.timings.toTimings := by
  obtain ⟨d, hd, hradius, hsites, -⟩ :=
    Device.onSites?_of_isRadius (check_eq_ok h).1 c.layout.sites
  refine ⟨d.withTimings c.timings.toTimings, ?_, hradius, hsites, rfl⟩
  rw [build, h, hd]
  rfl

theorem build_of_check (h : c.check = .ok ()) :
    ∃ d, c.build = .ok d ∧ d.sites = Site.ascending c.layout.sites := by
  obtain ⟨d, hbuild, -, hsites, -⟩ := exists_build h
  exact ⟨d, hbuild, hsites⟩

theorem size_le_siteCount {d : Device} {n : ℕ} (hd : d.sites = Site.ascending c.layout.sites)
    (hn : c.layout.siteCount = .ok n) : d.size ≤ n := by
  rw [Device.size, hd, ← Layout.length_sites hn]
  exact Site.length_ascending_le

theorem size_eq_siteCount_iff {d : Device} {n : ℕ}
    (hd : d.sites = Site.ascending c.layout.sites) (hn : c.layout.siteCount = .ok n)
    (hpos : n ≠ 0) : d.size = n ↔ c.layout.KeepsApart := by
  have hne : c.layout.sites ≠ [] := by
    intro hnil
    have hlength := Layout.length_sites hn
    rw [hnil] at hlength
    exact hpos hlength.symm
  rw [← Layout.nodup_sites_iff hne, ← Site.length_ascending_eq_iff, ← hd, Layout.length_sites hn]
  rfl

/-- The device of a checked configuration has at most the counted sites. It has all of them just
when no two sites of the layout are rounded to the same place, as none are while the coordinates
are small enough for doubles. -/
theorem build_size (h : c.check = .ok ()) :
    ∃ d n, c.build = .ok d ∧ c.layout.siteCount = .ok n ∧ d.size ≤ n ∧
      (d.size = n ↔ c.layout.KeepsApart) ∧ (c.layout.InRange → d.size = n) := by
  obtain ⟨d, hbuild, hd⟩ := build_of_check h
  obtain ⟨-, n, hn, hpos⟩ := check_eq_ok h
  have hiff := size_eq_siteCount_iff hd hn hpos
  refine ⟨d, n, hbuild, hn, size_le_siteCount hd hn, hiff, ?_⟩
  intro hrange
  exact hiff.2 (Layout.keepsApart_of_inRange hn hrange)

/-- Two sites in a row, a unit apart. -/
def pairAt (top : Int64) : Config := .ofLayout (.rect 2 1 top 0)

theorem check_pairAt_edge : (pairAt 4835703278458515).check = .ok () := by rfl

theorem check_pairAt_beyond : (pairAt 4835703278458528).check = .ok () := by rfl

theorem inRange_pairAt_edge : (pairAt 4835703278458515).layout.InRange := by
  intro e he
  obtain rfl | rfl : e = ⟨.x, 4835703278458515, 2⟩ ∨ e = ⟨.y, 0, 1⟩ := by
    simpa [pairAt, ofLayout, Layout.extents] using he
  · intro _
    constructor <;> rw [Site.inRange_iff] <;> decide
  · intro hlength
    exact absurd hlength (by decide)

/-- The last pair in range has its two sites. -/
theorem build_size_pairAt_edge : ∃ d, (pairAt 4835703278458515).build = .ok d ∧ d.size = 2 := by
  obtain ⟨d, n, hbuild, hn, -, -, hsize⟩ := build_size check_pairAt_edge
  cases hn
  exact ⟨d, hbuild, hsize inRange_pairAt_edge⟩

theorem not_keepsApart_pairAt_beyond : ¬ (pairAt 4835703278458528).layout.KeepsApart := by
  intro h
  have hsame : Site.roundAxis (Lattice.coordinate 4835703278458528 0) =
      Site.roundAxis (Lattice.coordinate 4835703278458528 1) := by decide +kernel
  have hapart := h ⟨.x, 4835703278458528, 2⟩ List.mem_cons_self
  have hzero := hapart 0 (by decide) 1 (by decide) hsame
  cases hzero

/-- A pair twelve units further on is accepted, and its two sites are one. -/
theorem not_build_size_eq_siteCount : ¬ ∀ c : Config, (∀ sites, c.layout ≠ .explicit sites) →
    c.check = .ok () →
    ∃ d n, c.build = .ok d ∧ c.layout.siteCount = .ok n ∧ d.size = n := by
  intro h
  obtain ⟨d, n, hbuild, hn, hsize⟩ := h (pairAt 4835703278458528)
    (fun sites hlayout => by cases hlayout) check_pairAt_beyond
  obtain ⟨d', hbuild', hd⟩ := build_of_check check_pairAt_beyond
  rw [hbuild] at hbuild'
  cases hbuild'
  cases hn
  exact not_keepsApart_pairAt_beyond ((size_eq_siteCount_iff hd rfl (by decide)).1 hsize)

end Config

end AtomArray
