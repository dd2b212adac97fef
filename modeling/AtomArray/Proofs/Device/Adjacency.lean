import AtomArray.CommandLine.Outcome
import AtomArray.Proofs.Device.Neighbors

/-! Neighbours on a device, taken two by two: the relation is symmetric, no site is its own
neighbour, and the counts of neighbours that are listed add up to an even number. -/

namespace AtomArray

section Pairs

variable {α : Type} (r : α → α → Bool)

/-- One more element to be counted adds to the counts what it is counted for. -/
theorem sum_countP_cons (a : α) (others l : List α) :
    (l.map fun b => (a :: others).countP (r b)).sum =
      (l.map fun b => others.countP (r b)).sum + l.countP fun b => r b a := by
  induction l with
  | nil => rfl
  | cons b rest ih =>
      rw [List.map_cons, List.sum_cons, ih, List.map_cons, List.sum_cons, List.countP_cons,
        List.countP_cons]
      omega

/-- A symmetric relation counts every pair of a list from both of its ends, and one that is
irreflexive counts nothing else. -/
theorem even_sum_countP (hself : ∀ a, r a a = false) (hcomm : ∀ a b, r a b = r b a)
    (l : List α) : Even (l.map fun a => l.countP (r a)).sum := by
  induction l with
  | nil => exact Even.zero
  | cons a rest ih =>
      have hfirst : (a :: rest).countP (r a) = rest.countP (r a) :=
        List.countP_cons_of_neg (by rw [hself]; exact Bool.false_ne_true)
      have hsame : (rest.countP fun b => r b a) = rest.countP (r a) := by
        simp only [hcomm _ a]
      rw [List.map_cons, List.sum_cons, hfirst, sum_countP_cons, hsame, add_left_comm]
      exact ih.add (Even.add_self _)

end Pairs

namespace Device

variable {d : Device} {a b s q : Site}

/-- Whether a site is another one within the radius. -/
def reaches (d : Device) (a b : Site) : Bool := a.distance b ≤ d.radius && b != a

theorem reaches_iff : d.reaches a b = true ↔ (b == a) = false ∧ a.distance b ≤ d.radius := by
  rw [reaches, Bool.and_eq_true, decide_eq_true_iff, bne, Bool.not_eq_true', and_comm]

theorem reaches_comm (d : Device) (a b : Site) : d.reaches a b = d.reaches b a := by
  have hequal : (b == a) = (a == b) := by
    rw [Bool.eq_iff_iff, Site.beq_iff_place_eq, Site.beq_iff_place_eq, eq_comm]
  rw [reaches, reaches, Site.distance_comm, bne, bne, hequal]

theorem reaches_self (d : Device) (a : Site) : d.reaches a a = false := by
  have hself : (a == a) = true := Site.beq_iff_place_eq.2 rfl
  rw [reaches, bne, hself, Bool.not_true, Bool.and_false]

theorem mem_neighbors : b ∈ d.neighbors a ↔ b ∈ d.sites ∧ d.reaches a b = true := List.mem_filter

theorem mem_neighbors_comm (ha : a ∈ d.sites) (hb : b ∈ d.sites) :
    b ∈ d.neighbors a ↔ a ∈ d.neighbors b := by
  rw [mem_neighbors, mem_neighbors, and_iff_right hb, and_iff_right ha, reaches_comm]

theorem ascending_neighbors (d : Device) (q : Site) : Site.Ascending (d.neighbors q) :=
  d.ascending.filter _

/-- The number of neighbours of each site, in the order of the sites. -/
def neighborCounts (d : Device) : List ℕ := d.sites.map fun s => (d.neighbors s).length

theorem neighborCounts_eq (d : Device) :
    d.neighborCounts = d.sites.map fun a => d.sites.countP (d.reaches a) :=
  List.map_congr_left fun _ _ => List.countP_eq_length_filter.symm

theorem even_sum_neighborCounts (d : Device) : Even d.neighborCounts.sum := by
  rw [neighborCounts_eq]
  exact even_sum_countP d.reaches d.reaches_self d.reaches_comm d.sites

end Device

namespace CommandLine

/-- The line of a listing on a site and the number of its neighbours. -/
def siteLine (s : Site) (count : ℕ) : String :=
  "  " ++ padded 24 s.render ++ " " ++ toString count

/-- Below seven lines on the whole device there is one for each site, with its count. -/
theorem description_eq (path : String) (d : Device) : ∃ heading, heading.length = 7 ∧
    description path d = heading ++ List.zipWith siteLine d.sites d.neighborCounts := by
  have hlines : List.zipWith siteLine d.sites d.neighborCounts =
      d.sites.map fun s => siteLine s (d.neighbors s).length := by
    rw [Device.neighborCounts, List.zipWith_map_right, List.zipWith_self]
  rw [hlines]
  exact ⟨_, rfl, rfl⟩

theorem stdout_describe {folder : Folder} {radius : Option String} {path : String} {d : Device}
    (h : loadDevice? folder radius path = .ok d) :
    (describe folder radius path).stdout = unlines (description path d) := by
  rw [describe, h]
  rfl

end CommandLine

namespace Device

/-- Two sites of a device are neighbours of each other or not at all, and no site is its own. The
neighbours of any site, on the device or not, are the sites of the device other than it and within
the radius, in ascending order and each of them once. So the counts that a description of the
device prints, one in the line of each site, add up to an even number. -/
theorem neighbors_symmetric (d : Device) :
    (∀ a ∈ d.sites, ∀ b ∈ d.sites, b ∈ d.neighbors a ↔ a ∈ d.neighbors b) ∧
    (∀ a, ∀ b ∈ d.neighbors a, (b == a) = false) ∧
    (∀ q, (d.neighbors q).Sublist d.sites ∧ Site.Ascending (d.neighbors q) ∧
      ((d.neighbors q).map Site.place).Nodup ∧
      ∀ s, s ∈ d.neighbors q ↔ s ∈ d.sites ∧ (s == q) = false ∧ q.distance s ≤ d.radius) ∧
    Even d.neighborCounts.sum ∧
    ∀ folder radius path, CommandLine.loadDevice? folder radius path = .ok d →
      ∃ heading, heading.length = 7 ∧
        (CommandLine.describe folder radius path).stdout = CommandLine.unlines
          (heading ++ List.zipWith CommandLine.siteLine d.sites d.neighborCounts) := by
  refine ⟨?_, ?_, ?_, d.even_sum_neighborCounts, ?_⟩
  · intro a ha b hb
    exact mem_neighbors_comm ha hb
  · intro a b hb
    exact (reaches_iff.1 (mem_neighbors.1 hb).2).1
  · intro q
    have hascending := d.ascending_neighbors q
    refine ⟨List.filter_sublist, hascending, Site.nodup_places hascending, fun s => ?_⟩
    rw [mem_neighbors, reaches_iff]
  · intro folder radius path hload
    obtain ⟨heading, hlength, hlines⟩ := CommandLine.description_eq path d
    exact ⟨heading, hlength, (CommandLine.stdout_describe hload).trans (congrArg _ hlines)⟩

/-- The site in the middle of the line has two neighbours, and they have it. -/
theorem neighbors_symmetric_line :
    Site.onRow 0 ∈ line.sites ∧ Site.onRow 1 ∈ line.sites ∧
    Site.onRow 0 ∈ line.neighbors (.onRow 1) ∧ Site.onRow 1 ∈ line.neighbors (.onRow 0) ∧
    line.neighborCounts = [1, 2, 1] ∧ Even line.neighborCounts.sum := by
  have hfirst : Site.onRow 0 ∈ line.sites := List.mem_cons_self
  have hsecond : Site.onRow 1 ∈ line.sites := List.mem_cons_of_mem _ List.mem_cons_self
  have hmem : Site.onRow 1 ∈ line.neighbors (.onRow 0) :=
    mem_neighbors.2 ⟨hsecond, by decide +kernel⟩
  obtain ⟨hsymmetric, -, -, heven, -⟩ := neighbors_symmetric line
  exact ⟨hfirst, hsecond, (hsymmetric _ hfirst _ hsecond).1 hmem, hmem, by decide +kernel, heven⟩

end Device
end AtomArray
