import AtomArray.Proofs.Site.Finite

/-! Lattices as lists: which site stands where, and that nested loops over rows, columns and layers
put the same list together. -/

namespace AtomArray.Lattice

open Binary64

/-- The sites of a box, numbered by row, column and layer, of which the layer counts first. -/
structure Numbered (rows cols lays : ℕ) (point : ℕ → ℕ → ℕ → Site) (sites : List Site) :
    Prop where
  length_eq : sites.length = rows * cols * lays
  getElem?_eq : ∀ a < rows, ∀ b < cols, ∀ c < lays,
    sites[(a * cols + b) * lays + c]? = some (point a b c)

/-- The sites of a plane, numbered by row and column, of which the column counts first. -/
structure NumberedPlane (rows cols : ℕ) (point : ℕ → ℕ → Site) (sites : List Site) : Prop where
  length_eq : sites.length = rows * cols
  getElem?_eq : ∀ a < rows, ∀ b < cols, sites[a * cols + b]? = some (point a b)

/-- Counts up to a bound, from what was there before the first round. -/
def loop (n : ℕ) (round : List Site → ℕ → List Site) (start : List Site) : List Site :=
  (List.range n).foldl round start

/-- The sites of a box as three nested loops append them. -/
def looped (rows cols lays : ℕ) (point : ℕ → ℕ → ℕ → Site) : List Site :=
  loop rows (fun sites a => loop cols (fun sites b =>
    loop lays (fun sites c => sites ++ [point a b c]) sites) sites) []

/-- The sites of a plane as two nested loops append them. -/
def loopedPlane (rows cols : ℕ) (point : ℕ → ℕ → Site) : List Site :=
  loop rows (fun sites a => loop cols (fun sites b => sites ++ [point a b]) sites) []

variable {rows cols lays n k : ℕ} {point : ℕ → ℕ → ℕ → Site} {plane : ℕ → ℕ → Site}
  {sites sites' : List Site} {f : ℕ → List Site}

/-! A list of blocks of one length. -/

theorem loop_append (f : ℕ → List Site) (n : ℕ) (start : List Site) :
    loop n (fun sites i => sites ++ f i) start = start ++ (List.range n).flatMap f := by
  induction n with
  | zero => exact (List.append_nil start).symm
  | succ n ih =>
      rw [loop] at ih ⊢
      rw [List.range_succ, List.foldl_append, ih, List.flatMap_append, ← List.append_assoc]
      simp

theorem length_blocks (h : ∀ i, (f i).length = k) (n : ℕ) :
    ((List.range n).flatMap f).length = n * k := by
  induction n with
  | zero => simp
  | succ n ih =>
      rw [List.range_succ, List.flatMap_append, List.length_append, ih, List.flatMap_singleton, h,
        Nat.succ_mul]

/-- The block comes first and the place in the block second. -/
theorem getElem?_blocks (h : ∀ i, (f i).length = k) {i j : ℕ} (hi : i < n) (hj : j < k) :
    ((List.range n).flatMap f)[i * k + j]? = (f i)[j]? := by
  induction n with
  | zero => exact absurd hi (Nat.not_lt_zero i)
  | succ n ih =>
      have hlength := length_blocks h n
      rw [List.range_succ, List.flatMap_append, List.flatMap_singleton]
      rcases Nat.lt_succ_iff_lt_or_eq.1 hi with hi | rfl
      · have hlt : i * k + j < n * k := by nlinarith
        rw [List.getElem?_append_left (by omega), ih hi]
      · rw [List.getElem?_append_right (by omega), hlength, Nat.add_sub_cancel_left]

/-! What the loops append, block by block. -/

theorem loopedPlane_eq (rows cols : ℕ) (plane : ℕ → ℕ → Site) :
    loopedPlane rows cols plane =
      (List.range rows).flatMap fun a => (List.range cols).flatMap fun b => [plane a b] := by
  simp only [loopedPlane, loop_append, List.nil_append]

theorem looped_eq (rows cols lays : ℕ) (point : ℕ → ℕ → ℕ → Site) :
    looped rows cols lays point = (List.range rows).flatMap fun a =>
      (List.range cols).flatMap fun b => (List.range lays).flatMap fun c => [point a b c] := by
  simp only [looped, loop_append, List.nil_append]

theorem numberedPlane_loopedPlane (rows cols : ℕ) (plane : ℕ → ℕ → Site) :
    NumberedPlane rows cols plane (loopedPlane rows cols plane) := by
  rw [loopedPlane_eq]
  have hrow : ∀ a, ((List.range cols).flatMap fun b => [plane a b]).length = cols := by
    intro a
    rw [length_blocks fun b => List.length_singleton, Nat.mul_one]
  refine ⟨length_blocks hrow rows, ?_⟩
  intro a ha b hb
  have hsite := getElem?_blocks (f := fun b => [plane a b]) (fun _ => rfl) hb Nat.one_pos
  rw [getElem?_blocks hrow ha hb]
  simpa using hsite

theorem numbered_looped (rows cols lays : ℕ) (point : ℕ → ℕ → ℕ → Site) :
    Numbered rows cols lays point (looped rows cols lays point) := by
  rw [looped_eq]
  have hlayers := fun a => numberedPlane_loopedPlane cols lays (point a)
  simp only [loopedPlane_eq] at hlayers
  constructor
  · rw [length_blocks fun a => (hlayers a).length_eq, Nat.mul_assoc]
  · intro a ha b hb c hc
    have hplace : (a * cols + b) * lays + c = a * (cols * lays) + (b * lays + c) := by ring
    have hlt : b * lays + c < cols * lays := by nlinarith
    rw [hplace, getElem?_blocks (fun a => (hlayers a).length_eq) ha hlt]
    exact (hlayers a).getElem?_eq b hb c hc

/-! A list is determined by its numbering. -/

theorem Numbered.unique (h : Numbered rows cols lays point sites)
    (h' : Numbered rows cols lays point sites') : sites = sites' := by
  refine List.ext_getElem? fun i => ?_
  by_cases hi : i < rows * cols * lays
  · obtain ⟨a, ha, b, hb, c, hc, rfl⟩ := exists_index hi
    exact (h.getElem?_eq a ha b hb c hc).trans (h'.getElem?_eq a ha b hb c hc).symm
  · rw [List.getElem?_eq_none (by rw [h.length_eq]; omega),
      List.getElem?_eq_none (by rw [h'.length_eq]; omega)]

/-- A plane is a box of one layer. -/
theorem numberedPlane_iff : NumberedPlane rows cols plane sites ↔
    Numbered rows cols 1 (fun a b _ => plane a b) sites := by
  constructor
  · intro h
    refine ⟨by rw [h.length_eq, Nat.mul_one], ?_⟩
    intro a ha b hb c hc
    obtain rfl := Nat.lt_one_iff.1 hc
    rw [Nat.mul_one, Nat.add_zero]
    exact h.getElem?_eq a ha b hb
  · intro h
    refine ⟨by rw [h.length_eq, Nat.mul_one], ?_⟩
    intro a ha b hb
    have hsite := h.getElem?_eq a ha b hb 0 Nat.one_pos
    rwa [Nat.mul_one, Nat.add_zero] at hsite

theorem NumberedPlane.unique (h : NumberedPlane rows cols plane sites)
    (h' : NumberedPlane rows cols plane sites') : sites = sites' :=
  (numberedPlane_iff.1 h).unique (numberedPlane_iff.1 h')

theorem Numbered.iff_eq (h : Numbered rows cols lays point sites) :
    Numbered rows cols lays point sites' ↔ sites' = sites := by
  constructor
  · intro h'
    exact h'.unique h
  · rintro rfl
    exact h

theorem NumberedPlane.iff_eq (h : NumberedPlane rows cols plane sites) :
    NumberedPlane rows cols plane sites' ↔ sites' = sites := by
  rw [numberedPlane_iff]
  exact (numberedPlane_iff.1 h).iff_eq

/-! The lattices of the program. -/

/-- A site at whole distances from the corner of a box. -/
def boxPoint (top left upper : Int64) (a b c : ℕ) : Site :=
  ⟨coordinate top a, coordinate left b, coordinate upper c⟩

theorem numbered_box (rows cols lays : UInt32) (top left upper : Int64) :
    Numbered rows.toNat cols.toNat lays.toNat (boxPoint top left upper)
      (box rows cols lays top left upper) := by
  constructor
  · rw [box, List.length_map, List.length_range]
  · intro a ha b hb c hc
    have hlt := index_lt ha hb hc
    have hsite : boxSite cols.toNat lays.toNat top left upper _ = boxPoint top left upper a b c :=
      boxSite_index hb hc
    rw [box, List.getElem?_map]
    change ((List.range _)[index cols.toNat lays.toNat a b c]?).map _ = _
    rw [List.getElem?_range hlt, Option.map_some, hsite]

/-- A site at whole distances from the corner of a rectangle. -/
def rectPoint (top left : Int64) (a b : ℕ) : Site := ⟨coordinate top a, coordinate left b, 0⟩

theorem numberedPlane_rect (rows cols : UInt32) (top left : Int64) :
    NumberedPlane rows.toNat cols.toNat (rectPoint top left) (rect rows cols top left) := by
  have hzero : coordinate 0 0 = 0 := by decide +kernel
  have hbox := numbered_box rows cols 1 top left 0
  refine numberedPlane_iff.2 ⟨hbox.length_eq, ?_⟩
  intro a ha b hb c hc
  obtain rfl := Nat.lt_one_iff.1 hc
  rw [rectPoint, ← hzero]
  exact hbox.getElem?_eq a ha b hb 0 hc

/-- Half the remainder of the column is the shift of every other row. -/
theorem shift_eq (j : ℕ) : shift j = (UInt64.ofNat (j % 2)).toFloat / 2 := by
  unfold shift
  rcases Nat.mod_two_eq_zero_or_one j with hj | hj <;> rw [hj] <;> decide +kernel

/-- A point of a packing, by its row and its column. -/
def packingPoint (top left : Float) (i j : ℕ) : Site :=
  ⟨(UInt64.ofNat i).toFloat + (UInt64.ofNat (j % 2)).toFloat / 2 + top,
    (UInt64.ofNat j).toFloat * (Float.sqrt 3 / 2) + left, 0⟩

theorem triangularSite_eq (top left : Float) (i j : ℕ) :
    triangularSite top left i j = packingPoint top left i j := by
  have hsite : triangularSite top left i j =
      ⟨(UInt64.ofNat i).toFloat + shift j + top, (UInt64.ofNat j).toFloat * rowHeight + left, 0⟩ :=
    rfl
  rw [hsite, shift_eq]
  rfl

theorem numberedPlane_triangular (size : UInt32) (top left : Float) :
    NumberedPlane (size.toNat + 1) (size.toNat + 1) (packingPoint top left)
      (triangular size top left) := by
  obtain ⟨side, hside⟩ : ∃ side, size.toNat + 1 = side := ⟨_, rfl⟩
  have hlist : triangular size top left =
      (List.range (side * side)).map fun n => triangularSite top left (n / side) (n % side) := by
    rw [← hside]
    rfl
  rw [hside, hlist]
  constructor
  · rw [List.length_map, List.length_range]
  · intro i hi j hj
    have hlt : i * side + j < side * side := by nlinarith
    obtain ⟨hrow, hcol⟩ := digits (a := i) hj
    rw [List.getElem?_map, List.getElem?_range hlt, Option.map_some, hrow, hcol, triangularSite_eq]

/-! Each axis is the sum of two converted numbers, and as near to it as a double can be. -/

theorem rounded_coordinate (offset : Int64) {n : ℕ} (hn : n < 2 ^ 53) :
    Rounded (value (ofInt64 offset) + n) (coordinate offset n) := by
  obtain ⟨hfinite, hbound⟩ := Below.ofInt64 offset
  obtain ⟨hfinite', hvalue⟩ := value_toFloat hn
  have hsum : |value (ofInt64 offset) + value (UInt64.ofNat n).toFloat| < 2 ^ (66 : ℤ) := by
    have htriangle := abs_add_le (value (ofInt64 offset)) (value (UInt64.ofNat n).toFloat)
    have hcast : (n : ℚ) < 2 ^ 53 := by exact_mod_cast hn
    rw [hvalue, Nat.abs_cast] at htriangle
    rw [hvalue]
    norm_num at hbound ⊢
    linarith
  rw [← hvalue]
  exact rounded_add hfinite hfinite' (by decide) hsum

/-- A lattice is the only list with its numbering, and the one that nested loops append. The axes
of a box are rounded sums of an offset, itself rounded once it is large, and of a whole distance. -/
theorem sites_in_mixed_radix_order :
    (∀ (rows cols lays : UInt32) (top left upper : Int64),
      box rows cols lays top left upper =
        looped rows.toNat cols.toNat lays.toNat (boxPoint top left upper) ∧
      ∀ sites, Numbered rows.toNat cols.toNat lays.toNat (boxPoint top left upper) sites ↔
        sites = box rows cols lays top left upper) ∧
    (∀ (diameter : UInt32) (top left upper : Int64) (sites : List Site),
      Numbered diameter.toNat diameter.toNat diameter.toNat (boxPoint top left upper) sites ↔
        sites = cube diameter top left upper) ∧
    (∀ (rows cols : UInt32) (top left : Int64) (sites : List Site),
      NumberedPlane rows.toNat cols.toNat (rectPoint top left) sites ↔
        sites = rect rows cols top left) ∧
    (∀ (diameter : UInt32) (top left : Int64) (sites : List Site),
      NumberedPlane diameter.toNat diameter.toNat (rectPoint top left) sites ↔
        sites = square diameter top left) ∧
    (∀ (size : UInt32) (top left : Float),
      triangular size top left =
        loopedPlane (size.toNat + 1) (size.toNat + 1) (packingPoint top left) ∧
      ∀ sites, NumberedPlane (size.toNat + 1) (size.toNat + 1) (packingPoint top left) sites ↔
        sites = triangular size top left) ∧
    ∀ (offset : Int64) (n : ℕ), n < 2 ^ 32 →
      Rounded offset.toInt (ofInt64 offset) ∧ value (UInt64.ofNat n).toFloat = n ∧
        Rounded (value (ofInt64 offset) + n) (coordinate offset n) := by
  refine ⟨?_, ?_, ?_, ?_, ?_, ?_⟩
  · intro rows cols lays top left upper
    have hbox := numbered_box rows cols lays top left upper
    exact ⟨hbox.unique (numbered_looped _ _ _ _), fun _ => hbox.iff_eq⟩
  · intro diameter top left upper sites
    exact (numbered_box diameter diameter diameter top left upper).iff_eq
  · intro rows cols top left sites
    exact (numberedPlane_rect rows cols top left).iff_eq
  · intro diameter top left sites
    exact (numberedPlane_rect diameter diameter top left).iff_eq
  · intro size top left
    have hpacking := numberedPlane_triangular size top left
    exact ⟨hpacking.unique (numberedPlane_loopedPlane _ _ _), fun _ => hpacking.iff_eq⟩
  · intro offset n hn
    have hn' : n < 2 ^ 53 := hn.trans (by decide)
    exact ⟨rounded_ofInt64 offset, (value_toFloat hn').2, rounded_coordinate offset hn'⟩

/-- In a box of two by three by two the last row and column start at number ten, and the packing
with two points to a side ends with a point that is moved by a half. -/
theorem sites_in_mixed_radix_order_corner : (box 2 3 2 (-1) 5 7).length = 12 ∧
    (box 2 3 2 (-1) 5 7)[10]? = some ⟨0, 7, 7⟩ ∧
    (triangular 1 2 0)[3]? = some ⟨3.5, Float.sqrt 3 / 2, 0⟩ := by
  obtain ⟨hbox, -, -, -, hpacking, -⟩ := sites_in_mixed_radix_order
  have hnumbered := ((hbox 2 3 2 (-1) 5 7).2 _).2 rfl
  have hplane := ((hpacking 1 2 0).2 _).2 rfl
  have hsite : boxPoint (-1) 5 7 1 2 0 = ⟨0, 7, 7⟩ := by
    rw [boxPoint, Site.mk.injEq]
    decide +kernel
  have hpoint : packingPoint 2 0 1 1 = ⟨3.5, Float.sqrt 3 / 2, 0⟩ := by
    rw [packingPoint, Site.mk.injEq]
    decide +kernel
  refine ⟨hnumbered.length_eq, ?_, ?_⟩
  · rw [← hsite]
    exact hnumbered.getElem?_eq 1 (by decide) 2 (by decide) 0 (by decide)
  · rw [← hpoint]
    exact hplane.getElem?_eq 1 (by decide) 1 (by decide)

end AtomArray.Lattice
