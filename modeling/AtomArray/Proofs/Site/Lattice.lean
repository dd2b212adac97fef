import AtomArray.Proofs.Site.Axis
import AtomArray.Site.Lattice

/-! Lattices: when the sites of one are all distinct. -/

namespace AtomArray

open Binary64

theorem Binary64.value_ofInt64 {n : Int64} (h : |n.toInt| < 2 ^ 53) :
    (ofInt64 n).isFinite = true ∧ value (ofInt64 n) = n.toInt := by
  have hround := rounded_ofInt64 n
  refine ⟨hround.finite, hround.value_eq (k := 0) (i := n.toInt) ?_ (by decide) ?_⟩
  · rw [zpow_zero, mul_one]
  · exact_mod_cast h

namespace Lattice

/-- Coordinate `n` of a row that starts at an offset. -/
def coordinate (offset : Int64) (n : ℕ) : Float := ofInt64 offset + (UInt64.ofNat n).toFloat

/-- The first `n` coordinates of a row are still distinct to nine decimals. -/
def Apart (offset : Int64) (n : ℕ) : Prop :=
  ∀ i < n, ∀ j < n,
    Site.roundAxis (coordinate offset i) = Site.roundAxis (coordinate offset j) → i = j

variable {offset top left upper : Int64} {rows cols lays n : ℕ}

theorem apart_one (offset : Int64) : Apart offset 1 := by
  intro i hi j hj _
  omega

theorem value_coordinate (h : |offset.toInt| < 2 ^ 53) (hn : n < 2 ^ 53)
    (hsum : |offset.toInt + n| < 2 ^ 53) : (coordinate offset n).isFinite = true ∧
      value (coordinate offset n) = (offset.toInt + n : ℤ) := by
  obtain ⟨hfinite, hvalue⟩ := value_ofInt64 h
  obtain ⟨hfinite', hvalue'⟩ := value_toFloat hn
  have hcast : value (ofInt64 offset) + value (UInt64.ofNat n).toFloat =
      (offset.toInt + n : ℤ) := by
    rw [hvalue, hvalue']
    push_cast
    rfl
  have hlt : |((offset.toInt + n : ℤ) : ℚ)| < 2 ^ (53 : ℤ) := by exact_mod_cast hsum
  have hround := rounded_add (k := 53) hfinite hfinite' (by decide) (by rw [hcast]; exact hlt)
  rw [hcast] at hround
  refine ⟨hround.finite, hround.value_eq (k := 0) (i := offset.toInt + n) ?_ (by decide) hlt⟩
  rw [zpow_zero, mul_one]

theorem apart_of_inRange (hn : n < 2 ^ 32) (h : Site.InRange offset.toInt)
    (hend : Site.InRange (offset.toInt + n - 1)) : Apart offset n := by
  rw [Site.inRange_iff] at h hend
  have hvalue : ∀ i < n, Site.InRange (offset.toInt + i) ∧
      (coordinate offset i).isFinite = true ∧
      value (coordinate offset i) = (offset.toInt + i : ℤ) := by
    intro i hi
    refine ⟨Site.inRange_iff.2 (by omega), value_coordinate ?_ (by omega) ?_⟩ <;> rw [abs_lt] <;>
      omega
  intro i hi j hj heq
  obtain ⟨hrange, hfinite, hx⟩ := hvalue i hi
  obtain ⟨hrange', hfinite', hy⟩ := hvalue j hj
  have hsame := Site.eq_of_roundAxis_eq hfinite hfinite' hx hy hrange hrange' heq
  omega

/-- The number of the site in a row, column and layer. -/
def index (cols lays a b c : ℕ) : ℕ := (a * cols + b) * lays + c

theorem digits {a b n : ℕ} (hb : b < n) : (a * n + b) / n = a ∧ (a * n + b) % n = b := by
  rw [mul_comm, Nat.mul_add_div (by omega), Nat.div_eq_of_lt hb, Nat.mul_add_mod,
    Nat.mod_eq_of_lt hb]
  exact ⟨rfl, rfl⟩

theorem index_digits {a b c : ℕ} (hb : b < cols) (hc : c < lays) :
    index cols lays a b c / lays / cols = a ∧ index cols lays a b c / lays % cols = b ∧
      index cols lays a b c % lays = c := by
  obtain ⟨hrows, hlay⟩ := digits (a := a * cols + b) hc
  rw [index, hrows]
  exact ⟨(digits hb).1, (digits hb).2, hlay⟩

theorem boxSite_index {a b c : ℕ} (hb : b < cols) (hc : c < lays) :
    boxSite cols lays top left upper (index cols lays a b c) =
      ⟨coordinate top a, coordinate left b, coordinate upper c⟩ := by
  obtain ⟨hrow, hcol, hlay⟩ := index_digits (a := a) hb hc
  unfold boxSite
  rw [hrow, hcol, hlay]
  rfl

theorem index_inj {a b c a' b' c' : ℕ} (hb : b < cols) (hc : c < lays) (hb' : b' < cols)
    (hc' : c' < lays) (h : index cols lays a b c = index cols lays a' b' c') :
    a = a' ∧ b = b' ∧ c = c' := by
  obtain ⟨hrow, hcol, hlay⟩ := index_digits (a := a) hb hc
  obtain ⟨hrow', hcol', hlay'⟩ := index_digits (a := a') hb' hc'
  rw [h] at hrow hcol hlay
  exact ⟨hrow.symm.trans hrow', hcol.symm.trans hcol', hlay.symm.trans hlay'⟩

theorem index_lt {a b c : ℕ} (ha : a < rows) (hb : b < cols) (hc : c < lays) :
    index cols lays a b c < rows * cols * lays := by
  have hrow : a * cols + b < rows * cols := by nlinarith
  unfold index
  nlinarith

theorem exists_index {i : ℕ} (hi : i < rows * cols * lays) :
    ∃ a < rows, ∃ b < cols, ∃ c < lays, i = index cols lays a b c := by
  have hlays : 0 < lays := Nat.pos_of_ne_zero (by rintro rfl; simp at hi)
  have hcols : 0 < cols := Nat.pos_of_ne_zero (by rintro rfl; simp at hi)
  refine ⟨i / lays / cols, ?_, i / lays % cols, Nat.mod_lt _ hcols, i % lays, Nat.mod_lt _ hlays,
    ?_⟩
  · rw [Nat.div_lt_iff_lt_mul hcols, Nat.div_lt_iff_lt_mul hlays]
    exact hi
  · rw [index, Nat.div_add_mod', Nat.div_add_mod']

end Lattice

theorem Site.place_eq_iff {s t : Site} : s.place = t.place ↔
    roundAxis s.x = roundAxis t.x ∧ roundAxis s.y = roundAxis t.y ∧
      roundAxis s.z = roundAxis t.z := by
  rw [place, place, Place.mk.injEq, rank_injective.eq_iff, rank_injective.eq_iff,
    rank_injective.eq_iff]

namespace Lattice

variable {top left upper : Int64} {rows cols lays : UInt32}

theorem nodup_box_iff_index : ((box rows cols lays top left upper).map Site.place).Nodup ↔
    ∀ i < rows.toNat * cols.toNat * lays.toNat, ∀ j < rows.toNat * cols.toNat * lays.toNat,
      (boxSite cols.toNat lays.toNat top left upper i).place =
        (boxSite cols.toNat lays.toNat top left upper j).place → i = j := by
  rw [box, List.map_map, List.nodup_map_iff_inj_on List.nodup_range]
  simp only [List.mem_range, Function.comp_apply]

/-- The sites of a box are distinct just when the coordinates are on every axis. -/
theorem nodup_box_iff (h : 0 < rows.toNat * cols.toNat * lays.toNat) :
    ((box rows cols lays top left upper).map Site.place).Nodup ↔
      Apart top rows.toNat ∧ Apart left cols.toNat ∧ Apart upper lays.toNat := by
  obtain ⟨a, ha, b, hb, c, hc, -⟩ := exists_index h
  rw [nodup_box_iff_index]
  constructor
  · intro hinj
    have hsame : ∀ a < rows.toNat, ∀ b < cols.toNat, ∀ c < lays.toNat, ∀ a' < rows.toNat,
        ∀ b' < cols.toNat, ∀ c' < lays.toNat,
        Site.roundAxis (coordinate top a) = Site.roundAxis (coordinate top a') →
        Site.roundAxis (coordinate left b) = Site.roundAxis (coordinate left b') →
        Site.roundAxis (coordinate upper c) = Site.roundAxis (coordinate upper c') →
        a = a' ∧ b = b' ∧ c = c' := by
      intro a ha b hb c hc a' ha' b' hb' c' hc' hx hy hz
      apply index_inj hb hc hb' hc'
      apply hinj _ (index_lt ha hb hc) _ (index_lt ha' hb' hc')
      rw [boxSite_index hb hc, boxSite_index hb' hc', Site.place_eq_iff]
      exact ⟨hx, hy, hz⟩
    refine ⟨?_, ?_, ?_⟩
    · intro i hi j hj heq
      exact (hsame i hi b hb c hc j hj b hb c hc heq rfl rfl).1
    · intro i hi j hj heq
      exact (hsame a ha i hi c hc a ha j hj c hc rfl heq rfl).2.1
    · intro i hi j hj heq
      exact (hsame a ha b hb i hi a ha b hb j hj rfl rfl heq).2.2
  · rintro ⟨hx, hy, hz⟩ i hi j hj heq
    obtain ⟨a, ha, b, hb, c, hc, rfl⟩ := exists_index hi
    obtain ⟨a', ha', b', hb', c', hc', rfl⟩ := exists_index hj
    rw [boxSite_index hb hc, boxSite_index hb' hc', Site.place_eq_iff] at heq
    rw [hx a ha a' ha' heq.1, hy b hb b' hb' heq.2.1, hz c hc c' hc' heq.2.2]

section Triangular

variable {top left : Float} {i j size : ℕ}

/-- Half the root of three, to the last digit of a double. -/
theorem unpack_rowHeight : rowHeight.toModel.unpack =
    .finite .positive 7800463371553962 (-53) (by decide) := by
  have hbits : rowHeight = Float.ofBits 0x3febb67ae8584caa := by
    rw [← Float.toBits_inj]
    decide +kernel
  rw [hbits]
  rfl

theorem isFinite_rowHeight : rowHeight.isFinite = true := isFinite_of_finite unpack_rowHeight

theorem value_rowHeight : 43 / 50 < value rowHeight ∧ value rowHeight < 7 / 8 := by
  rw [value_of_finite unpack_rowHeight, signOf]
  norm_num

/-- Every other row is moved by a half. -/
def shift (j : ℕ) : Float := if j % 2 = 1 then 0.5 else 0

theorem value_shift (j : ℕ) : (shift j).isFinite = true ∧
    ((value (shift j) = 0) ∨ value (shift j) = 1 / 2) := by
  have hhalf : (0.5 : Float).toModel.unpack =
    .finite .positive (2 ^ 52) (-53) (by positivity) := rfl
  have hzero : (0 : Float).toModel.unpack = .zero .positive := rfl
  unfold shift
  split_ifs
  · refine ⟨isFinite_of_finite hhalf, .inr ?_⟩
    rw [value_of_finite hhalf, signOf]
    norm_num
  · exact ⟨isFinite_of_zero hzero, .inl (value_of_zero hzero)⟩

theorem value_shifted (hi : i < 2 ^ 10) :
    ((UInt64.ofNat i).toFloat + shift j).isFinite = true ∧
      value ((UInt64.ofNat i).toFloat + shift j) = i + value (shift j) := by
  obtain ⟨hfinite, hvalue⟩ := value_toFloat (n := i) (by omega)
  obtain ⟨hfinite', hshift⟩ := value_shift j
  obtain ⟨n, hn⟩ : ∃ n : ℤ, (i : ℚ) + value (shift j) = n * 2 ^ (-1 : ℤ) := by
    rcases hshift with hshift | hshift <;> rw [hshift]
    · exact ⟨2 * i, by push_cast; ring⟩
    · exact ⟨2 * i + 1, by push_cast; ring⟩
  have hsize : |(i : ℚ) + value (shift j)| < 2 ^ (-1 + 53 : ℤ) := by
    have hcast : (i : ℚ) < 1024 := by exact_mod_cast hi
    rw [abs_of_nonneg (by rcases hshift with hshift | hshift <;> rw [hshift] <;> positivity)]
    rcases hshift with hshift | hshift <;> rw [hshift] <;> norm_num <;> linarith
  have hround := rounded_add (k := 52) hfinite hfinite' (by decide) (by rw [hvalue]; exact hsize)
  rw [hvalue] at hround
  exact ⟨hround.finite, hround.value_eq hn (by decide) hsize⟩

/-- An offset that leaves the coordinates of a packing small enough to keep their fractions. -/
def Moderate (offset : Float) (size : ℕ) : Prop :=
  offset.isFinite = true ∧ |value offset| + size + 2 ≤ 2 ^ 51

theorem roundAxis_add_near {x offset : Float} (hx : x.isFinite = true)
    (h : Moderate offset size) (hr : |value x| ≤ size + 1 / 2) :
    |value (Site.roundAxis (x + offset)) - (value x + value offset)| ≤ 77 / 200 := by
  obtain ⟨hfinite, hbound⟩ := h
  have htriangle := abs_add_le (value x) (value offset)
  have hsize : |value x + value offset| < 2 ^ (51 : ℤ) := by
    norm_num at hbound ⊢
    linarith
  have hround := rounded_add (k := 51) hx hfinite (by decide) hsize
  have heighth := hround.abs_sub_le hsize (by decide)
  norm_num at heighth
  have hreach : |value (x + offset)| ≤ 2 ^ 51 - 1 := by
    have := abs_sub_abs_le_abs_sub (value (x + offset)) (value x + value offset)
    linarith
  have hnear := Site.roundAxis_near hround.finite hreach
  have := abs_sub_le (value (Site.roundAxis (x + offset))) (value (x + offset))
    (value x + value offset)
  linarith

theorem triangularSite_x_near (left : Float) (j : ℕ) (hi : i ≤ size) (hsize : size < 2 ^ 10)
    (h : Moderate top size) :
    |value (Site.roundAxis (triangularSite top left i j).x) -
      (i + value (shift j) + value top)| ≤ 77 / 200 := by
  obtain ⟨hfinite, hvalue⟩ := value_shifted (j := j) (hi.trans_lt hsize)
  have hcast : (i : ℚ) ≤ size := by exact_mod_cast hi
  rw [← hvalue]
  apply roundAxis_add_near hfinite h
  rw [hvalue, abs_of_nonneg]
  · rcases (value_shift j).2 with hshift | hshift <;> rw [hshift] <;> linarith
  · rcases (value_shift j).2 with hshift | hshift <;> rw [hshift] <;> positivity

theorem triangularSite_y_near (top : Float) (i : ℕ) (hj : j ≤ size) (hsize : size < 2 ^ 10)
    (h : Moderate left size) :
    |value (Site.roundAxis (triangularSite top left i j).y) -
      (j * value rowHeight + value left)| ≤ 39 / 100 := by
  obtain ⟨hfinite, hvalue⟩ := value_toFloat (n := j) (by omega)
  obtain ⟨hlower, hupper⟩ := value_rowHeight
  have hcast : (j : ℚ) ≤ size := by exact_mod_cast hj
  have hcast' : (j : ℚ) ≤ 1023 := by exact_mod_cast (by omega : j ≤ 1023)
  have hnonneg : (0 : ℚ) ≤ j * value rowHeight := by positivity
  have hproduct : |(j : ℚ) * value rowHeight| < 2 ^ (10 : ℤ) := by
    rw [abs_of_nonneg hnonneg]
    norm_num
    nlinarith
  have hround := rounded_mul (k := 10) hfinite isFinite_rowHeight (by decide)
    (by rw [hvalue]; exact hproduct)
  rw [hvalue] at hround
  have hnear := hround.abs_sub_le hproduct (by decide)
  norm_num at hnear
  have hreach : |value ((UInt64.ofNat j).toFloat * rowHeight)| ≤ size + 1 / 2 := by
    have := abs_sub_abs_le_abs_sub (value ((UInt64.ofNat j).toFloat * rowHeight))
      (j * value rowHeight)
    rw [abs_of_nonneg hnonneg] at this
    nlinarith
  have hsum := roundAxis_add_near hround.finite h hreach
  have htriangle := abs_sub_le (value (Site.roundAxis (triangularSite top left i j).y))
    (value ((UInt64.ofNat j).toFloat * rowHeight) + value left) (j * value rowHeight + value left)
  rw [add_sub_add_right_eq_sub] at htriangle
  refine htriangle.trans ((add_le_add hsum hnear).trans ?_)
  norm_num

/-- Points of a packing at moderate offsets are told apart: rows are further apart than their
rounding errors together, and so are the points of a row. -/
theorem triangularSite_inj {i' j' : ℕ} (htop : Moderate top size) (hleft : Moderate left size)
    (hsize : size < 2 ^ 10) (hi : i ≤ size) (hj : j ≤ size) (hi' : i' ≤ size) (hj' : j' ≤ size)
    (heq : (triangularSite top left i j).place = (triangularSite top left i' j').place) :
    i = i' ∧ j = j' := by
  obtain ⟨hx, hy, -⟩ := Site.place_eq_iff.1 heq
  have hsame : j = j' := by
    have hnear := triangularSite_y_near top i hj hsize hleft
    have hnear' := triangularSite_y_near top i' hj' hsize hleft
    rw [hy] at hnear
    rw [abs_le] at hnear hnear'
    obtain ⟨hlower, -⟩ := value_rowHeight
    by_contra hne
    rcases lt_or_gt_of_ne hne with hlt | hlt
    · have hcast : (j : ℚ) + 1 ≤ j' := by exact_mod_cast hlt
      nlinarith
    · have hcast : (j' : ℚ) + 1 ≤ j := by exact_mod_cast hlt
      nlinarith
  subst hsame
  refine ⟨?_, rfl⟩
  have hnear := triangularSite_x_near left j hi hsize htop
  have hnear' := triangularSite_x_near left j hi' hsize htop
  rw [hx] at hnear
  rw [abs_le] at hnear hnear'
  have hclose : |(i : ℤ) - i'| < 1 := by
    have hcast : |(i : ℚ) - i'| < 1 := by
      rw [abs_lt]
      constructor <;> linarith
    exact_mod_cast hcast
  have := Int.abs_lt_one_iff.1 hclose
  omega

/-- The points of a packing are distinct just when any two of them are. -/
theorem nodup_triangular_iff {size : UInt32} :
    ((triangular size top left).map Site.place).Nodup ↔
      ∀ i ≤ size.toNat, ∀ j ≤ size.toNat, ∀ i' ≤ size.toNat, ∀ j' ≤ size.toNat,
        (triangularSite top left i j).place = (triangularSite top left i' j').place →
        i = i' ∧ j = j' := by
  rw [triangular, List.map_map, List.nodup_map_iff_inj_on List.nodup_range]
  simp only [List.mem_range, Function.comp_apply]
  obtain ⟨side, hside⟩ : ∃ side, size.toNat + 1 = side := ⟨_, rfl⟩
  have hpos : 0 < side := by omega
  have hle : ∀ i, i ≤ size.toNat ↔ i < side := by omega
  simp only [hside, hle]
  constructor
  · intro hinj i hi j hj i' hi' j' hj' heq
    have hlt : ∀ i < side, ∀ j < side, i * side + j < side * side := by
      intro i hi j hj
      nlinarith
    obtain ⟨hrow, hcol⟩ := digits (a := i) hj
    obtain ⟨hrow', hcol'⟩ := digits (a := i') hj'
    have hsame := hinj _ (hlt i hi j hj) _ (hlt i' hi' j' hj')
      (by rw [hrow, hcol, hrow', hcol']; exact heq)
    rw [hsame] at hrow hcol
    exact ⟨hrow.symm.trans hrow', hcol.symm.trans hcol'⟩
  · intro hinj m hm n hn heq
    obtain ⟨hrow, hcol⟩ := hinj _ (Nat.div_lt_of_lt_mul hm) _ (Nat.mod_lt m hpos) _
      (Nat.div_lt_of_lt_mul hn) _ (Nat.mod_lt n hpos) heq
    rw [← Nat.div_add_mod m side, ← Nat.div_add_mod n side, hrow, hcol]

end Triangular

end Lattice
end AtomArray
