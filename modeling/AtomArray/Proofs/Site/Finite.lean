import AtomArray.Proofs.Qubit.Data
import AtomArray.Proofs.Site.Lattice

/-! Lattices: their coordinates are finite, as 64-bit offsets and indices are far below the largest
double. -/

namespace AtomArray

open Binary64

/-- Finite and below a power of two. -/
def Binary64.Below (k : ℤ) (x : Float) : Prop := x.isFinite = true ∧ |value x| < 2 ^ k

namespace Binary64.Below

variable {x y : Float} {k : ℤ}

/-- Rounding a number below a power of two leaves it below the next. -/
theorem of_rounded {r : ℚ} (h : Rounded r x) (hr : |r| < 2 ^ k) (hk : -1021 ≤ k) :
    Below (k + 1) x := by
  have herror := h.abs_sub_le hr hk
  have hunit : (2 : ℚ) ^ (k - 54) ≤ 2 ^ k := zpow_le_zpow_right₀ one_le_two (by omega)
  have htriangle : |value x| ≤ |value x - r| + |r| := by
    have := abs_add_le (value x - r) r
    rwa [sub_add_cancel] at this
  refine ⟨h.finite, ?_⟩
  rw [zpow_add_one₀ two_ne_zero]
  linarith

theorem mono {l : ℤ} (h : Below k x) (hkl : k ≤ l) : Below l x :=
  ⟨h.1, h.2.trans_le (zpow_le_zpow_right₀ one_le_two hkl)⟩

theorem add (hx : Below k x) (hy : Below k y) (hlow : 0 ≤ k) (hhigh : k ≤ 1022) :
    Below (k + 2) (x + y) := by
  have hsum : |value x + value y| < 2 ^ (k + 1) := by
    rw [zpow_add_one₀ two_ne_zero]
    have := abs_add_le (value x) (value y)
    linarith [hx.2, hy.2]
  have hbelow := of_rounded (rounded_add hx.1 hy.1 (by omega) hsum) hsum (by omega)
  exact hbelow.mono (by omega)

theorem mul (hx : Below k x) (hy : Below 0 y) (hlow : 0 ≤ k) (hhigh : k ≤ 1022) :
    Below (k + 1) (x * y) := by
  have hproduct : |value x * value y| < 2 ^ k := by
    have hy' : |value y| ≤ 1 := by
      have := hy.2
      rw [zpow_zero] at this
      exact this.le
    rw [abs_mul]
    exact (mul_le_of_le_one_right (abs_nonneg _) hy').trans_lt hx.2
  exact of_rounded (rounded_mul hx.1 hy.1 (by omega) hproduct) hproduct (by omega)

theorem ofNat (n : ℕ) : Below 65 (UInt64.ofNat n).toFloat := by
  refine of_rounded (k := 64) (rounded_toFloat _) ?_ (by decide)
  rw [Nat.abs_cast]
  exact_mod_cast (UInt64.ofNat n).toNat_lt

theorem ofInt64 (n : Int64) : Below 65 (Binary64.ofInt64 n) := by
  unfold Binary64.ofInt64
  split_ifs
  · obtain ⟨hfinite, hbound⟩ := ofNat n.toInt.natAbs
    obtain ⟨hfinite', hvalue⟩ := value_neg hfinite
    exact ⟨hfinite', by rwa [hvalue, abs_neg]⟩
  · have h := ofNat n.toUInt64.toNat
    rwa [UInt64.ofNat_toNat] at h

end Binary64.Below

namespace Lattice

variable {top left : Float} {s : Site}

theorem isFinite_coordinate (offset : Int64) (n : ℕ) : (coordinate offset n).isFinite = true :=
  ((Below.ofInt64 offset).add (Below.ofNat n) (by decide) (by decide)).1

theorem allFinite_box {rows cols lays : UInt32} {top left upper : Int64}
    (hs : s ∈ box rows cols lays top left upper) : AllFinite s.axes := by
  obtain ⟨i, -, rfl⟩ := List.mem_map.1 hs
  intro x hx
  simp only [Site.axes, boxSite, List.mem_cons, List.not_mem_nil, or_false] at hx
  rcases hx with rfl | rfl | rfl
  · exact isFinite_coordinate top _
  · exact isFinite_coordinate left _
  · exact isFinite_coordinate upper _

theorem below_rowHeight : Below 0 rowHeight := by
  obtain ⟨hlow, hhigh⟩ := value_rowHeight
  refine ⟨isFinite_rowHeight, ?_⟩
  rw [abs_of_pos (by linarith)]
  exact hhigh.trans (by norm_num)

theorem below_shift (j : ℕ) : Below 65 (shift j) := by
  obtain ⟨hfinite, hvalue⟩ := value_shift j
  refine ⟨hfinite, ?_⟩
  rcases hvalue with hvalue | hvalue <;> rw [hvalue] <;> norm_num

theorem allFinite_triangular {size : UInt32} (htop : Below 65 top) (hleft : Below 65 left)
    (hs : s ∈ triangular size top left) : AllFinite s.axes := by
  obtain ⟨n, -, rfl⟩ := List.mem_map.1 hs
  intro x hx
  simp only [Site.axes, triangularSite, List.mem_cons, List.not_mem_nil, or_false] at hx
  rcases hx with rfl | rfl | rfl
  · have hrow := (Below.ofNat (n / (size.toNat + 1))).add (below_shift (n % (size.toNat + 1)))
      (by decide) (by decide)
    exact (hrow.add (htop.mono (by decide)) (by decide) (by decide)).1
  · have hcolumn := (Below.ofNat (n % (size.toNat + 1))).mul below_rowHeight (by decide) (by decide)
    exact (hcolumn.add (hleft.mono (by decide)) (by decide) (by decide)).1
  · rfl

end Lattice
end AtomArray
