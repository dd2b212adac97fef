import AtomArray.Proofs.Site.Axis
import AtomArray.Site.Ascending
import AtomArray.Qubit
import Mathlib

/-! The order of qubits, their equality and their hashes: three readings of one identity, so that
sets which rest on either of them hold the same qubits. -/

namespace AtomArray

namespace Qubit

theorem beq_iff_identity_eq {p q : Qubit} : (p == q) = true ↔ p.identity = q.identity :=
  beq_iff_eq (a := p.identity)

namespace Identity

/-- Where the kind of an identity stands in the order of kinds. -/
def kindRank : Identity → Nat
  | .place _ => 0
  | .line _ => 1
  | .named _ => 2

theorem compare_place (p q : Site.Place) : compare (place p) (place q) = compare p q := rfl

theorem compare_line (m n : Int64) : compare (line m) (line n) = compare m n := rfl

theorem compare_named (a b : String) : compare (named a) (named b) = compare a b := rfl

theorem compare_of_kindRank_lt {i j : Identity} (h : i.kindRank < j.kindRank) :
    compare i j = .lt := by
  cases i <;> cases j <;> simp only [kindRank] at h <;> first | rfl | omega

theorem compare_of_kindRank_gt {i j : Identity} (h : j.kindRank < i.kindRank) :
    compare i j = .gt := by
  cases i <;> cases j <;> simp only [kindRank] at h <;> first | rfl | omega

/-- Two identities of one kind, or of two. -/
inductive Kinship : Identity → Identity → Prop
  | places (p q : Site.Place) : Kinship (.place p) (.place q)
  | lines (m n : Int64) : Kinship (.line m) (.line n)
  | names (a b : String) : Kinship (.named a) (.named b)
  | before {i j : Identity} : i.kindRank < j.kindRank → Kinship i j
  | after {i j : Identity} : j.kindRank < i.kindRank → Kinship i j

theorem kinship (i j : Identity) : Kinship i j := by
  cases i with
  | place p =>
      cases j with
      | place q => exact .places p q
      | line n => exact .before Nat.zero_lt_one
      | named b => exact .before Nat.zero_lt_two
  | line m =>
      cases j with
      | place q => exact .after Nat.zero_lt_one
      | line n => exact .lines m n
      | named b => exact .before Nat.one_lt_two
  | named a =>
      cases j with
      | place q => exact .after Nat.zero_lt_two
      | line n => exact .after Nat.one_lt_two
      | named b => exact .names a b

instance : Std.OrientedOrd Identity where
  eq_swap {i j} := by
    cases kinship i j with
    | places p q =>
        rw [compare_place, compare_place]
        exact Std.OrientedCmp.eq_swap
    | lines m n =>
        rw [compare_line, compare_line]
        exact Std.OrientedCmp.eq_swap
    | names a b =>
        rw [compare_named, compare_named]
        exact Std.OrientedCmp.eq_swap
    | before h => rw [compare_of_kindRank_lt h, compare_of_kindRank_gt h, Ordering.swap_gt]
    | after h => rw [compare_of_kindRank_lt h, compare_of_kindRank_gt h, Ordering.swap_lt]

theorem kindRank_le_of_isLE {i j : Identity} (h : (compare i j).isLE) :
    i.kindRank ≤ j.kindRank := by
  refine Nat.le_of_not_lt fun hgt => ?_
  rw [compare_of_kindRank_gt hgt] at h
  cases h

instance : Std.TransOrd Identity where
  isLE_trans {i j k} hij hjk := by
    have hij' := kindRank_le_of_isLE hij
    have hjk' := kindRank_le_of_isLE hjk
    rcases Nat.lt_or_ge i.kindRank k.kindRank with hlt | hge
    · rw [compare_of_kindRank_lt hlt]
      rfl
    · -- the three are of one kind, whose own order is transitive
      cases kinship i j with
      | places p q =>
          cases kinship (place q) k with
          | places q r => exact Std.TransOrd.isLE_trans (α := Site.Place) hij hjk
          | before h => omega
          | after h => omega
      | lines m n =>
          cases kinship (line n) k with
          | lines n o => exact Std.TransOrd.isLE_trans (α := Int64) hij hjk
          | before h => omega
          | after h => omega
      | names a b =>
          cases kinship (named b) k with
          | names b c => exact Std.TransOrd.isLE_trans (α := String) hij hjk
          | before h => omega
          | after h => omega
      | before h => omega
      | after h => omega

instance : Std.LawfulEqOrd Identity where
  eq_of_compare {i j} h := by
    cases kinship i j with
    | places p q => rw [Std.compare_eq_iff_eq.1 ((compare_place p q).symm.trans h)]
    | lines m n => rw [Std.compare_eq_iff_eq.1 ((compare_line m n).symm.trans h)]
    | names a b => rw [Std.compare_eq_iff_eq.1 ((compare_named a b).symm.trans h)]
    | before hlt =>
        rw [compare_of_kindRank_lt hlt] at h
        cases h
    | after hgt =>
        rw [compare_of_kindRank_gt hgt] at h
        cases h

end Identity

instance : Std.TransOrd Qubit := inferInstanceAs (Std.TransCmp (compareOn identity))

instance : Std.LawfulBEqOrd Qubit where
  compare_eq_iff_beq {p q} := by
    rw [beq_iff_identity_eq]
    exact Std.compare_eq_iff_eq (a := p.identity)

instance : EquivBEq Qubit where
  rfl := beq_iff_identity_eq.2 rfl
  symm h := beq_iff_identity_eq.2 (beq_iff_identity_eq.1 h).symm
  trans h h' := beq_iff_identity_eq.2 ((beq_iff_identity_eq.1 h).trans (beq_iff_identity_eq.1 h'))

instance : LawfulHashable Qubit where
  hash_eq _ _ h := congrArg (hash (α := Identity)) (beq_iff_identity_eq.1 h)

/-! The qubits of a list up to equality, which are the elements of any set of them. -/

/-- The kind of a qubit, with what tells it from the others of its kind: the words of its rounded
coordinates, its position, or its name. -/
inductive Key
  | axes (x y z : UInt64)
  | line (n : Int64)
  | named (name : String)

def key : Qubit → Key
  | .site s => .axes s.rounded.x.toBits s.rounded.y.toBits s.rounded.z.toBits
  | .line n => .line n
  | .named name => .named name

end Qubit
end AtomArray
