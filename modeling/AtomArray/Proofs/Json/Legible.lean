import AtomArray.Proofs.Decimal.Shape
import AtomArray.Proofs.Json.Quoted

/-! The values that a text can hold, and what of a value its text tells: doubles without a numeral
become null. -/

namespace AtomArray.Json

open Data (Key)
open Decimal (Is64Bit Stops)

variable {cs rest : List Char}

/-! Numbers. -/

theorem readNumber_append {v : Data} (h : readNumber cs = some (v, [])) (hstops : Stops rest) :
    readNumber (cs ++ rest) = some (v, rest) := by
  unfold readNumber at h ⊢
  split at h
  next n tail hscan =>
    split_ifs at h with hstrict
    obtain ⟨rfl, rfl⟩ := Prod.mk.inj (Option.some.inj h)
    rw [Decimal.Numeral.scan?_append hscan hstops]
    exact if_pos hstrict
  next => cases h

theorem isStrict_numeralOf (n : Int) : isStrict (Decimal.numeralOf n) = true := by
  rcases Decimal.toDigits_cases n.natAbs with ⟨-, hds⟩ | ⟨c, ds, hds, hc⟩
  · rw [isStrict, Decimal.numeralOf, hds]
    rfl
  · have hdigit : c.isDigit = true := Decimal.isDigit_of_mem_toDigits (hds ▸ List.mem_cons_self)
    have hpos := Decimal.digitValue_pos hdigit hc
    rw [isStrict, Decimal.numeralOf, hds, List.map_cons]
    split
    next hnil => cases hnil
    next hzero => exact absurd (List.cons.inj hzero).1 hpos.ne'
    next => rfl

/-- An integer of 64 bits is read from its digits. -/
theorem readNumber_toString {n : Int} (h : Is64Bit n) :
    readNumber (toString n).toList = some (.integer n, []) := by
  obtain ⟨hlow, hhigh⟩ := h
  have hnumber : numberOf (Decimal.numeralOf n) = .integer n := by
    simp only [numberOf, Decimal.numeralOf, Decimal.ofDigits_toDigits]
    by_cases hneg : n < 0
    · have hsize : n.natAbs ≠ 0 ∧ n.natAbs ≤ Int64.minValue.toInt.natAbs := by
        have hmin : Int64.minValue.toInt = -2 ^ 63 := rfl
        omega
      simp only [hneg, decide_true, Bool.not_true, Bool.false_eq_true, if_false, if_pos hsize]
      rw [Int.ofNat_natAbs_of_nonpos (by omega), Int.neg_neg]
    · have hsize : n.natAbs < UInt64.size := by omega
      simp only [hneg, decide_false, Bool.not_false, if_true, if_pos hsize]
      rw [Int.natAbs_of_nonneg (by omega)]
  rw [readNumber, Decimal.scan?_toString]
  simp only [isStrict_numeralOf, if_true, hnumber]

/-- The numeral that is written for a finite double is read as that double. -/
def Keeps (x : Float) : Prop := readNumber (number x) = some (.real x, [])

/-- The double that a text names, if it names nothing else. -/
def double? (cs : List Char) : Option Float :=
  match readNumber cs with
  | some (.real x, []) => some x
  | _ => none

theorem keeps_iff {x : Float} : Keeps x ↔ double? (number x) = some x := by
  unfold Keeps double?
  constructor
  · intro h
    rw [h]
  · intro h
    split at h
    next hread => rw [hread, Option.some.inj h]
    next => cases h

instance (x : Float) : Decidable (Keeps x) := decidable_of_iff _ keeps_iff.symm

/-- Every one of the numbers that has a numeral keeps its value. -/
def KeepsAll (xs : List Float) : Prop := ∀ x ∈ xs, x.isFinite = true → Keeps x

instance (xs : List Float) : Decidable (KeepsAll xs) :=
  inferInstanceAs (Decidable (∀ x ∈ xs, x.isFinite = true → Keeps x))

/-! Values. -/

/-- The members have names, as they do not where a text could not be read. -/
def AllNamed (members : List (Key × Data)) : Prop :=
  ∀ member ∈ members, ∃ name, member.1 = .name name

theorem AllNamed.uncons {member : Key × Data} {members : List (Key × Data)}
    (h : AllNamed (member :: members)) :
    ∃ name value, member = (.name name, value) ∧ AllNamed members := by
  obtain ⟨⟨name, hname⟩, hmembers⟩ := List.forall_mem_cons.1 h
  exact ⟨name, member.2, congrArg (·, member.2) hname, hmembers⟩

/-- The values that have a text of their own: integers have 64 bits, members have names, and the
numeral of a finite double is read as it. -/
inductive Legible : Data → Prop
  | null : Legible .null
  | bool (b : Bool) : Legible (.bool b)
  | integer {n : Int} : Is64Bit n → Legible (.integer n)
  | real {x : Float} : (x.isFinite = true → Keeps x) → Legible (.real x)
  | text (s : String) : Legible (.text s)
  | list {items : List Data} : (∀ item ∈ items, Legible item) → Legible (.list items)
  | record {members : List (Key × Data)} : AllNamed members →
      (∀ member ∈ members, Legible member.2) → Legible (.record members)

namespace Legible

theorem noMembers : Legible (.record []) :=
  .record (fun _ h => nomatch h) fun _ h => nomatch h

theorem member {name : String} {v : Data} {members : List (Key × Data)} (hv : Legible v)
    (h : Legible (.record members)) : Legible (.record ((.name name, v) :: members)) := by
  cases h with
  | record hnames h =>
      refine .record ?_ (List.forall_mem_cons.2 ⟨hv, h⟩)
      exact List.forall_mem_cons.2 ⟨⟨name, rfl⟩, hnames⟩

theorem map {α : Type} {f : α → Data} {as : List α} (h : ∀ a ∈ as, Legible (f a)) :
    Legible (.list (as.map f)) := .list (List.forall_mem_map.2 h)

end Legible

mutual

/-- What a text tells of a value: a double without a numeral is written as null. -/
def written : Data → Data
  | .real x => if x.isFinite then .real x else .null
  | .list items => .list (writtenItems items)
  | .record members => .record (writtenMembers members)
  | value => value

def writtenItems : List Data → List Data
  | [] => []
  | item :: rest => written item :: writtenItems rest

def writtenMembers : List (Key × Data) → List (Key × Data)
  | [] => []
  | (key, value) :: rest => (key, written value) :: writtenMembers rest

end

theorem writtenItems_eq (items : List Data) : writtenItems items = items.map written := by
  induction items with
  | nil => rfl
  | cons item rest ih => rw [writtenItems, ih, List.map_cons]

end AtomArray.Json
