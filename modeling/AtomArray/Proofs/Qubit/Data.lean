import AtomArray.Proofs.Json.Reading
import AtomArray.Qubit.Data

/-! Sites and qubits as they are written: which of them are read back, and as what. -/

namespace AtomArray

/-- Each of the numbers is finite. -/
def AllFinite (xs : List Float) : Prop := ∀ x ∈ xs, x.isFinite = true

instance (xs : List Float) : Decidable (AllFinite xs) :=
  inferInstanceAs (Decidable (∀ x ∈ xs, x.isFinite = true))

theorem allFinite_nil : AllFinite [] := fun _ h => nomatch h

open Json (Legible KeepsAll written writtenItems)

namespace Data

theorem float?_written (x : Float) :
    (written (.real x)).float? = if x.isFinite then some x else none := by
  rw [written]
  cases x.isFinite <;> rfl

theorem uint32?_toNat (n : UInt32) : uint32? (.integer n.toNat) = some n := by
  have hlt : (n.toNat : Int) < UInt32.size := Int.ofNat_lt.2 n.toNat_lt
  rw [uint32?, if_pos ⟨Int.natCast_nonneg _, hlt⟩, Int.toNat_natCast, UInt32.ofNat_toNat]

theorem fieldOr_some {α : Type} (default : α) (read? : Data → Option α) (value : Data) :
    fieldOr default read? (some value) = read? value := rfl

/-- Items that are each read back or refused are all read back if none is refused. -/
theorem mapM_map_eq {α β : Type} {f : α → β} {read? : β → Option α} {p : α → Prop}
    [DecidablePred p] (h : ∀ a, read? (f a) = if p a then some a else none) (as : List α) :
    (as.map f).mapM read? = if ∀ a ∈ as, p a then some as else none := by
  induction as with
  | nil => rfl
  | cons a as ih =>
      rw [List.map_cons, List.mapM_cons, h, ih]
      simp only [List.forall_mem_cons]
      by_cases ha : p a
      · by_cases has : ∀ a ∈ as, p a
        · rw [if_pos ha, if_pos has, if_pos (And.intro ha has)]
          rfl
        · rw [if_pos ha, if_neg has, if_neg (not_and_of_not_right _ has)]
          rfl
      · rw [if_neg ha, if_neg (not_and_of_not_left _ ha)]
        rfl

theorem writtenItems_map {α : Type} (f : α → Data) (as : List α) :
    writtenItems (as.map f) = as.map fun a => written (f a) := by
  rw [Json.writtenItems_eq, List.map_map]
  rfl

theorem fitsItems_iff {n : Nat} {items : List Data} :
    fitsItems n items = true ↔ ∀ item ∈ items, item.fits n = true := by
  induction items with
  | nil => exact iff_of_true rfl (fun _ h => nomatch h)
  | cons item rest ih => rw [fitsItems, Bool.and_eq_true, ih, List.forall_mem_cons]

/-- A number fits anywhere. -/
theorem fits_written_real (n : Nat) (x : Float) : (written (.real x)).fits n = true := by
  rw [written]
  cases x.isFinite <;> cases n <;> rfl

end Data

namespace Site

def axes (s : Site) : List Float := [s.x, s.y, s.z]

variable {s : Site}

theorem legible_toData (h : KeepsAll s.axes) : Legible s.toData := by
  have hx : Legible (.real s.x) := .real (h s.x (by simp [axes]))
  have hy : Legible (.real s.y) := .real (h s.y (by simp [axes]))
  have hz : Legible (.real s.z) := .real (h s.z (by simp [axes]))
  exact .member hx (.member hy (.member hz .noMembers))

theorem fits_toData (n : Nat) (s : Site) : (written s.toData).fits (n + 1) = true := by
  simp only [toData, written, Json.writtenMembers, Data.fits, Data.fitsMembers]
  have h := Data.fits_written_real n
  simp only [written] at h
  rw [h, h, h]
  rfl

/-- A site is read back just when its coordinates are finite. -/
theorem ofData?_written (s : Site) :
    ofData? (written s.toData) = if AllFinite s.axes then some s else none := by
  have hfields : (written s.toData).fields? ["x", "y", "z"] =
      some [some (written (.real s.x)), some (written (.real s.y)), some (written (.real s.z))] :=
    rfl
  have hfinite : AllFinite s.axes ↔
      s.x.isFinite = true ∧ s.y.isFinite = true ∧ s.z.isFinite = true := by
    simp [AllFinite, axes]
  rw [ofData?, hfields]
  simp only [Data.float?_written, hfinite]
  cases s.x.isFinite <;> cases s.y.isFinite <;> cases s.z.isFinite <;> rfl

end Site

namespace Qubit

/-- The numbers that a qubit is written with. -/
def reals : Qubit → List Float
  | .site s => s.axes
  | .line _ | .named _ => []

variable {q : Qubit} {value : Data}

theorem int64?_toInt (n : Int64) : Data.int64? (.integer n.toInt) = some n := by
  have hlow : Int64.minValue.toInt ≤ n.toInt := Int64.minValue_le_toInt n
  have hhigh : n.toInt ≤ Int64.maxValue.toInt := Int64.toInt_le n
  rw [Data.int64?, if_pos ⟨hlow, hhigh⟩, Int64.ofInt_toInt]

theorem legible_toData (h : KeepsAll q.reals) : Legible q.toData := by
  cases q with
  | site s => exact Site.legible_toData h
  | line n => exact .integer (.int64 n)
  | named name => exact .text name

theorem fits_toData (n : Nat) (q : Qubit) : (written q.toData).fits (n + 1) = true := by
  cases q with
  | site s => exact Site.fits_toData n s
  | line n => rfl
  | named name => rfl

/-- No value is read both as a site and as the position of a line qubit. -/
theorem site_or_position (value : Data) : Site.ofData? value = none ∨ value.int64? = none := by
  cases value with
  | integer n => exact .inl rfl
  | _ => exact .inr rfl

theorem site_or_name (value : Data) : Site.ofData? value = none ∨ value.text? = none := by
  cases value with
  | text s => exact .inl rfl
  | _ => exact .inr rfl

theorem position_or_name (value : Data) : value.int64? = none ∨ value.text? = none := by
  cases value with
  | text s => exact .inl rfl
  | _ => exact .inr rfl

/-- A qubit is read back, and as one of its own kind, just when its coordinates are finite. -/
theorem ofData?_written (q : Qubit) :
    ofData? (written q.toData) = if AllFinite q.reals then some q else none := by
  cases q with
  | site s =>
      have hposition : (written s.toData).int64? = none := rfl
      have hname : (written s.toData).text? = none := rfl
      rw [toData, ofData?, Site.ofData?_written, hposition, hname, reals]
      by_cases hfinite : AllFinite s.axes
      · rw [if_pos hfinite, if_pos hfinite]
        rfl
      · rw [if_neg hfinite, if_neg hfinite]
        rfl
  | line n =>
      have hsite : Site.ofData? (written (.integer n.toInt)) = none := rfl
      have hposition : (written (.integer n.toInt)).int64? = some n := int64?_toInt n
      rw [toData, ofData?, hsite, hposition, reals, if_pos allFinite_nil]
      rfl
  | named name => exact (if_pos allFinite_nil).symm

end Qubit
end AtomArray
