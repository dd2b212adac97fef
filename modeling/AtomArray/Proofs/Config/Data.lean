import AtomArray.Config.Data
import AtomArray.Proofs.Qubit.Data

/-! Timings, layouts and configurations as data, and that they are read back from it. -/

namespace AtomArray

open Json (Legible written)

namespace TimingRecord

variable {t : Timings}

theorem uint64?_toNat (n : UInt64) : Data.uint64? (.integer n.toNat) = some n := by
  have hlt : (n.toNat : Int) < UInt64.size := Int.ofNat_lt.2 n.toNat_lt
  rw [Data.uint64?, if_pos ⟨Int.natCast_nonneg _, hlt⟩, Int.toNat_natCast, UInt64.ofNat_toNat]

theorem legible_toData (r : TimingRecord) : Legible r.toData := by
  rw [toData]
  exact .member (.integer (.uint64 r.identity))
    (.member (.integer (.uint64 r.measurement)) .noMembers)

theorem written_toData (r : TimingRecord) : written r.toData = r.toData := rfl

theorem ofData?_toData (r : TimingRecord) : ofData? r.toData = some r := by
  have hfields : r.toData.fields? ["identity_ns", "measurement_ns"] =
      some [some (.integer r.identity.toNat), some (.integer r.measurement.toNat)] := rfl
  rw [ofData?, hfields]
  dsimp only
  rw [Data.fieldOr_some, Data.fieldOr_some, uint64?_toNat, uint64?_toNat]
  rfl

theorem toNat_saturate (d : Duration) :
    (saturate d).toNat = min d.nanoseconds (UInt64.size - 1) :=
  UInt64.toNat_ofNat_of_lt' (Nat.lt_of_le_of_lt (Nat.min_le_right _ _) (by decide))

theorem saturate_eq_zero_iff {d : Duration} : saturate d = 0 ↔ d.nanoseconds = 0 := by
  have hsize : 0 < UInt64.size - 1 := by decide
  rw [← UInt64.toNat_inj, toNat_saturate, UInt64.toNat_zero]
  omega

theorem ofTimings_toTimings (r : TimingRecord) : ofTimings r.toTimings = r := by
  have hheld : ∀ n : UInt64, saturate ⟨n.toNat⟩ = n := by
    intro n
    rw [← UInt64.toNat_inj, toNat_saturate]
    exact Nat.min_eq_left (Nat.le_sub_one_of_lt n.toNat_lt)
  rw [ofTimings, toTimings, hheld, hheld]

/-- Timings are held as they are just when both fit in 64 bits. -/
theorem toTimings_ofTimings_iff : (ofTimings t).toTimings = t ↔
    t.identity.nanoseconds ≤ UInt64.size - 1 ∧ t.measurement.nanoseconds ≤ UInt64.size - 1 := by
  obtain ⟨⟨identity⟩, ⟨measurement⟩⟩ := t
  simp only [ofTimings, toTimings, toNat_saturate, Timings.mk.injEq, Duration.mk.injEq,
    min_eq_left_iff]

theorem check_eq_ok_iff {r : TimingRecord} :
    r.check = .ok () ↔ r.identity ≠ 0 ∧ r.measurement ≠ 0 := by
  unfold check
  split_ifs with hidentity hmeasurement
  · exact iff_of_false (nomatch ·) fun h => h.1 hidentity
  · exact iff_of_false (nomatch ·) fun h => h.2 hmeasurement
  · exact iff_of_true rfl ⟨hidentity, hmeasurement⟩

end TimingRecord

namespace Site

variable {s : Site}

theorem ofData?_toData (s : Site) : ofData? s.toData = some s := rfl

theorem fits_data (n : Nat) (s : Site) : s.toData.fits (n + 1) = true := by
  cases n <;> rfl

end Site

namespace Layout

/-- The doubles that a layout is written with. -/
def reals : Layout → List Float
  | .triangular _ top left => [top, left]
  | .explicit sites => sites.flatMap Site.axes
  | _ => []

/-- The name of the kind of a layout. -/
def kind : Layout → String
  | .box _ _ _ _ _ _ => "parallelepiped"
  | .cube _ _ _ _ => "cube"
  | .rect _ _ _ _ => "rect"
  | .square _ _ _ => "square"
  | .triangular _ _ _ => "triangular_lattice"
  | .explicit _ => "explicit"

/-- What a layout is written with besides the name of its kind. -/
def parts : Layout → List (Data.Key × Data)
  | .box rows cols lays top left upper =>
    [("rows", .integer rows.toNat), ("cols", .integer cols.toNat), ("lays", .integer lays.toNat),
      ("top", .integer top.toInt), ("left", .integer left.toInt), ("upper", .integer upper.toInt)]
  | .cube diameter top left upper =>
    [("diameter", .integer diameter.toNat), ("top", .integer top.toInt),
      ("left", .integer left.toInt), ("upper", .integer upper.toInt)]
  | .rect rows cols top left =>
    [("rows", .integer rows.toNat), ("cols", .integer cols.toNat), ("top", .integer top.toInt),
      ("left", .integer left.toInt)]
  | .square diameter top left =>
    [("diameter", .integer diameter.toNat), ("top", .integer top.toInt),
      ("left", .integer left.toInt)]
  | .triangular size top left =>
    [("size", .integer size.toNat), ("top", .real top), ("left", .real left)]
  | .explicit sites => [("qubits", .list (sites.map Site.toData))]

theorem toData_eq (layout : Layout) :
    layout.toData = .record (("kind", .text layout.kind) :: layout.parts) := by
  cases layout <;> rfl

theorem tagged?_toData (layout : Layout) :
    layout.toData.tagged? [] "kind" = some (layout.kind, .record layout.parts) := by
  cases layout <;> rfl

theorem mapM_ofData?_toData (sites : List Site) :
    (sites.map Site.toData).mapM Site.ofData? = some sites := by
  induction sites with
  | nil => rfl
  | cons s rest ih =>
      rw [List.map_cons, List.mapM_cons, ih]
      rfl

theorem ofKind?_kind (layout : Layout) :
    ofKind? layout.kind (.record layout.parts) = some layout := by
  cases layout with
  | box rows cols lays top left upper =>
      have hfields : Data.fields? ["rows", "cols", "lays", "top", "left", "upper"]
          (.record (box rows cols lays top left upper).parts) =
          some [some (.integer rows.toNat), some (.integer cols.toNat), some (.integer
            lays.toNat), some (.integer top.toInt), some (.integer left.toInt), some
            (.integer upper.toInt)] := rfl
      rw [kind, ofKind?, hfields]
      simp only [offset?, Data.fieldOr_some, Data.uint32?_toNat, Qubit.int64?_toInt]
      rfl
  | cube diameter top left upper =>
      have hfields : Data.fields? ["diameter", "top", "left", "upper"]
          (.record (cube diameter top left upper).parts) =
          some [some (.integer diameter.toNat), some (.integer top.toInt), some
            (.integer left.toInt), some (.integer upper.toInt)] := rfl
      rw [kind, ofKind?, hfields]
      simp only [offset?, Data.fieldOr_some, Data.uint32?_toNat, Qubit.int64?_toInt]
      rfl
  | rect rows cols top left =>
      have hfields : Data.fields? ["rows", "cols", "top", "left"]
          (.record (rect rows cols top left).parts) =
          some [some (.integer rows.toNat), some (.integer cols.toNat), some (.integer
            top.toInt), some (.integer left.toInt)] := rfl
      rw [kind, ofKind?, hfields]
      simp only [offset?, Data.fieldOr_some, Data.uint32?_toNat, Qubit.int64?_toInt]
      rfl
  | square diameter top left =>
      have hfields : Data.fields? ["diameter", "top", "left"]
          (.record (square diameter top left).parts) =
          some [some (.integer diameter.toNat), some (.integer top.toInt), some
            (.integer left.toInt)] := rfl
      rw [kind, ofKind?, hfields]
      simp only [offset?, Data.fieldOr_some, Data.uint32?_toNat, Qubit.int64?_toInt]
      rfl
  | triangular size top left =>
      have hfields : Data.fields? ["size", "top", "left"]
          (.record (triangular size top left).parts) =
          some [some (.integer size.toNat), some (.real top), some (.real left)] := rfl
      rw [kind, ofKind?, hfields]
      simp only [realOffset?, Data.fieldOr_some, Data.uint32?_toNat]
      rfl
  | explicit sites =>
      have hfields : Data.fields? ["qubits"] (.record (explicit sites).parts) =
          some [some (.list (sites.map Site.toData))] := rfl
      rw [kind, ofKind?, hfields]
      simp only [Data.list?, Option.bind_eq_bind, Option.bind_some, mapM_ofData?_toData]
      rfl

/-- A layout is read back from its data. -/
theorem ofData?_toData (layout : Layout) : ofData? layout.toData = some layout := by
  rw [ofData?, tagged?_toData]
  exact ofKind?_kind layout

/-- Lists of sites nest deepest. -/
theorem fits_toData (n : Nat) (layout : Layout) : layout.toData.fits (n + 3) = true := by
  cases layout with
  | explicit sites =>
      have hsites : Data.fitsItems (n + 1) (sites.map Site.toData) = true :=
        Data.fitsItems_iff.2 (List.forall_mem_map.2 fun s _ => Site.fits_data n s)
      simp only [toData, Data.fits, Data.fitsMembers, hsites]
      rfl
  | _ => rfl

end Layout
namespace Config

/-- The doubles that a configuration is written with. -/
def reals (c : Config) : List Float := c.radius :: c.layout.reals

/-- A configuration is read back from its data. -/
theorem ofData?_toData (c : Config) : ofData? c.toData = some c := by
  have hfields : c.toData.fields? ["control_radius", "layout", "durations"] =
      some [some (.real c.radius), some c.layout.toData, some c.timings.toData] := rfl
  have hfits : c.layout.toData.fits (Json.maxDepth - 1) = true := Layout.fits_toData 123 c.layout
  rw [ofData?, hfields]
  dsimp only
  rw [if_pos hfits, Data.fieldOr_some, Data.fieldOr_some, Layout.ofData?_toData,
    TimingRecord.ofData?_toData]
  rfl

end Config
end AtomArray
