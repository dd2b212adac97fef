import AtomArray.Config.Yaml
import AtomArray.Proofs.Config.Data
import AtomArray.Proofs.Yaml.Document

/-! Configurations as texts: JSON text and YAML text of one are read back as it, each of them also
where YAML is expected. -/

namespace AtomArray

open Json (Legible Writes written writtenItems writtenMembers)
open Yaml (HasText Kept Tidy isWord node)

namespace Yaml

variable {P : Float → Prop} {v : Data}

theorem Tidy.legible (h : Tidy P v) (hP : ∀ x, P x → Json.Keeps x) : Legible v := by
  induction h with
  | integer hn => exact .integer hn
  | real hx => exact .real fun _ => hP _ hx
  | word _ => exact .text _
  | list _ _ _ ih => exact .list ih
  | record _ hnames _ ih =>
      refine .record (fun member hmember => ?_) ih
      obtain ⟨name, hname, -⟩ := hnames member hmember
      exact ⟨name, hname⟩

theorem writtenItems_eq_self {items : List Data} (h : ∀ item ∈ items, written item = item) :
    writtenItems items = items := by
  rw [Json.writtenItems_eq]
  exact (List.map_congr_left h).trans (List.map_id items)

theorem writtenMembers_eq_self {members : List (Data.Key × Data)}
    (h : ∀ member ∈ members, written member.2 = member.2) : writtenMembers members = members := by
  induction members with
  | nil => rfl
  | cons member members ih =>
      obtain ⟨hvalue, hrest⟩ := List.forall_mem_cons.1 h
      obtain ⟨key, value⟩ := member
      rw [writtenMembers, hvalue, ih hrest]

theorem fieldOr_some {α : Type} (default : α) (read? : Yaml → Option α) (value : Yaml) :
    fieldOr default read? (some value) = read? value := rfl

/-- Nothing in a tidy value is lost when it is written as JSON. -/
theorem Tidy.written_eq (h : Tidy HasText v) : written v = v := by
  induction h with
  | integer _ => rfl
  | real hx => exact if_pos hx
  | word _ => rfl
  | list _ _ _ ih => rw [written, writtenItems_eq_self ih]
  | record _ _ _ ih => rw [written, writtenMembers_eq_self ih]

end Yaml

variable {P : Float → Prop}

theorem Site.tidy_toData {s : Site} (h : ∀ x ∈ s.axes, P x) : Tidy P s.toData := by
  have hx : Tidy P (.real s.x) := .real (h s.x (by simp [axes]))
  have hy : Tidy P (.real s.y) := .real (h s.y (by simp [axes]))
  have hz : Tidy P (.real s.z) := .real (h s.z (by simp [axes]))
  exact .member rfl hx (.member rfl hy (.single rfl hz))

theorem TimingRecord.tidy_toData (r : TimingRecord) : Tidy P r.toData := by
  rw [toData]
  exact .member rfl (.integer (.uint64 r.identity)) (.single rfl (.integer (.uint64 r.measurement)))

theorem Layout.tidy_kind (layout : Layout) : Tidy P (.text layout.kind) := by
  cases layout with
  | box => exact .word (rfl : isWord "parallelepiped" = true)
  | cube => exact .word (rfl : isWord "cube" = true)
  | rect => exact .word (rfl : isWord "rect" = true)
  | square => exact .word (rfl : isWord "square" = true)
  | triangular => exact .word (rfl : isWord "triangular_lattice" = true)
  | explicit => exact .word (rfl : isWord "explicit" = true)

/-- The data of a layout that lists its sites has to list some. -/
theorem Layout.tidy_parts {layout : Layout} (h : ∀ x ∈ layout.reals, P x)
    (hsites : layout.sites ≠ []) : Tidy P (.record layout.parts) := by
  cases layout with
  | box rows cols lays top left upper =>
      exact .member rfl (.integer (.uint32 rows)) <| .member rfl (.integer (.uint32 cols)) <|
        .member rfl (.integer (.uint32 lays)) <| .member rfl (.integer (.int64 top)) <|
        .member rfl (.integer (.int64 left)) <| .single rfl (.integer (.int64 upper))
  | cube diameter top left upper =>
      exact .member rfl (.integer (.uint32 diameter)) <| .member rfl (.integer (.int64 top)) <|
        .member rfl (.integer (.int64 left)) <| .single rfl (.integer (.int64 upper))
  | rect rows cols top left =>
      exact .member rfl (.integer (.uint32 rows)) <| .member rfl (.integer (.uint32 cols)) <|
        .member rfl (.integer (.int64 top)) <| .single rfl (.integer (.int64 left))
  | square diameter top left =>
      exact .member rfl (.integer (.uint32 diameter)) <| .member rfl (.integer (.int64 top)) <|
        .single rfl (.integer (.int64 left))
  | triangular size top left =>
      have htop : P top := h top List.mem_cons_self
      have hleft : P left := h left (List.mem_cons_of_mem _ List.mem_cons_self)
      exact .member rfl (.integer (.uint32 size)) <| .member rfl (.real htop) <|
        .single rfl (.real hleft)
  | explicit sites =>
      refine .single rfl (.list (List.map_eq_nil_iff.not.2 hsites) ?_ ?_)
      · exact List.forall_mem_map.2 fun s _ => ⟨_, rfl⟩
      · exact List.forall_mem_map.2 fun s hs =>
          Site.tidy_toData fun x hx => h x (List.mem_flatMap.2 ⟨s, hs, hx⟩)

theorem Layout.tidy_toData {layout : Layout} (h : ∀ x ∈ layout.reals, P x)
    (hsites : layout.sites ≠ []) : Tidy P layout.toData := by
  rw [toData_eq]
  exact .member rfl layout.tidy_kind (tidy_parts h hsites)

theorem TimingRecord.ofYaml?_node (quoted : Bool) (style : Decimal.Style) (r : TimingRecord) :
    ofYaml? (node quoted style r.toData) = some r := by
  have hfields : (node quoted style r.toData).fields? ["identity_ns", "measurement_ns"] =
      some [some (.scalar true (toString (r.identity.toNat : Int))),
        some (.scalar true (toString (r.measurement.toNat : Int)))] := by
    cases quoted <;> rfl
  rw [ofYaml?, hfields]
  dsimp only
  rw [Yaml.fieldOr_some, Yaml.fieldOr_some, Yaml.uint64?_toString, Yaml.uint64?_toString]
  rfl

namespace Config

variable {c : Config} {style : Decimal.Style} {text : String}

theorem tidy_toData (h : ∀ x ∈ c.reals, P x) (hsites : c.layout.sites ≠ []) :
    Tidy P c.toData := by
  obtain ⟨hradius, hlayout⟩ := List.forall_mem_cons.1 h
  exact .member rfl (.real hradius)
    (.member rfl (Layout.tidy_toData hlayout hsites) (.single rfl c.timings.tidy_toData))

/-- A configuration is read back from the node that its data becomes. -/
theorem ofYaml?_node (h : ∀ x ∈ c.reals, Kept style x) (hsites : c.layout.sites ≠ [])
    (hpoint : style.pointZero = true) (quoted : Bool) :
    ofYaml? (node quoted style c.toData) = some c := by
  obtain ⟨hradius, hlayout⟩ := List.forall_mem_cons.1 h
  have htidy := Layout.tidy_toData hlayout hsites
  have hfields : (node quoted style c.toData).fields? ["control_radius", "layout", "durations"] =
      some [some (.scalar true (style.render c.radius)), some (node quoted style c.layout.toData),
        some (node quoted style c.timings.toData)] := by
    cases quoted <;> rfl
  have hfits : (node quoted style c.layout.toData).fits (Yaml.maxDepth - 1) = true :=
    htidy.fits_node hpoint quoted (Layout.fits_toData 124 c.layout)
  have hfloat : Yaml.float? (.scalar true (style.render c.radius)) = some c.radius := hradius.2
  rw [ofYaml?, hfields]
  dsimp only
  rw [if_pos hfits, Yaml.fieldOr_some, Yaml.fieldOr_some, hfloat, htidy.toData_node hpoint,
    Layout.ofData?_toData, TimingRecord.ofYaml?_node]
  rfl

/-- A text of a configuration as JSON. -/
theorem ofJsonText?_of_writes (htext : Writes c.toData text) (hsites : c.layout.sites ≠ [])
    (h : ∀ x ∈ c.reals, HasText x ∧ Json.Keeps x) : ofJsonText? text = c.checked := by
  have htidy := tidy_toData h hsites
  have hwritten : written c.toData = c.toData := (htidy.mono fun _ hx => hx.1).written_eq
  rw [ofJsonText?, htext.read? (htidy.legible fun _ hx => hx.2), hwritten, Option.bind_some,
    ofData?_toData]

theorem ofYamlText?_yamlText (h : ∀ x ∈ c.reals, Kept .yaml x) (hsites : c.layout.sites ≠ []) :
    ofYamlText? c.yamlText = c.checked := by
  have htidy : Tidy HasText c.toData := tidy_toData (fun x hx => (h x hx).1) hsites
  have hread : Yaml.read? c.yamlText = some (node false .yaml c.toData) := htidy.read?_write
  rw [ofYamlText?, hread, Option.bind_some, ofYaml?_node h hsites rfl]

theorem ofYamlText?_pretty (h : ∀ x ∈ c.reals, Kept .json x) (hsites : c.layout.sites ≠ []) :
    ofYamlText? (Json.pretty c.toData) = c.checked := by
  have htidy : Tidy HasText c.toData := tidy_toData (fun x hx => (h x hx).1) hsites
  have hread : Yaml.read? (Json.pretty c.toData) = some (node true .json c.toData) :=
    htidy.read?_pretty
  rw [ofYamlText?, hread, Option.bind_some, ofYaml?_node h hsites rfl]

/-- The YAML text starts with a letter, where JSON wants a bracket. -/
theorem ofJsonText?_yamlText (c : Config) : ofJsonText? c.yamlText = .error .malformed := by
  obtain ⟨cs, hcs⟩ : ∃ cs, c.yamlText.toList = 'c' :: cs := ⟨_, String.toList_ofList⟩
  have hnumber : Json.readNumber ('c' :: cs) = none := rfl
  have hfront : Json.readFront? c.yamlText.toList = none := by
    rw [Json.readFront?, hcs, Json.readValue]
    exact hnumber
  rw [ofJsonText?, Json.read?, hfront]
  rfl

end Config
end AtomArray
