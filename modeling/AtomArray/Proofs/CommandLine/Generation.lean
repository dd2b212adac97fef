import AtomArray.CommandLine.Outcome
import AtomArray.Proofs.Config.Building
import AtomArray.Proofs.Config.Text
import AtomArray.Proofs.Site.Finite

/-! Device files that the command line writes, and what becomes of them when it loads them again.
The format of the text is chosen when it is written; its reader, by the name of the file. -/

namespace AtomArray

open Yaml (HasText)

theorem Folder.read?_write (f : Folder) (path text : String) :
    (f.write path text).read? path = some text := by
  rw [read?, write, List.reverse_append]
  simp

namespace Config

variable {c : Config}

theorem checked_eq_ok (h : c.check = .ok ()) : c.checked = .ok c := by
  rw [checked, h]

end Config

namespace CommandLine

/-- Doubles that every reader gets back, from the text of either format. -/
def Survives (x : Float) : Prop := Json.Keeps x ∧ Yaml.Keeps .json x ∧ Yaml.Keeps .yaml x

instance (x : Float) : Decidable (Survives x) :=
  inferInstanceAs (Decidable (Json.Keeps x ∧ Yaml.Keeps .json x ∧ Yaml.Keeps .yaml x))

namespace Generation

variable {g : Generation}

/-- The configuration that is written. -/
def written (g : Generation) : Config := if g.expand then g.config.expand else g.config

theorem check_written (h : g.config.check = .ok ()) : g.written.check = .ok () := by
  unfold written
  split_ifs
  · exact Config.check_expand h
  · exact h

theorem build_written (h : g.config.check = .ok ()) : g.written.build = g.config.build := by
  unfold written
  split_ifs
  · exact Config.build_expand h
  · rfl

/-- Only the offsets of a packing are doubles, and they are whole. -/
theorem hasText_layout (g : Generation) : ∀ x ∈ g.layout.reals, HasText x := by
  intro x hx
  unfold layout at hx
  cases hshape : g.shape with
  | triangular =>
      rw [hshape] at hx
      obtain rfl | rfl : x = Binary64.ofInt64 g.top ∨ x = Binary64.ofInt64 g.left := by
        simpa [Layout.reals] using hx
      · exact (Binary64.Below.ofInt64 g.top).1
      · exact (Binary64.Below.ofInt64 g.left).1
  | _ =>
      rw [hshape] at hx
      cases hx

theorem allFinite_sites (g : Generation) : ∀ s ∈ g.layout.sites, AllFinite s.axes := by
  intro s hs
  unfold layout at hs
  cases hshape : g.shape with
  | triangular =>
      rw [hshape] at hs
      exact Lattice.allFinite_triangular (.ofInt64 g.top) (.ofInt64 g.left) hs
  | _ =>
      rw [hshape] at hs
      exact Lattice.allFinite_box hs

theorem hasText_written (h : g.config.check = .ok ()) : ∀ x ∈ g.written.reals, HasText x := by
  have hradius : HasText g.radius := (Bool.and_eq_true_iff.1 (Config.check_eq_ok h).1).1
  unfold written
  split_ifs
  · refine List.forall_mem_cons.2 ⟨hradius, ?_⟩
    intro x hx
    obtain ⟨s, hs, hx⟩ := List.mem_flatMap.1 hx
    exact g.allFinite_sites s hs x hx
  · exact List.forall_mem_cons.2 ⟨hradius, g.hasText_layout⟩

end Generation

variable {folder : Folder} {g : Generation} {path : String} {c : Config}

/-- A lattice that passes the check is written with the number of its sites. -/
theorem Generation.file?_eq_ok (h : g.config.check = .ok ()) :
    ∃ count, g.file? = .ok (g.format.render g.written, count) := by
  obtain ⟨-, count, hcount, -⟩ := Config.check_eq_ok h
  refine ⟨count, ?_⟩
  unfold file?
  rw [h, hcount]
  rfl

theorem Generation.file?_eq_error {fault : ConfigFault} (h : g.config.check = .error fault) :
    g.file? = .error (.invalid fault) := by
  unfold file?
  rw [h]
  rfl

theorem exit_generate_eq_zero_iff (folder : Folder) (g : Generation) :
    (generate folder g).exit = 0 ↔ g.config.check = .ok () := by
  unfold generate
  cases h : g.config.check with
  | error fault =>
      rw [Generation.file?_eq_error h]
      exact iff_of_false (by decide : (1 : UInt32) ≠ 0) (nomatch ·)
  | ok u =>
      obtain ⟨count, hfile⟩ := Generation.file?_eq_ok h
      rw [hfile]
      refine iff_of_true ?_ rfl
      unfold Outcome.ofResult
      cases g.output <;> rfl

theorem folder_generate (folder : Folder) (houtput : g.output = some path)
    (h : g.config.check = .ok ()) :
    (generate folder g).folder = folder.write path (g.format.render g.written) := by
  obtain ⟨count, hfile⟩ := Generation.file?_eq_ok h
  simp only [generate, hfile, Outcome.ofResult, houtput]
  rfl

/-- A configuration in a file is read back, unless it is YAML and the name of the file says JSON. -/
theorem ofFile?_write (folder : Folder) (path : String) (format : Format)
    (hcheck : c.check = .ok ()) (htext : ∀ x ∈ c.reals, HasText x)
    (hkeeps : ∀ x ∈ c.reals, Survives x) :
    Config.ofFile? (folder.write path (format.render c)) path =
      if format = .yaml ∧ Folder.extension? path = some "json" then .error .malformed
      else .ok c := by
  have hsites := Config.sites_ne_nil hcheck
  rw [Config.ofFile?, Folder.read?_write]
  dsimp only
  by_cases hjson : Folder.extension? path = some "json"
  · rw [if_pos hjson]
    cases format with
    | json =>
        rw [if_neg (fun h => nomatch h.1), ← Config.checked_eq_ok hcheck]
        exact Config.ofJsonText?_of_writes Json.Writes.pretty hsites
          fun x hx => ⟨htext x hx, (hkeeps x hx).1⟩
    | yaml =>
        rw [if_pos ⟨rfl, hjson⟩]
        exact c.ofJsonText?_yamlText
  · rw [if_neg hjson, if_neg (fun h => hjson h.2), ← Config.checked_eq_ok hcheck]
    cases format with
    | json =>
        exact Config.ofYamlText?_pretty (fun x hx => ⟨htext x hx, (hkeeps x hx).2.1⟩) hsites
    | yaml =>
        exact Config.ofYamlText?_yamlText (fun x hx => ⟨htext x hx, (hkeeps x hx).2.2⟩) hsites

/-- Loading what was written, without a radius from the environment. -/
theorem loadDevice?_write {d : Device} (folder : Folder) (path text : String)
    (hfile : Config.ofFile? (folder.write path text) path = .ok c) (hcheck : c.check = .ok ())
    (hbuild : c.build = .ok d) : loadDevice? (folder.write path text) none path = .ok d := by
  have hoverride : c.override none = c := rfl
  have hload : loadConfig? (folder.write path text) none path = .ok c := by
    rw [loadConfig?, Folder.read?_write, hfile]
    simp only [hoverride, hcheck]
    rfl
  rw [loadDevice?, hload]
  dsimp only [bind, Except.bind]
  rw [hbuild]
  rfl

theorem loadDevice?_write_error {e : ConfigError} (folder : Folder) (path text : String)
    (hfile : Config.ofFile? (folder.write path text) path = .error e) :
    loadDevice? (folder.write path text) none path = .error (.deviceFile path e) := by
  have hload : loadConfig? (folder.write path text) none path = .error (.deviceFile path e) := by
    rw [loadConfig?, Folder.read?_write, hfile]
    rfl
  rw [loadDevice?, hload]
  rfl

/-- A device file that was written is loaded again as the device of its parameters, whatever the
shape, with the sites listed or not. Only YAML in a file whose name says JSON is refused. -/
theorem loadDevice?_generate (folder : Folder) (houtput : g.output = some path)
    (hexit : (generate folder g).exit = 0) (hkeeps : ∀ x ∈ g.written.reals, Survives x) :
    ∃ d, g.config.build = .ok d ∧
      loadDevice? (generate folder g).folder none path =
        if g.format = .yaml ∧ Folder.extension? path = some "json" then
          .error (.deviceFile path .malformed)
        else .ok d := by
  have hcheck := (exit_generate_eq_zero_iff folder g).1 hexit
  obtain ⟨d, hbuild, -⟩ := Config.build_of_check hcheck
  refine ⟨d, hbuild, ?_⟩
  rw [folder_generate folder houtput hcheck]
  have hfile := ofFile?_write folder path g.format (g.check_written hcheck)
    (g.hasText_written hcheck) hkeeps
  split_ifs at hfile ⊢
  · exact loadDevice?_write_error folder path _ hfile
  · exact loadDevice?_write folder path _ hfile (g.check_written hcheck)
      ((g.build_written hcheck).trans hbuild)

/-- A packing of four sites, listed one by one as JSON. -/
def listedPacking : Generation :=
  { shape := .triangular, size := 1, rows := 1, cols := 1, lays := 1, top := 2, left := -1,
    upper := 0, radius := Config.standardRadius, expand := true, format := .json,
    output := some "packing.json" }

theorem check_listedPacking : listedPacking.config.check = .ok () := by rfl

theorem survives_listedPacking : ∀ x ∈ listedPacking.written.reals, Survives x := by
  decide +kernel

theorem loadDevice?_generate_listedPacking :
    listedPacking.output = some "packing.json" ∧ (generate ⟨[]⟩ listedPacking).exit = 0 ∧
      Config.standardRadius ∈ listedPacking.written.reals ∧
      (∀ x ∈ listedPacking.written.reals, Survives x) ∧
      ∃ d, listedPacking.config.build = .ok d ∧
        loadDevice? (generate ⟨[]⟩ listedPacking).folder none "packing.json" = .ok d := by
  have hexit : (generate ⟨[]⟩ listedPacking).exit = 0 :=
    (exit_generate_eq_zero_iff ⟨[]⟩ listedPacking).2 check_listedPacking
  obtain ⟨d, hbuild, hload⟩ := loadDevice?_generate ⟨[]⟩ rfl hexit survives_listedPacking
  have hjson : listedPacking.format ≠ .yaml := by decide
  exact ⟨rfl, hexit, List.mem_cons_self, survives_listedPacking, d, hbuild,
    hload.trans (if_neg fun h => hjson h.1)⟩

/-- A square of four sites, as YAML under a name that says JSON. -/
def misnamedSquare : Generation :=
  { shape := .square, size := 2, rows := 2, cols := 2, lays := 2, top := 0, left := 0, upper := 0,
    radius := Config.standardRadius, expand := false, format := .yaml,
    output := some "device.json" }

theorem check_misnamedSquare : misnamedSquare.config.check = .ok () := by rfl

theorem survives_misnamedSquare : ∀ x ∈ misnamedSquare.written.reals, Survives x := by
  decide +kernel

/-- Not every file that is written can be loaded. -/
theorem not_loadDevice?_generate_eq_build : ¬ ∀ (folder : Folder) (g : Generation) (path : String),
    g.output = some path → (generate folder g).exit = 0 →
    (∀ x ∈ g.written.reals, Survives x) →
    ∃ d, g.config.build = .ok d ∧ loadDevice? (generate folder g).folder none path = .ok d := by
  intro h
  have hexit : (generate ⟨[]⟩ misnamedSquare).exit = 0 :=
    (exit_generate_eq_zero_iff ⟨[]⟩ misnamedSquare).2 check_misnamedSquare
  obtain ⟨d, -, hload⟩ := h ⟨[]⟩ misnamedSquare "device.json" rfl hexit survives_misnamedSquare
  have hname : Folder.extension? "device.json" = some "json" := by decide +kernel
  have hfile := ofFile?_write ⟨[]⟩ "device.json" misnamedSquare.format
    (misnamedSquare.check_written check_misnamedSquare)
    (misnamedSquare.hasText_written check_misnamedSquare) survives_misnamedSquare
  rw [if_pos ⟨rfl, hname⟩] at hfile
  rw [folder_generate ⟨[]⟩ rfl check_misnamedSquare,
    loadDevice?_write_error ⟨[]⟩ "device.json" _ hfile] at hload
  cases hload

end CommandLine
end AtomArray
