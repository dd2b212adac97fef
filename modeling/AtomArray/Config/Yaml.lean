import AtomArray.Config.Data
import AtomArray.Yaml.Document
import AtomArray.Yaml.Printer

/-! Configurations as YAML. -/

namespace AtomArray

/-- Either duration may be left out, and so may both. -/
def TimingRecord.ofYaml? (node : Yaml) : Option TimingRecord :=
  match node.fields? ["identity_ns", "measurement_ns"] with
  | some [identity, measurement] => do
    return ⟨← Yaml.fieldOr standard.identity Yaml.uint64? identity,
      ← Yaml.fieldOr standard.measurement Yaml.uint64? measurement⟩
  | _ => none

namespace Config

/-- A record of which all but the layout may be left out. The layout, being one of several kinds, is
read as a whole. -/
def ofYaml? (node : Yaml) : Option Config :=
  match node.fields? ["control_radius", "layout", "durations"] with
  | some [radius, some layout, timings] =>
    if layout.fits (Yaml.maxDepth - 1) then do
      return ⟨← Yaml.fieldOr standardRadius Yaml.float? radius, ← Layout.ofData? layout.toData,
        ← Yaml.fieldOr .standard TimingRecord.ofYaml? timings⟩
    else none
  | _ => none

def ofYamlText? (text : String) : Except ConfigError Config :=
  match (Yaml.read? text).bind ofYaml? with
  | some c => c.checked
  | none => .error .malformed

def yamlText (c : Config) : String := Yaml.write c.toData

end Config
end AtomArray
