import AtomArray.Config
import AtomArray.Json.Reader
import AtomArray.Layout.Data

/-! Timings and configurations as data. -/

namespace AtomArray

namespace TimingRecord

def toData (r : TimingRecord) : Data :=
  .record [("identity_ns", .integer r.identity.toNat),
    ("measurement_ns", .integer r.measurement.toNat)]

/-- Either duration may be left out. -/
def ofData? (value : Data) : Option TimingRecord :=
  match value.fields? ["identity_ns", "measurement_ns"] with
  | some [identity, measurement] => do
    return ⟨← Data.fieldOr standard.identity Data.uint64? identity,
      ← Data.fieldOr standard.measurement Data.uint64? measurement⟩
  | _ => none

end TimingRecord

inductive ConfigError
  | unreadable
  | malformed
  | invalid (fault : ConfigFault)

/-- The text that is known of an error here; what the reader of a file adds to it is not. -/
def ConfigError.message : ConfigError → String
  | .unreadable => "I/O error"
  | .malformed => "Parse error"
  | .invalid fault => fault.message

namespace Config

def toData (c : Config) : Data :=
  .record [("control_radius", .real c.radius), ("layout", c.layout.toData),
    ("durations", c.timings.toData)]

/-- A record of which all but the layout may be left out. The layout, being one of several kinds, is
read as a whole. -/
def ofData? (value : Data) : Option Config :=
  match value.fields? ["control_radius", "layout", "durations"] with
  | some [radius, some layout, timings] =>
    if layout.fits (Json.maxDepth - 1) then do
      return ⟨← Data.fieldOr standardRadius Data.float? radius, ← Layout.ofData? layout,
        ← Data.fieldOr .standard TimingRecord.ofData? timings⟩
    else none
  | _ => none

def checked (c : Config) : Except ConfigError Config :=
  match c.check with
  | .ok () => .ok c
  | .error fault => .error (.invalid fault)

def ofJsonText? (text : String) : Except ConfigError Config :=
  match (Json.read? text).bind ofData? with
  | some c => c.checked
  | none => .error .malformed

end Config
end AtomArray
