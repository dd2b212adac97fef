import AtomArray.Config.Data
import AtomArray.Operation.Data

/-! Devices as data: the radius, the sites in order, and timings other than the standard. -/

namespace AtomArray.Device

def toData (d : Device) : Data :=
  let timings := TimingRecord.ofTimings d.timings
  .record <| ("control_radius", .real d.radius) :: ("qubits", .list (d.sites.map Site.toData)) ::
    if timings.isStandard then [] else [("durations", timings.toData)]

def recordOf? (value : Data) : Option (Float × List Site × TimingRecord) :=
  match value.fields? ["control_radius", "qubits", "durations"] with
  | some [some radius, some sites, timings] => do
    return (← radius.float?, ← (← sites.list?).mapM Site.ofData?,
      ← Data.fieldOr .standard TimingRecord.ofData? timings)
  | _ => none

/-- A device from its record; the timings are judged before the radius. -/
def ofRecord? (radius : Float) (sites : List Site) (timings : TimingRecord) :
    Except DeviceError Device :=
  match timings.check with
  | .error fault => .error (.config fault)
  | .ok () => (onSites? radius sites).map (·.withTimings timings.toTimings)

/-- A device alone in a text. It is judged before what follows it. -/
def ofText? (text : String) : Except (ReadError DeviceError) Device := do
  let (value, rest) ← ReadError.ofOption (Json.readFront? text.toList)
  let (radius, sites, timings) ← ReadError.ofOption (recordOf? value)
  match ofRecord? radius sites timings with
  | .error e => throw (.refused e)
  | .ok device => if (Json.skipBlanks rest).isEmpty then return device else throw .malformed

end AtomArray.Device
