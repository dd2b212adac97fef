import AtomArray.Device
import AtomArray.Layout
import AtomArray.Decimal.Numeral

/-! Device configurations: a radius, a layout and timings. -/

namespace AtomArray

structure Config where
  radius : Float
  layout : Layout
  timings : TimingRecord

namespace Config

def standardRadius : Float := 1.5

def ofLayout (layout : Layout) : Config := ⟨standardRadius, layout, .standard⟩

/-- The radius is judged first, then the layout, then the timings. -/
def check (c : Config) : Except ConfigFault Unit := do
  if !isRadius c.radius then throw (.radiusNotPositive c.radius)
  if (← c.layout.siteCount) = 0 then throw .noSites
  c.timings.check

def build (c : Config) : Except DeviceError Device := do
  match c.check with
  | .error fault => throw (.config fault)
  | .ok () =>
    let device ← Device.onSites? c.radius c.layout.sites
    return device.withTimings c.timings.toTimings

def radiusVariable : String := "PASQAL_CONTROL_RADIUS"

/-- Takes the radius from the environment; text that is no number is ignored. -/
def override (c : Config) (value : Option String) : Config :=
  match value.bind Decimal.readFloat? with
  | some radius => { c with radius }
  | none => c

/-- Lists the sites of the layout one by one. -/
def expand (c : Config) : Config := { c with layout := .explicit c.layout.sites }

end Config
end AtomArray
