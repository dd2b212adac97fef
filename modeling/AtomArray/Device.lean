import AtomArray.Site.Ascending
import AtomArray.Lowering

/-! Neutral-atom devices: a fixed set of sites, the radius within which they interact, the timings
of the passive operations and the strategy for lowering the other gates. -/

namespace AtomArray

/-- The reach of an interaction is a positive finite length. -/
def isRadius (r : Float) : Bool := r.isFinite && 0 < r

theorem isRadius_one : isRadius 1 = true := by decide +kernel

structure Device where
  radius : Float
  sites : List Site
  timings : Timings
  strategy : Strategy
  radius_ok : isRadius radius = true
  ascending : Site.Ascending sites

namespace Device

/-- The sites of a list of qubits, or its first qubit that is none. -/
def sitesOf? : List Qubit → Except DeviceError (List Site)
  | [] => .ok []
  | .site s :: rest => (sitesOf? rest).map (s :: ·)
  | q :: _ => .error (.unsupportedQubitType q)

def onSites? (radius : Float) (sites : List Site) : Except DeviceError Device :=
  if radius_ok : isRadius radius = true then
    .ok ⟨radius, Site.ascending sites, .standard, .standard, radius_ok,
      Site.ascending_ascending sites⟩
  else .error (.invalidRadius radius)

/-- A device on a list of qubits, which are judged before the radius. -/
def new? (radius : Float) (qubits : List Qubit) : Except DeviceError Device := do
  onSites? radius (← sitesOf? qubits)

def withTimings (d : Device) (timings : Timings) : Device := { d with timings }

def withStrategy (d : Device) (strategy : Strategy) : Device := { d with strategy }

/-- Equal radius, sites and timings; the strategy does not count. -/
instance : BEq Device where
  beq a b := a.radius == b.radius && a.sites == b.sites && a.timings == b.timings

def size (d : Device) : Nat := d.sites.length

def isEmpty (d : Device) : Bool := d.sites.isEmpty

def qubits (d : Device) : List Qubit := d.sites.map .site

def hasSite (d : Device) (s : Site) : Bool :=
  let place := s.place
  d.sites.any fun other => other.place == place

def contains (d : Device) (q : Qubit) : Bool :=
  match q.site? with
  | some s => d.hasSite s
  | none => false

/-- The distance of two sites, which need not belong to the device. -/
def distance (_ : Device) (a b : Qubit) : Except DeviceError Float :=
  match a.site?, b.site? with
  | none, _ => .error (.unsupportedQubit a)
  | _, none => .error (.unsupportedQubit b)
  | some s, some t => .ok (s.distance t)

/-- The other sites within the radius, in ascending order. -/
def neighbors (d : Device) (s : Site) : List Site :=
  d.sites.filter fun other => s.distance other ≤ d.radius && other != s

/-- Only identity and measurement have a known duration. -/
def durationOf (d : Device) (op : Operation) : Except DeviceError Duration :=
  match op.gate?.bind Gate.nativeKind? with
  | some .identity => .ok d.timings.identity
  | some .measurement => .ok d.timings.measurement
  | _ => .error (.unsupportedDuration op)

def lowerWith (_ : Device) (strategy : Strategy) (op : Operation) :
    Except DeviceError (List Operation) :=
  match op with
  | .gate g => (Lowering.expand strategy.step maxLoweringDepth g).map (·.map .gate)
  | _ => .error (.notAGate op)

def lower (d : Device) (op : Operation) : Except DeviceError (List Operation) :=
  d.lowerWith d.strategy op

/-- Refuses the first of some qubits that is out of reach of `a`. -/
def checkReach (d : Device) (a : Qubit) : List Qubit → Except DeviceError Unit
  | [] => .ok ()
  | b :: rest => do
    let distance ← d.distance a b
    if d.radius < distance then .error (.tooFarApart a b distance d.radius)
    else d.checkReach a rest

/-- Every two of the qubits are within reach of each other. -/
def checkPairs (d : Device) : List Qubit → Except DeviceError Unit
  | [] => .ok ()
  | a :: rest => do
    d.checkReach a rest
    d.checkPairs rest

/-- The rule for the number and distance of targets: a Z rotation in parallel leaves out some site,
and an X or Y rotation in parallel meets one site or all. -/
def checkTargets (d : Device) (kind : NativeKind) (targets : List Qubit) :
    Except DeviceError Unit :=
  let count := targets.length
  match kind with
  | .twoQubitEntangler | .threeQubitEntangler => d.checkPairs targets
  | .parallelZ => if d.size - 1 < count then .error (.tooManyZ count d.size) else .ok ()
  | .parallelXy =>
    if count ≠ 1 ∧ count ≠ d.size then .error (.badXyCount count d.size) else .ok ()
  | _ => .ok ()

/-- Whether the device can execute an operation: it is native, its targets are sites of the device,
and they obey the rule of its kind. -/
def check (d : Device) (op : Operation) : Except DeviceError Unit :=
  match op.nativeKind? with
  | none => .error (.unsupportedOperation op)
  | some kind =>
    match op.qubits.find? fun q => !d.contains q with
    | some q => .error (.notOnDevice q)
    | none => d.checkTargets kind op.qubits

def checkAll (d : Device) (ops : List Operation) : Except DeviceError Unit := ops.forM d.check

/-- Lowers an operation if it is a gate, and checks what comes of it. -/
def prepareOne (d : Device) (op : Operation) : Except DeviceError (List Operation) := do
  let native ← match op with
    | .gate _ => d.lower op
    | _ => .ok [op]
  d.checkAll native
  return native

def prepare (d : Device) (ops : List Operation) : Except DeviceError (List Operation) := do
  return (← ops.mapM d.prepareOne).flatten

def render (d : Device) : String :=
  "PasqalDevice(control_radius=" ++ Decimal.Style.plain.render d.radius ++ ", qubits=[" ++
    ", ".intercalate (d.sites.map Site.render) ++ "])"

/-- The inspection form, with the name of the strategy. -/
def inspect (d : Device) : String :=
  "PasqalDevice \x7b control_radius: " ++ Decimal.Style.debug.render d.radius ++ ", qubits: [" ++
    ", ".intercalate (d.sites.map Site.inspect) ++ "], durations: DurationTable \x7b identity: " ++
    d.timings.identity.render ++ ", measurement: " ++ d.timings.measurement.render ++
    " \x7d, decomposer: \"" ++ d.strategy.name ++ "\" \x7d"

end Device
end AtomArray
