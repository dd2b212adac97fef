import AtomArray.Device.Verdict

/-! Listings of a device's sites, and of the verdicts on a circuit. -/

namespace AtomArray.CommandLine

def padded (width : Nat) (text : String) : String :=
  text ++ String.ofList (List.replicate (width - text.length) ' ')

/-- The radius and timings of a device, and its sites with the number of their neighbors. -/
def description (path : String) (d : Device) : List String :=
  ["Device " ++ path,
    "  Control radius: " ++ Decimal.Style.plain.render d.radius,
    "  Sites:          " ++ toString d.size,
    "  Identity:       " ++ d.timings.identity.render,
    "  Measurement:    " ++ d.timings.measurement.render,
    "",
    "  " ++ padded 24 "Site" ++ " Neighbors"] ++
  d.sites.map fun s => "  " ++ padded 24 s.render ++ " " ++ toString (d.neighbors s).length

/-- The line on an operation, and below it what it is lowered to if that is more than one. -/
def verdictLines (lowering : Bool) (index : Nat) (op : Operation) (v : Verdict) : List String :=
  let label := "[" ++ toString index ++ "] " ++ op.render
  match v.error with
  | some e => ["  ✗ " ++ label ++ ": " ++ e.message]
  | none =>
    ("  ✓ " ++ label) ::
      if lowering && 1 < v.native.length then v.native.map fun op => "      " ++ op.render else []

def report (path : String) (d : Device) (lowering : Bool) (ops : List Operation) : List String :=
  ("→ Validating " ++ toString ops.length ++ " operations against " ++ path ++ " (" ++
      toString d.size ++ " sites)") ::
    ops.zipIdx.flatMap fun (op, index) => verdictLines lowering index op (d.verdict lowering op)

def countFailures (d : Device) (lowering : Bool) (ops : List Operation) : Nat :=
  ops.countP fun op => (d.verdict lowering op).error.isSome

end AtomArray.CommandLine
