import AtomArray.Gate
import AtomArray.Json.Reader

/-! Gates as data: records with their kind and exponents. -/

namespace AtomArray

def Family.kind (family : Family) : String := family.name ++ "_pow"

def Family.ofKind? (kind : String) : Option Family := all.find? (·.kind == kind)

namespace Gate

/-- A measurement key is written only if there is one. -/
def toData : Gate → Data
  | .identity => .record [("kind", .text "identity")]
  | .measure none => .record [("kind", .text "measure")]
  | .measure (some key) => .record [("kind", .text "measure"), ("key", .text key)]
  | .power family e => .record [("kind", .text family.kind), ("exponent", .real e)]
  | .phasedX phase e =>
    .record [("kind", .text "phased_x_pow"), ("phase_exponent", .real phase), ("exponent", .real e)]
  | .cswap => .record [("kind", .text "cswap")]
  | .custom name arity =>
    .record [("kind", .text "custom"), ("name", .text name), ("num_qubits", .integer arity.toNat)]

def key? : Data → Option (Option String)
  | .null => some none
  | value => value.text?.map some

/-- The gate of a kind, from the record that goes with it. -/
def ofKind? (kind : String) (rest : Data) : Option Gate :=
  match Family.ofKind? kind with
  | some family =>
    match rest.fields? ["exponent"] with
    | some [some e] => do return .power family (← e.float?)
    | _ => none
  | none =>
    match kind with
    | "identity" => rest.noFields?.map fun _ => .identity
    | "cswap" => rest.noFields?.map fun _ => .cswap
    | "measure" =>
      match rest.fields? ["key"] with
      | some [key] => do return .measure (← Data.fieldOr none key? key)
      | _ => none
    | "phased_x_pow" =>
      match rest.fields? ["phase_exponent", "exponent"] with
      | some [some phase, some e] => do return .phasedX (← phase.float?) (← e.float?)
      | _ => none
    | "custom" =>
      match rest.fields? ["name", "num_qubits"] with
      | some [some name, some arity] => do return .custom (← name.text?) (← arity.uint32?)
      | _ => none
    | _ => none

def kinds : List String :=
  ["identity", "measure", "x_pow", "y_pow", "z_pow", "phased_x_pow", "h_pow", "cz_pow", "cnot_pow",
    "swap_pow", "ccz_pow", "ccx_pow", "cswap", "custom"]

def ofNumbered? (numbered : List String) (value : Data) : Option Gate := do
  let (kind, rest) ← value.tagged? numbered "kind"
  ofKind? kind rest

def ofData? : Data → Option Gate := ofNumbered? []

/-- A gate inside of another value, where its kind may also be given by its number. -/
def ofPart? : Data → Option Gate := ofNumbered? kinds

def ofText? (text : String) : Option Gate := (Json.readWhole? text).bind ofData?

end Gate
end AtomArray
