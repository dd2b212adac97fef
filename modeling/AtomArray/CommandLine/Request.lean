import AtomArray.CommandLine.Arguments
import AtomArray.Config.Yaml
import AtomArray.Json.Printer

/-! What a command line asks for. -/

namespace AtomArray.CommandLine

inductive Shape
  | cube | square | rect | box | triangular
  deriving DecidableEq, Repr

def Shape.ofName? : String → Option Shape
  | "cube" => some .cube
  | "square" => some .square
  | "rect" => some .rect
  | "parallelepiped" => some .box
  | "triangular" => some .triangular
  | _ => none

inductive Format
  | json | yaml
  deriving DecidableEq, Repr

def Format.ofName? : String → Option Format
  | "json" => some .json
  | "yaml" => some .yaml
  | _ => none

def Format.render : Format → Config → String
  | .json, c => Json.pretty c.toData
  | .yaml, c => c.yamlText

/-- The parameters of a lattice to generate, and where its device file goes. -/
structure Generation where
  shape : Shape
  size : UInt32
  rows : UInt32
  cols : UInt32
  lays : UInt32
  top : Int64
  left : Int64
  upper : Int64
  radius : Float
  expand : Bool
  format : Format
  output : Option String

inductive Request
  | version
  | layout (g : Generation)
  | describe (device : String)
  | validate (device ops : String) (lowering : Bool)

/-- The layout that the parameters describe; each shape takes those that it has. -/
def Generation.layout (g : Generation) : Layout :=
  match g.shape with
  | .cube => .cube g.size g.top g.left g.upper
  | .square => .square g.size g.top g.left
  | .rect => .rect g.rows g.cols g.top g.left
  | .box => .box g.rows g.cols g.lays g.top g.left g.upper
  | .triangular => .triangular g.size (Binary64.ofInt64 g.top) (Binary64.ofInt64 g.left)

def Generation.config (g : Generation) : Config :=
  { Config.ofLayout g.layout with radius := g.radius }

namespace Request

def verbose : Choice := ⟨"verbose", some 'v', .counter⟩

def layoutChoices : List Choice :=
  [verbose, ⟨"size", some 's', .value⟩, ⟨"rows", none, .value⟩, ⟨"cols", none, .value⟩,
    ⟨"lays", none, .value⟩, ⟨"top", none, .freeValue⟩, ⟨"left", none, .freeValue⟩,
    ⟨"upper", none, .freeValue⟩, ⟨"radius", some 'r', .value⟩, ⟨"expand", none, .flag⟩,
    ⟨"format", some 'f', .value⟩, ⟨"output", some 'o', .value⟩]

/-- Extents that are left out are the size. -/
def layout? (args : List String) : Option Request := do
  let words ← arguments? layoutChoices args
  match operands words with
  | [shape] =>
    let size ← optionOr words "size" 2 uint32?
    return .layout
      { shape := ← Shape.ofName? shape
        size
        rows := ← optionOr words "rows" size uint32?
        cols := ← optionOr words "cols" size uint32?
        lays := ← optionOr words "lays" size uint32?
        top := ← optionOr words "top" 0 int64?
        left := ← optionOr words "left" 0 int64?
        upper := ← optionOr words "upper" 0 int64?
        radius := ← optionOr words "radius" Config.standardRadius Decimal.readFloat?
        expand := hasFlag words "expand"
        format := ← optionOr words "format" .yaml Format.ofName?
        output := (valuesOf words "output").head? }
  | _ => none

def describe? (args : List String) : Option Request := do
  let words ← arguments? [verbose, ⟨"device", some 'd', .value⟩] args
  match operands words with
  | [] => return .describe (← (valuesOf words "device").head?)
  | _ => none

def validate? (args : List String) : Option Request := do
  let words ← arguments?
    [verbose, ⟨"device", some 'd', .value⟩, ⟨"ops", none, .value⟩, ⟨"decompose", none, .flag⟩] args
  match operands words with
  | [] =>
    return .validate (← (valuesOf words "device").head?) (← (valuesOf words "ops").head?)
      (hasFlag words "decompose")
  | _ => none

/-- Whether short options before the command ask for the version, which answers at once. -/
def asksVersion? : List Char → Option Bool
  | [] => some false
  | 'v' :: rest => asksVersion? rest
  | 'V' :: _ => some true
  | _ => none

def ofArgs? : List String → Option Request
  | [] => none
  | "layout" :: args => layout? args
  | "describe" :: args => describe? args
  | "validate" :: args => validate? args
  | "--version" :: _ => some .version
  | "--verbose" :: args => ofArgs? args
  | word :: args =>
    match word.toList with
    | '-' :: c :: rest =>
      match asksVersion? (c :: rest) with
      | some true => some .version
      | some false => ofArgs? args
      | none => none
    | _ => none

def reads : Request → List String
  | .describe device => [device]
  | .validate device ops _ => [device, ops]
  | .version | .layout _ => []

end Request
end AtomArray.CommandLine
