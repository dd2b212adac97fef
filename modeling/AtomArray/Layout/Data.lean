import AtomArray.Layout
import AtomArray.Qubit.Data

/-! Layouts as data: records with their kind, extents and offsets. -/

namespace AtomArray.Layout

/-- Offsets are always written. -/
def toData : Layout → Data
  | .box rows cols lays top left upper =>
    .record [("kind", .text "parallelepiped"), ("rows", .integer rows.toNat),
      ("cols", .integer cols.toNat), ("lays", .integer lays.toNat), ("top", .integer top.toInt),
      ("left", .integer left.toInt), ("upper", .integer upper.toInt)]
  | .cube diameter top left upper =>
    .record [("kind", .text "cube"), ("diameter", .integer diameter.toNat),
      ("top", .integer top.toInt), ("left", .integer left.toInt), ("upper", .integer upper.toInt)]
  | .rect rows cols top left =>
    .record [("kind", .text "rect"), ("rows", .integer rows.toNat), ("cols", .integer cols.toNat),
      ("top", .integer top.toInt), ("left", .integer left.toInt)]
  | .square diameter top left =>
    .record [("kind", .text "square"), ("diameter", .integer diameter.toNat),
      ("top", .integer top.toInt), ("left", .integer left.toInt)]
  | .triangular size top left =>
    .record [("kind", .text "triangular_lattice"), ("size", .integer size.toNat),
      ("top", .real top), ("left", .real left)]
  | .explicit sites =>
    .record [("kind", .text "explicit"), ("qubits", .list (sites.map Site.toData))]

def offset? : Option Data → Option Int64 := Data.fieldOr 0 Data.int64?

def realOffset? : Option Data → Option Float := Data.fieldOr 0 Data.float?

/-- The layout of a kind, from the record that goes with it. Offsets that are left out are zero. -/
def ofKind? (kind : String) (rest : Data) : Option Layout :=
  match kind with
  | "parallelepiped" =>
    match rest.fields? ["rows", "cols", "lays", "top", "left", "upper"] with
    | some [some rows, some cols, some lays, top, left, upper] => do
      return .box (← rows.uint32?) (← cols.uint32?) (← lays.uint32?)
        (← offset? top) (← offset? left) (← offset? upper)
    | _ => none
  | "cube" =>
    match rest.fields? ["diameter", "top", "left", "upper"] with
    | some [some diameter, top, left, upper] => do
      return .cube (← diameter.uint32?) (← offset? top) (← offset? left) (← offset? upper)
    | _ => none
  | "rect" =>
    match rest.fields? ["rows", "cols", "top", "left"] with
    | some [some rows, some cols, top, left] => do
      return .rect (← rows.uint32?) (← cols.uint32?) (← offset? top) (← offset? left)
    | _ => none
  | "square" =>
    match rest.fields? ["diameter", "top", "left"] with
    | some [some diameter, top, left] => do
      return .square (← diameter.uint32?) (← offset? top) (← offset? left)
    | _ => none
  | "triangular_lattice" =>
    match rest.fields? ["size", "top", "left"] with
    | some [some size, top, left] => do
      return .triangular (← size.uint32?) (← realOffset? top) (← realOffset? left)
    | _ => none
  | "explicit" =>
    match rest.fields? ["qubits"] with
    | some [some sites] => do return .explicit (← (← sites.list?).mapM Site.ofData?)
    | _ => none
  | _ => none

def ofData? (value : Data) : Option Layout := do
  let (kind, rest) ← value.tagged? [] "kind"
  ofKind? kind rest

def ofText? (text : String) : Option Layout := (Json.readWhole? text).bind ofData?

end AtomArray.Layout
