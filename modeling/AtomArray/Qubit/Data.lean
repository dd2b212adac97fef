import AtomArray.Json.Reader
import AtomArray.Qubit

/-! Sites and qubits as data. -/

namespace AtomArray

namespace Site

def toData (s : Site) : Data := .record [("x", .real s.x), ("y", .real s.y), ("z", .real s.z)]

def ofData? (value : Data) : Option Site :=
  match value.fields? ["x", "y", "z"] with
  | some [some x, some y, some z] => do return ⟨← x.float?, ← y.float?, ← z.float?⟩
  | _ => none

def ofText? (text : String) : Option Site := (Json.read? text).bind ofData?

end Site

namespace Qubit

/-- A site is a record, a line qubit an integer, and a named qubit a string. -/
def toData : Qubit → Data
  | .site s => s.toData
  | .line n => .integer n.toInt
  | .named name => .text name

def ofData? (value : Data) : Option Qubit :=
  (Site.ofData? value).map .site <|> value.int64?.map .line <|> value.text?.map .named

def ofText? (text : String) : Option Qubit := (Json.readWhole? text).bind ofData?

end Qubit
end AtomArray
