import AtomArray.Config.Load
import AtomArray.Operation.Data

/-! Devices and operations from the files that a command names. -/

namespace AtomArray.CommandLine

inductive Failure
  | fileNotFound (path : String)
  | deviceFile (path : String) (error : ConfigError)
  | invalid (fault : ConfigFault)
  | device (error : DeviceError)
  | operationsFile (path : String)
  | refused (failed total : Nat)

def Failure.message : Failure → String
  | .fileNotFound path => "File not found: " ++ path
  | .deviceFile path e => "Failed to load device file: " ++ path ++ ": " ++ e.message
  | .invalid fault => fault.message
  | .device e => e.message
  | .operationsFile path => "Invalid operations file: " ++ path
  | .refused failed total =>
    toString failed ++ " of " ++ toString total ++ " operations failed validation"

/-- The configuration in a device file, with the radius from the environment. A fault of the file
itself is reported with its path. -/
def loadConfig? (folder : Folder) (radius : Option String) (path : String) :
    Except Failure Config :=
  if (folder.read? path).isNone then .error (.fileNotFound path)
  else match Config.ofFile? folder path with
    | .error e => .error (.deviceFile path e)
    | .ok c =>
      let c := c.override radius
      match c.check with
      | .error fault => .error (.invalid fault)
      | .ok () => .ok c

def loadDevice? (folder : Folder) (radius : Option String) (path : String) :
    Except Failure Device := do
  match (← loadConfig? folder radius path).build with
  | .ok d => return d
  | .error e => throw (.device e)

def loadOperations? (folder : Folder) (path : String) : Except Failure (List Operation) :=
  match folder.read? path with
  | none => .error (.fileNotFound path)
  | some text =>
    match Operation.listOfText? text with
    | .ok ops => .ok ops
    | .error _ => .error (.operationsFile path)

end AtomArray.CommandLine
