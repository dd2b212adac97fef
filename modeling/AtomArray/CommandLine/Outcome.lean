import AtomArray.CommandLine.Listing
import AtomArray.CommandLine.Loading
import AtomArray.CommandLine.Request

/-! What a command prints and writes. -/

namespace AtomArray.CommandLine

/-- The exit code is 0 for success, 1 for a failure and 2 for a command line that is not in
order. -/
structure Outcome where
  exit : UInt32
  stdout : String
  stderr : String
  folder : Folder

namespace Outcome

def success (folder : Folder) (stdout stderr : String) : Outcome := ⟨0, stdout, stderr, folder⟩

def failure (folder : Folder) (stdout : String) (e : Failure) : Outcome :=
  ⟨1, stdout, "Error: " ++ e.message ++ "\n", folder⟩

/-- What a result comes to; a failure prints nothing else. -/
def ofResult {α : Type} (folder : Folder) (result : Except Failure α) (answer : α → Outcome) :
    Outcome :=
  match result with
  | .ok a => answer a
  | .error e => failure folder "" e

end Outcome

def unlines (lines : List String) : String := String.join (lines.map (· ++ "\n"))

/-- The device file for a lattice, and the number of its sites. -/
def Generation.file? (g : Generation) : Except Failure (String × Nat) :=
  let count := do
    g.config.check
    g.config.layout.siteCount
  match count with
  | .error fault => .error (.invalid fault)
  | .ok count => .ok (g.format.render (if g.expand then g.config.expand else g.config), count)

def usageText : String := "Usage: pasqal [-v] [-V] <layout|describe|validate> [OPTIONS]\n"

def versionText : String := "pasqal 0.3.0\n"

/-- Prints a device file, or writes it to the output. -/
def generate (folder : Folder) (g : Generation) : Outcome :=
  .ofResult folder g.file? fun (text, count) =>
    match g.output with
    | none => .success folder text ""
    | some path =>
      .success (folder.write path text) ""
        ("✓ Wrote " ++ toString count ++ " sites to " ++ path ++ "\n")

def describe (folder : Folder) (radius : Option String) (device : String) : Outcome :=
  .ofResult folder (loadDevice? folder radius device) fun d =>
    .success folder (unlines (description device d)) ""

/-- Validates the operations in a file against the device in another, which is loaded first. -/
def validate (folder : Folder) (radius : Option String) (device ops : String) (lowering : Bool) :
    Outcome :=
  let loaded := do return (← loadDevice? folder radius device, ← loadOperations? folder ops)
  .ofResult folder loaded fun (d, ops) =>
    let lines := report device d lowering ops
    match countFailures d lowering ops with
    | 0 => .success folder (unlines (lines ++ ["✓ All operations valid"])) ""
    | failed => .failure folder (unlines lines) (.refused failed ops.length)

/-- Answers a request on the files of a folder. `radius` is what the environment says of it. -/
def Request.answer (folder : Folder) (radius : Option String) : Request → Outcome
  | .version => .success folder versionText ""
  | .layout g => generate folder g
  | .describe device => CommandLine.describe folder radius device
  | .validate device ops lowering => CommandLine.validate folder radius device ops lowering

def run (folder : Folder) (args : List String) (radius : Option String) : Outcome :=
  match Request.ofArgs? args with
  | some request => request.answer folder radius
  | none => ⟨2, "", usageText, folder⟩

end AtomArray.CommandLine
