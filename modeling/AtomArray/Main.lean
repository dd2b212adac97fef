import AtomArray.CommandLine.Outcome

/-! The command line: reads the files that a request names, prints its answer, and writes what
changed. -/

namespace AtomArray.CommandLine

def readFile? (path : String) : IO (Option (String × String)) := do
  try
    return some (Folder.nameOf path, ← IO.FS.readFile path)
  catch _ =>
    return none

def readFolder (args : List String) : IO Folder := do
  let paths := ((Request.ofArgs? args).map Request.reads).getD []
  return ⟨(← paths.mapM readFile?).filterMap id⟩

end AtomArray.CommandLine

open AtomArray CommandLine

def main (args : List String) : IO UInt32 := do
  let folder ← readFolder args
  let outcome := run folder args (← IO.getEnv Config.radiusVariable)
  for (name, text) in folder.changes outcome.folder do
    IO.FS.writeFile name text
  (← IO.getStdout).putStr outcome.stdout
  (← IO.getStderr).putStr outcome.stderr
  return outcome.exit
