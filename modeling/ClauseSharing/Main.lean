import ClauseSharing.Command.Arguments

/-!
The command line: reads the files that a command names, runs it, and prints what it answers.
-/

namespace ClauseSharing

def loadFile (path : String) : IO (Except StreamFault (List UInt8)) := do
  try
    return .ok (← IO.FS.readBinFile path).toList
  catch
    | .noFileOrDirectory .. => return .error .missingFile
    | e => return .error ⟨false, toString e⟩

/-- Runs a command on the files it names. -/
def execute (command : Command) : IO UInt32 := do
  let loaded ← command.paths.mapM fun path => return (path, ← loadFile path)
  let files : Files := fun path => (loaded.lookup path).getD (.error .missingFile)
  match command.run files with
  | .ok outcome =>
    outcome.output.forM (IO.println ·)
    outcome.errors.forM (IO.eprintln ·)
    return UInt32.ofNat outcome.code
  | .error breach =>
    IO.eprintln (breach.message?.getD "contract violated")
    return 101

end ClauseSharing

def main (arguments : List String) : IO UInt32 :=
  match ClauseSharing.Command.ofArguments arguments with
  | .ok command => ClauseSharing.execute command
  | .error message => do
    IO.eprintln message
    return 1
