import Lowering.Command

/-!
# The program
-/

namespace Lowering

/-- Carries out an access to a file. -/
def attemptAccess {α : Type} (access : IO α) : IO (Except FileError α) := do
  try
    return .ok (← access)
  catch error =>
    match error with
    | .noFileOrDirectory .. => return .error .missing
    | .inappropriateType .. => return .error .isFolder
    | _ => return .error (.other (toString error))

/-- The files of the machine. -/
def localDisk : Disk IO where
  read path := attemptAccess (IO.FS.readFile path)
  create path := attemptAccess (IO.FS.writeFile path "")
  write path text := IO.FS.writeFile path text

end Lowering

def main (arguments : List String) : IO UInt32 := do
  let outcome ← Lowering.Command.run Lowering.localDisk arguments
  IO.print outcome.output
  IO.eprint outcome.ending.message
  return UInt32.ofNat outcome.ending.exitCode
