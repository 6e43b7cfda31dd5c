import Pseudocod.CommandLine.Basic

/-!
# The program

Looks up files on the disk and prints what `CommandLine.run` says.
-/

namespace Pseudocod

/-- What is found on the disk under the name of a file. The error number 21 is that of a folder. -/
def findOnDisk (path : String) : IO CommandLine.Found := do
  try
    return .bytes (← IO.FS.readBinFile path)
  catch error =>
    match error with
    | .inappropriateType _ 21 _ => return .folder
    | .noFileOrDirectory .. | .inappropriateType .. => return .missing
    | other => return .unreadable (toString other)

/-- Carries out what the arguments ask for. -/
def runProgram (arguments : List String) : IO UInt32 := do
  let found ←
    match arguments with
    | _ :: path :: _ => findOnDisk path
    | _ => pure .missing
  let exit := CommandLine.run (fun _ => found) arguments
  (← IO.getStdout).putStr exit.stdout
  (← IO.getStderr).putStr exit.stderr
  return exit.code.toUInt32

end Pseudocod

def main (arguments : List String) : IO UInt32 :=
  Pseudocod.runProgram arguments
