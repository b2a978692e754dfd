import Ogg.CommandLine

/-!
# The program

Reads the files that the arguments name, lets `CommandLine.run` work, prints.
-/

namespace Ogg.CommandLine

/-- The number of a system error, which may come negated in two's complement. -/
def errorNumber (code : UInt32) : Nat :=
  if code.toNat < 0x80000000 then code.toNat else UInt32.size - code.toNat

/-- The system's words for an error of a number on a file. -/
def numberMessage (code : UInt32) (details : String) : String :=
  match errorNumber code with
  | 2 => PathError.missing.message
  | 13 => "Permission denied (os error 13)"
  | 20 => PathError.notFolder.message
  | 21 => PathError.folder.message
  | 36 => PathError.tooLong.message
  | n => s!"{details} (os error {n})"

/-- The system's words for an error on a file. -/
def systemMessage : IO.Error → String
  | .noFileOrDirectory _ code details => numberMessage code details
  | .permissionDenied _ code details => numberMessage code details
  | .inappropriateType _ code details => numberMessage code details
  | .invalidArgument _ code details => numberMessage code details
  | e => toString e

/-- The bytes of a file, or the system's words for why there are none. -/
def readPath (path : String) : IO (Except String Bytes) := do
  try
    return .ok (← IO.FS.readBinFile path).toList
  catch e =>
    return .error (systemMessage e)

end Ogg.CommandLine

open Ogg

/-- The program. -/
def main (args : List String) : IO UInt32 := do
  let paths := match CommandLine.Request.ofArguments args with
    | .run command => command.paths
    | _ => []
  let files ← paths.mapM fun path => do return (path, ← CommandLine.readPath path)
  let output := CommandLine.run (fun path => (files.lookup path).getD (.error "unknown path")) args
  IO.print output.stdout
  IO.eprint output.stderr
  return output.code.toUInt32
