import Postlink.CommandLine

/-!
# The program

Runs the command line on the files of the disk.
-/

namespace Postlink

/-- The system's number of an error. It can arrive with its sign turned, as a word. -/
def systemNumber (code : UInt32) : Nat := (if code < 0x80000000 then code else 0 - code).toNat

/-- The system's wording of an error on a file, by number. -/
def systemText? : Nat → Option String
  | 2 => some "No such file or directory"
  | 13 => some "Permission denied"
  | 20 => some "Not a directory"
  | 21 => some "Is a directory"
  | 28 => some "No space left on device"
  | 30 => some "Read-only file system"
  | 36 => some "File name too long"
  | 40 => some "Too many levels of symbolic links"
  | _ => none

/-- The system's number of a failure on a file. -/
def systemCode? : IO.Error → Option UInt32
  | .noFileOrDirectory _ code _ => some code
  | .permissionDenied _ code _ => some code
  | .inappropriateType _ code _ => some code
  | .invalidArgument _ code _ => some code
  | .resourceExhausted _ code _ => some code
  | .unsupportedOperation code _ => some code
  | .otherError code _ => some code
  | _ => none

/-- The system's reason for a failure. -/
def systemMessage (e : IO.Error) : String :=
  let number := (systemCode? e).map systemNumber
  match number, number.bind systemText? with
  | some n, some text => text ++ " (os error " ++ toString n ++ ")"
  | _, _ => toString e

/-- The files of the disk. -/
def disk : Files IO where
  read path := do
    try
      let bytes ← IO.FS.readBinFile path
      return .ok bytes.toList
    catch e => return .error (systemMessage e)
  write path bytes := do
    try
      IO.FS.writeBinFile path ⟨bytes.toArray⟩
      return .ok ()
    catch e => return .error (systemMessage e)

end Postlink

/-- Run the command that the arguments ask for and report. -/
def main (args : List String) : IO UInt32 := do
  let report ← Postlink.Command.run Postlink.disk args
  IO.print report.stdout
  IO.eprint report.stderr
  return report.code.toUInt32
