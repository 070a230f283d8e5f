import Cassette.Console.Program

/-!
# The command line program

Connects the console program to the real disk and to the standard streams.
-/

namespace Cassette.Console

/-- The number of an error, which the disk gives with either sign. -/
def errorNumber (code : UInt32) : UInt32 :=
  min code (0 - code)

/-- Why the disk refused. -/
def FileError.ofDisk : IO.Error → FileError
  | .noFileOrDirectory .. | .noSuchThing .. => .missing
  | .inappropriateType _ code _ =>
      if errorNumber code = 21 then .isDirectory else .notDirectory
  | .invalidArgument _ code description =>
      if errorNumber code = 36 then .nameTooLong
      else .other description (errorNumber code).toNat
  | .permissionDenied .. => .other "Permission denied" 13
  | error => .other (toString error) 0

def realDisk : Disk IO where
  read path := do
    try
      let content ← IO.FS.readBinFile path
      pure (.ok content.toList)
    catch error => pure (.error (.ofDisk error))
  write path content := do
    try
      IO.FS.writeBinFile path ⟨content.toArray⟩
      pure (.ok ())
    catch error => pure (.error (.ofDisk error))

def usage : String :=
  "Usage: console [--debug] encode <INPUT> <OUTPUT>\n" ++
  "       console [--debug] verify <INPUT>\n" ++
  "       console help [COMMAND]\n"

end Cassette.Console

open Cassette.Console

/-- Runs the program and ends with its exit code. -/
def main (arguments : List String) : IO UInt32 := do
  match Arguments.parse arguments with
  | .help =>
      IO.print usage
      pure 0
  | .misuse =>
      IO.eprint usage
      pure (UInt32.ofNat misuseCode)
  | .run debug command =>
      let course ← command.run realDisk
      IO.eprint (Course.text debug course)
      pure (UInt32.ofNat (Course.exitCode course))
