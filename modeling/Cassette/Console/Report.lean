import Cassette.Archive.Error
import Cassette.Console.Files
import Cassette.Log
import Cassette.Signal.Error
import Cassette.Traced

/-!
# What the console shows

A command logs records and may fail at the end.  Records for debugging are only
shown when they are asked for.
-/

namespace Cassette.Console

inductive Access where
  | reading
  | writing
  deriving DecidableEq

def Access.word : Access → String
  | reading => "reading"
  | writing => "writing"

/-- Why a command failed. -/
inductive Failure where
  | file (access : Access) (path : String) (error : FileError)
  | archive (error : Archive.ArchiveError)
  | tape (error : Signal.TapeError)
  /-- A tape reads back, but not as the image it was made from. -/
  | mismatch (path : String)
  deriving DecidableEq

namespace Failure

def message : Failure → String
  | file access path _ => s!"{access.word} {path}"
  | archive error => error.message
  | tape error => error.message
  | mismatch path => s!"{path}: decoded signal does not match"

/-- What is shown of a failure: its wording and, for a file, what caused it. -/
def text (failure : Failure) : String :=
  match failure with
  | file _ _ error =>
      s!"Error: {failure.message}\n\nCaused by:\n    {error.message}\n"
  | _ => s!"Error: {failure.message}\n"

end Failure

abbrev Course := Traced Log.Record Failure

namespace Course

/-- The line of a record, its level as wide as the widest. -/
def line (record : Log.Record) : String :=
  let name := record.level.name
  name.pushn ' ' (5 - name.length) ++ " " ++ record.text ++ "\n"

/-- Whether a record is shown. -/
def isShown (debug : Bool) (record : Log.Record) : Bool :=
  debug || record.level ≠ .debug

/-- All that is shown of a course. -/
def text (debug : Bool) (course : Course Unit) : String :=
  let lines := (course.outputs.filter (isShown debug)).map line
  let ending := match course.result with
    | .ok () => ""
    | .error failure => failure.text
  String.join lines ++ ending

def exitCode (course : Course Unit) : Nat :=
  match course.result with
  | .ok () => 0
  | .error _ => 1

end Course

end Cassette.Console
