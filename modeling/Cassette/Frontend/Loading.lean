import Cassette.Archive.Tape
import Cassette.Frontend.Effect
import Cassette.Keyboard.Queue
import Cassette.Path

/-!
# Loading a file

What a file is depends on its extension and on the machine: an image or an archive
with one goes into the tape drive, a listing is typed, and anything else is handed
to the machine as it is.  A file that was loaded leaves something to be typed.
-/

namespace Cassette.Frontend

open Log Signal

/-- A file that the user gave. -/
structure File where
  name : String
  data : List UInt8
  deriving DecidableEq

/-- What a file is for a machine. -/
inductive Kind where
  | image
  | archive
  | listing
  | program
  deriving DecidableEq

/-- What a file is for a machine, by the extension of its name. -/
def File.kind (system : System) (file : File) : Kind :=
  match system, Path.extension file.name with
  | .vg5000, "k7" => .image
  | .vg5000, "zip" => .archive
  | .z1013, "txt" => .listing
  | .z1013, "bas" => .listing
  | _, _ => .program

/-- The command that makes the machine read its tape. -/
def tapeCommand : String := "CLOAD\n"

/-- The bytes of a listing, which ends before the first zero byte. -/
def listing (data : List UInt8) : List UInt8 :=
  data.takeWhile (· ≠ 0)

/-- Calls the machine with the tape of an image, if the image has one, and gives
the tape back whatever the machine answers.  The result is whether the machine
took a tape. -/
def offer (answers : Answers) (image : List UInt8) : List Effect × Bool :=
  match Tape.encodeLogged image with
  | ⟨records, .ok tape⟩ =>
      (records.map .log ++ [.call (.insertTape tape), .log tape.release], answers.takesTape)
  | ⟨records, .error error⟩ => (records.map .log ++ [.log (.notEncoded error)], false)

/-- Puts the tape of an image into the drive. -/
def insert (answers : Answers) (image : List UInt8) :
    Traced Effect LoadError (List UInt8) :=
  let (effects, taken) := offer answers image
  ⟨effects ++ [.log (.inserting taken)],
    if taken then .ok (Text.bytes tapeCommand) else .error .tapeNotInserted⟩

/-- Hands data to the machine as it is. -/
def quickload (answers : Answers) (data : List UInt8) :
    Traced Effect LoadError (List UInt8) :=
  ⟨[.call (.quickload data)],
    if answers.takesQuickload then .ok [] else .error .quickloadFailed⟩

/-- Loads a file; the result is what is left to be typed. -/
def load (system : System) (answers : Answers) (file : File) :
    Traced Effect LoadError (List UInt8) :=
  match file.kind system with
  | .image => insert answers file.data
  | .archive => do
      let image ← (Archive.image file.data).relabel .log .archive
      insert answers image
  | .listing => pure (listing file.data)
  | .program => quickload answers file.data

end Cassette.Frontend
