import Cassette.Archive.Tape
import Cassette.Console.Arguments
import Cassette.Console.Report
import Cassette.Tape.Decoded

/-!
# The console program

A command reads one file and may write one.  What it does with what it read is
said without any disk; a disk of any kind, or plain `Files`, then runs it.
-/

namespace Cassette.Console

open Log

/-- The image in a file that was read, out of the archive if the file is one. -/
def imageIn (path : String) (content : Except FileError (List UInt8)) :
    Course (List UInt8) := do
  let data ← .ofExcept (content.mapError (.file .reading path))
  if Path.extension path = "zip" then (Archive.image data).relabel id .archive
  else pure data

def tapeOf (image : List UInt8) : Course Tape :=
  (Tape.encodeLogged image).relabel id .tape

/-- Encodes the image in a file that was read. -/
def encodeFile (input : String) (content : Except FileError (List UInt8)) :
    Course Tape := do
  tapeOf (← imageIn input content)

/-- What is left to do when the signal was written to a file or was not. -/
def finishEncode (output : String) (tape : Tape) (written : Except FileError Unit) :
    Course Unit := do
  .ofExcept (written.mapError (.file .writing output))
  .emit (.written output tape.byteLength tape.capacityBytes)
  .emit tape.release

/-- Checks that the image in a file that was read comes back from its signal. -/
def verifyFile (input : String) (content : Except FileError (List UInt8)) :
    Course Unit := do
  let image ← imageIn input content
  let tape ← tapeOf image
  let decoded ← .ofExcept ((DecodedTape.ofTrain tape.pulses.toList).mapError .tape)
  .emit tape.release
  if decoded.image = image then
    .emit (.header decoded.header)
    .emit (.verified input decoded.headerSync decoded.dataSync decoded.data.length)
  else .fail (.mismatch input)

/-- Somewhere to read files from and to write them to. -/
structure Disk (m : Type → Type) where
  read : String → m (Except FileError (List UInt8))
  write : String → List UInt8 → m (Except FileError Unit)

def Command.run {m : Type → Type} [Monad m] (disk : Disk m) :
    Command → m (Course Unit)
  | .verify input => do
      let content ← disk.read input
      pure (verifyFile input content)
  | .encode input output => do
      let content ← disk.read input
      let course := encodeFile input content
      match course.result with
      | .error failure => pure ⟨course.outputs, .error failure⟩
      | .ok tape =>
          let written ← disk.write output tape.bytes
          pure ⟨course.outputs ++ (finishEncode output tape written).outputs,
            (finishEncode output tape written).result⟩

/-- Plain files as a disk. -/
def Files.disk : Disk (StateM Files) where
  read path := fun files => (files.read path, files)
  write path content := fun files =>
    match files.write path content with
    | .ok files => (.ok (), files)
    | .error error => (.error error, files)

/-- What the program leaves behind: the code with which it ends, what it shows
unless the arguments are at fault, and the files. -/
structure Outcome where
  exitCode : Nat
  shown : Option String
  files : Files

/-- The code with which the program ends when the arguments are at fault. -/
def misuseCode : Nat := 2

/-- Runs the program with some arguments on some files. -/
def run (arguments : List String) (files : Files) : Outcome :=
  match Arguments.parse arguments with
  | .help => ⟨0, some "", files⟩
  | .misuse => ⟨misuseCode, none, files⟩
  | .run debug command =>
      let (course, files) := (command.run Files.disk).run files
      ⟨Course.exitCode course, some (Course.text debug course), files⟩

end Cassette.Console
