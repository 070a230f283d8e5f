import Cassette.Proofs.Console.Files
import Cassette.Console.Program
import Cassette.Proofs.Tape.Capacity

/-!
# How the commands end

Both commands read an image and encode it, and as long as that goes wrong they go wrong
alike.  `Console.ending` says once how: no image is read, the image gives no tape, or it
gives one.  Once there is a tape nothing can fail any more but writing it: the tape of an
image reads back as that image, so checking it never finds anything.
The run lemmas (`run_verify` and those that start with `run_encode`) add what the files
have to do with it: writing, which those that start with `encode_on_files` say alone.

What is proved about runs of the program is proved from these cases; no other proof opens
a command.
-/

namespace Cassette

/-- The record of an image that was encoded. -/
def Tape.encodedRecord (image : List UInt8) (tape : Tape) : Log.Record :=
  .encoded image.length tape.capacity tape.pulses.size tape.usedPercent

/-- An image has a full header, and the room set aside for its length holds its signal. -/
def Tape.Fits (image : List UInt8) : Prop :=
  32 ≤ image.length ∧
    74421 + 26 * image.length + 2 * Bits.onesIn image ≤ (image.length + 30000) * 40

theorem Tape.exists_encode_iff (image : List UInt8) :
    (∃ tape, Tape.encode image = .ok tape) ↔ Tape.Fits image := by
  have hfits : Tape.Fits image ↔ headerLength ≤ image.length ∧
      (Tape.trainOf image).length ≤ Tape.capacityFor image.length := by
    rw [Tape.length_trainOf]
    rfl
  rw [hfits]
  constructor
  · rintro ⟨tape, h⟩
    obtain ⟨hlength, -⟩ := Tape.eq_of_encode h
    refine ⟨hlength, Classical.byContradiction fun hlong => ?_⟩
    rw [Tape.encode_eq hlength, if_neg hlong] at h
    cases h
  · rintro ⟨hlength, hroom⟩
    exact ⟨_, (Tape.encode_eq hlength).trans (if_pos hroom)⟩

namespace Console

open Log Signal

/-! ## The image in a file -/

/-- A path leads to a file that holds an image: the image is the file's content, or is
the tape in it if the file is an archive by its name. -/
def Files.Holds (files : Files) (path : String) (image : List UInt8) : Prop :=
  ∃ content, files.read path = .ok content ∧
    if Path.extension path = "zip" then (Archive.image content).result = .ok image
    else image = content

theorem imageIn_of_archive {path : String} (h : Path.extension path = "zip")
    (content : List UInt8) :
    imageIn path (.ok content) = (Archive.image content).relabel id .archive := by
  show (if _ then _ else _ : Course (List UInt8)) = _
  rw [if_pos h]

theorem imageIn_of_plain {path : String} (h : Path.extension path ≠ "zip")
    (content : List UInt8) : imageIn path (.ok content) = ⟨[], .ok content⟩ := by
  show (if _ then _ else _ : Course (List UInt8)) = _
  rw [if_neg h]
  rfl

/-- What keeps an image from being read is the file or the archive. -/
theorem failure_of_imageIn {path : String} {content : Except FileError (List UInt8)}
    {failure : Failure} (h : (imageIn path content).result = .error failure) :
    (∃ error, failure = .file .reading path error) ∨ ∃ error, failure = .archive error := by
  cases content with
  | error error =>
    cases h
    exact .inl ⟨error, rfl⟩
  | ok content =>
    by_cases hextension : Path.extension path = "zip"
    · rw [imageIn_of_archive hextension] at h
      simp only [Traced.relabel] at h
      cases hresult : (Archive.image content).result with
      | error error =>
        rw [hresult] at h
        cases h
        exact .inr ⟨error, rfl⟩
      | ok image =>
        rw [hresult] at h
        cases h
    · rw [imageIn_of_plain hextension] at h
      cases h

theorem imageIn_eq_ok_iff {files : Files} {path : String} {image : List UInt8} :
    (imageIn path (files.read path)).result = .ok image ↔ files.Holds path image := by
  unfold Files.Holds
  cases files.read path with
  | error error =>
    constructor
    · intro h
      cases h
    · rintro ⟨content, h, -⟩
      cases h
  | ok content =>
    simp only [Except.ok.injEq, exists_eq_left']
    by_cases hextension : Path.extension path = "zip"
    · rw [imageIn_of_archive hextension, if_pos hextension]
      simp only [Traced.relabel]
      cases (Archive.image content).result with
      | error error => exact iff_of_false nofun nofun
      | ok found =>
        constructor
        · rintro ⟨⟩
          rfl
        · rintro ⟨⟩
          rfl
    · rw [imageIn_of_plain hextension, if_neg hextension]
      simp [eq_comm]

/-- A path leads to a file with only one image. -/
theorem Files.Holds.unique {files : Files} {path : String} {image other : List UInt8}
    (h : files.Holds path image) (hother : files.Holds path other) : other = image := by
  rw [← imageIn_eq_ok_iff] at h hother
  exact Except.ok.inj (hother.symm.trans h)

/-! ## The commands, up to the tape -/

/-- The records of a tape that was read back and found to be right. -/
def verifiedRecords (input : String) (image : List UInt8) (tape : Tape) : List Record :=
  [tape.encodedRecord image, tape.release, .header (image.take headerLength),
    .verified input Tape.headerSync Tape.dataSync (image.drop headerLength).length]

/-- How encoding a file and verifying it end, given what was read from the file. -/
inductive Ending (input : String) (content : Except FileError (List UInt8)) :
    Course Tape → Course Unit → Prop
  /-- There is no image. -/
  | noImage {records : List Record} {failure : Failure}
      (himage : imageIn input content = ⟨records, .error failure⟩) :
      Ending input content ⟨records, .error failure⟩ ⟨records, .error failure⟩
  /-- The image has no tape. -/
  | noTape {records : List Record} {image : List UInt8} {error : TapeError}
      (himage : imageIn input content = ⟨records, .ok image⟩)
      (hencode : Tape.encode image = .error error) :
      Ending input content ⟨records, .error (.tape error)⟩ ⟨records, .error (.tape error)⟩
  | tape {records : List Record} {image : List UInt8} {tape : Tape}
      (himage : imageIn input content = ⟨records, .ok image⟩)
      (hencode : Tape.encode image = .ok tape) :
      Ending input content ⟨records ++ [tape.encodedRecord image], .ok tape⟩
        ⟨records ++ verifiedRecords input image tape, .ok ()⟩

theorem tapeOf_of_error {image : List UInt8} {error : TapeError}
    (h : Tape.encode image = .error error) : tapeOf image = ⟨[], .error (.tape error)⟩ := by
  rw [tapeOf, Tape.encodeLogged_of_error h]
  rfl

theorem tapeOf_of_ok {image : List UInt8} {tape : Tape} (h : Tape.encode image = .ok tape) :
    tapeOf image = ⟨[tape.encodedRecord image], .ok tape⟩ := by
  rw [tapeOf, Tape.encodeLogged_of_ok h]
  rfl

theorem ending (input : String) (content : Except FileError (List UInt8)) :
    Ending input content (encodeFile input content) (verifyFile input content) := by
  unfold encodeFile verifyFile
  cases himage : imageIn input content with
  | mk records result =>
    cases result with
    | error failure => exact .noImage himage
    | ok image =>
      cases hencode : Tape.encode image with
      | error error =>
        rw [Traced.ok_bind, Traced.ok_bind, tapeOf_of_error hencode, Traced.error_bind,
          List.append_nil]
        exact .noTape himage hencode
      | ok tape =>
        -- What is decoded is the image again, so only the records are left.
        have hdecoded : (.ofExcept ((DecodedTape.ofTrain tape.pulses.toList).mapError .tape) :
            Course DecodedTape) = ⟨[], .ok (.ofImage image)⟩ := by
          rw [Tape.ofTrain_of_encode hencode]
          rfl
        rw [Traced.ok_bind, Traced.ok_bind, tapeOf_of_ok hencode, Traced.ok_bind, hdecoded,
          Traced.ok_bind, Traced.emit_bind, if_pos (DecodedTape.image_ofImage image),
          Traced.emit_bind]
        exact .tape himage hencode

/-! ## Runs of the program -/

/-- What the program leaves behind after a command with the given course. -/
def Outcome.ofCourse (debug : Bool) (course : Course Unit) (files : Files) : Outcome :=
  ⟨Course.exitCode course, some (Course.text debug course), files⟩

section Runs

variable {arguments : List String} {debug : Bool} {input output : String} {files : Files}
  {records : List Record} {failure : Failure} {tape : Tape}

theorem run_of_parse {command : Command} (h : Arguments.parse arguments = .run debug command) :
    run arguments files =
      .ofCourse debug ((command.run Files.disk).run files).1
        ((command.run Files.disk).run files).2 := by
  rw [run, h]
  rfl

theorem run_verify (h : Arguments.parse arguments = .run debug (.verify input)) :
    run arguments files = .ofCourse debug (verifyFile input (files.read input)) files :=
  run_of_parse h

theorem run_encode {course : Course Unit} {after : Files}
    (h : Arguments.parse arguments = .run debug (.encode input output))
    (hrun : ((Command.encode input output).run Files.disk).run files = (course, after)) :
    run arguments files = .ofCourse debug course after := by
  rw [run_of_parse h, hrun]

/-- Without a tape nothing is written. -/
theorem encode_on_files_of_error
    (hcourse : encodeFile input (files.read input) = ⟨records, .error failure⟩) :
    ((Command.encode input output).run Files.disk).run files =
      (⟨records, .error failure⟩, files) := by
  simp only [Command.run, Files.disk, StateT.run, bind, StateT.bind, hcourse]
  rfl

theorem encode_on_files_of_write {after : Files}
    (hcourse : encodeFile input (files.read input) = ⟨records, .ok tape⟩)
    (hwrite : files.write output tape.bytes = .ok after) :
    ((Command.encode input output).run Files.disk).run files =
      (⟨records ++ [.written output tape.byteLength tape.capacityBytes, tape.release], .ok ()⟩,
        after) := by
  simp only [Command.run, Files.disk, StateT.run, bind, StateT.bind, hcourse, hwrite]
  rfl

theorem encode_on_files_of_write_error {error : FileError}
    (hcourse : encodeFile input (files.read input) = ⟨records, .ok tape⟩)
    (hwrite : files.write output tape.bytes = .error error) :
    ((Command.encode input output).run Files.disk).run files =
      (⟨records, .error (.file .writing output error)⟩, files) := by
  have hfinish : finishEncode output tape (.error error) =
      ⟨[], .error (.file .writing output error)⟩ := rfl
  simp only [Command.run, Files.disk, StateT.run, bind, StateT.bind, hcourse, hwrite, hfinish,
    List.append_nil]
  rfl

theorem run_encode_of_error (h : Arguments.parse arguments = .run debug (.encode input output))
    (hcourse : encodeFile input (files.read input) = ⟨records, .error failure⟩) :
    run arguments files = .ofCourse debug ⟨records, .error failure⟩ files :=
  run_encode h (encode_on_files_of_error hcourse)

theorem run_encode_of_write {after : Files}
    (h : Arguments.parse arguments = .run debug (.encode input output))
    (hcourse : encodeFile input (files.read input) = ⟨records, .ok tape⟩)
    (hwrite : files.write output tape.bytes = .ok after) :
    run arguments files =
      .ofCourse debug
        ⟨records ++ [.written output tape.byteLength tape.capacityBytes, tape.release], .ok ()⟩
        after :=
  run_encode h (encode_on_files_of_write hcourse hwrite)

theorem run_encode_of_write_error {error : FileError}
    (h : Arguments.parse arguments = .run debug (.encode input output))
    (hcourse : encodeFile input (files.read input) = ⟨records, .ok tape⟩)
    (hwrite : files.write output tape.bytes = .error error) :
    run arguments files =
      .ofCourse debug ⟨records, .error (.file .writing output error)⟩ files :=
  run_encode h (encode_on_files_of_write_error hcourse hwrite)

end Runs

end Console

end Cassette
