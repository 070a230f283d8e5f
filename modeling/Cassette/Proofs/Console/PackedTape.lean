import Cassette.Proofs.Console.Written

/-!
# A packed tape on the console

A command that is given an archive does what it does when it is given the image in it,
once it has named the entry: what it reads differs in nothing else (`imageIn_zipped` and
`imageIn_raw`).
So the courses of the commands are the same behind that record, but for the path in the
last one when a tape was verified (`Console.verify_of_packs`, `Console.encode_of_packs`).
-/

namespace Cassette.Console

open Log

/-! ## What is shown -/

/-- The line that names the entry of an archive. -/
def unzippingLine (entry : String) : String :=
  "INFO  unzipping K7 " ++ entry ++ "\n"

/-- The line that says that a file was verified. -/
def verifiedLine (path : String) (dataLength : Nat) : String :=
  "INFO  " ++ path ++ ": ok, sync 30000/7200, " ++ toString dataLength ++ " data bytes\n"

theorem line_of_info {record : Record} (h : record.level = .info) :
    Course.line record = "INFO  " ++ record.text ++ "\n" := by
  have hname : "INFO".pushn ' ' (5 - "INFO".length) ++ " " = "INFO  " := by decide
  rw [Course.line, h]
  dsimp only [Level.name]
  rw [hname]

theorem line_unzipping (entry : String) :
    Course.line (.unzipping entry) = unzippingLine entry := by
  have htext : (Record.unzipping entry).text = "unzipping K7 " ++ entry := rfl
  have hwords : "INFO  " ++ "unzipping K7 " = "INFO  unzipping K7 " := by decide
  have hfront : "INFO  " ++ ("unzipping K7 " ++ entry) = "INFO  unzipping K7 " ++ entry := by
    rw [← String.append_assoc, hwords]
  rw [line_of_info rfl, htext, hfront]
  rfl

theorem line_verified (path : String) (dataLength : Nat) :
    Course.line (.verified path Tape.headerSync Tape.dataSync dataLength) =
      verifiedLine path dataLength := by
  have htext : (Record.verified path Tape.headerSync Tape.dataSync dataLength).text =
      path ++ ": ok, sync " ++ "30000" ++ "/" ++ "7200" ++ ", " ++ toString dataLength ++
        " data bytes" := rfl
  have hsync : ": ok, sync " ++ "30000" ++ "/" ++ "7200" ++ ", " = ": ok, sync 30000/7200, " := by
    decide
  have hend : " data bytes" ++ "\n" = " data bytes\n" := by decide
  rw [line_of_info rfl, htext, verifiedLine, ← hsync, ← hend]
  simp only [String.append_assoc]

/-- A record that is no detail is shown, whether the debug log is switched on or not. -/
theorem isShown_of_info {record : Record} (h : record.level = .info) (debug : Bool) :
    Course.isShown debug record = true := by
  simp [Course.isShown, h]

theorem text_unzipping (debug : Bool) (entry : String) (records : List Record)
    (result : Except Failure Unit) :
    Course.text debug ⟨.unzipping entry :: records, result⟩ =
      unzippingLine entry ++ Course.text debug ⟨records, result⟩ := by
  have hshown : Course.isShown debug (.unzipping entry) = true := isShown_of_info rfl debug
  simp only [Course.text, List.filter_cons_of_pos hshown, List.map_cons, String.join_cons,
    line_unzipping, String.append_assoc]

/-- The path of a file that was verified is in the last line only. -/
theorem text_verifiedRecords (debug : Bool) (path : String) (image : List UInt8) (tape : Tape) :
    Course.text debug ⟨verifiedRecords path image tape, .ok ()⟩ =
      Course.text debug
          ⟨[tape.encodedRecord image, tape.release, .header (image.take headerLength)], .ok ()⟩ ++
        verifiedLine path (image.length - headerLength) := by
  have hrecords : verifiedRecords path image tape =
      [tape.encodedRecord image, tape.release, .header (image.take headerLength)] ++
        [.verified path Tape.headerSync Tape.dataSync (image.length - headerLength)] := by
    rw [← List.length_drop]
    rfl
  have hlast : [Record.verified path Tape.headerSync Tape.dataSync
      (image.length - headerLength)].filter (Course.isShown debug) =
      [.verified path Tape.headerSync Tape.dataSync (image.length - headerLength)] :=
    List.filter_cons_of_pos (isShown_of_info rfl debug)
  simp only [hrecords, Course.text, List.filter_append, hlast, List.map_append, List.map_cons,
    List.map_nil, String.join_append, String.join_cons, String.join_nil, String.append_empty,
    line_verified]

/-! ## The commands -/

/-- Two outcomes end with the same code and show the same, but for the line that names an
entry, which one of them shows first, and for the last line. -/
def Outcome.Unpacks (entry last otherLast : String) (outcome other : Outcome) : Prop :=
  outcome.exitCode = other.exitCode ∧
    ∃ shown, outcome.shown = some (unzippingLine entry ++ shown ++ last) ∧
      other.shown = some (shown ++ otherLast)

/-- A course that starts with the record of an entry is shown as one that does not, behind
the line that names the entry. -/
theorem Outcome.unpacks_ofCourse (entry : String) (debug : Bool) (records : List Record)
    (result : Except Failure Unit) (files others : Files) :
    Outcome.Unpacks entry "" "" (.ofCourse debug ⟨.unzipping entry :: records, result⟩ files)
      (.ofCourse debug ⟨records, result⟩ others) := by
  refine ⟨rfl, Course.text debug ⟨records, result⟩, ?_, ?_⟩
  · rw [ofCourse, text_unzipping, String.append_empty]
  · rw [ofCourse, String.append_empty]

/-- The last line of a run that verified an image in a file. -/
def verdictLine (outcome : Outcome) (path : String) (image : List UInt8) : String :=
  if outcome.exitCode = 0 then verifiedLine path (image.length - headerLength) else ""

/-- The courses of the commands are known once the image in the file is. -/
theorem encodeFile_of_imageIn {input : String} {content : Except FileError (List UInt8)}
    {records : List Record} {image : List UInt8}
    (h : imageIn input content = ⟨records, .ok image⟩) :
    encodeFile input content = ⟨records ++ (tapeOf image).outputs, (tapeOf image).result⟩ := by
  rw [encodeFile, h]
  rfl

theorem verifyFile_of_imageIn {input : String} {content : Except FileError (List UInt8)}
    {records : List Record} {image : List UInt8}
    (h : imageIn input content = ⟨records, .ok image⟩) :
    verifyFile input content =
      match Tape.encode image with
      | .error error => ⟨records, .error (.tape error)⟩
      | .ok tape => ⟨records ++ verifiedRecords input image tape, .ok ()⟩ := by
  have hending := ending input content
  generalize encodeFile input content = encoded at hending
  generalize verifyFile input content = verified at hending ⊢
  cases hending with
  | noImage himage => cases himage.symm.trans h
  | noTape himage hencode =>
    cases himage.symm.trans h
    rw [hencode]
  | tape himage hencode =>
    cases himage.symm.trans h
    rw [hencode]

section Packed

/-- One path leads to an archive by its name, the other one to an image. -/
structure Files.Packs (files others : Files) (zipped raw : String)
    (archive image : List UInt8) : Prop where
  isArchive : Path.extension zipped = "zip"
  isPlain : Path.extension raw ≠ "zip"
  archive : files.read zipped = .ok archive
  image : others.read raw = .ok image

variable {files others : Files} {zipped raw : String} {archive image : List UInt8}
  {entry : String} (h : files.Packs others zipped raw archive image)
  (hunpacked : Archive.image archive = ⟨[.unzipping entry], .ok image⟩)
  {arguments otherArguments : List String} {debug : Bool}

include h

theorem imageIn_raw : imageIn raw (others.read raw) = ⟨[], .ok image⟩ := by
  rw [h.image, imageIn_of_plain h.isPlain]

include hunpacked

theorem imageIn_zipped :
    imageIn zipped (files.read zipped) = ⟨[.unzipping entry], .ok image⟩ := by
  rw [h.archive, imageIn_of_archive h.isArchive, hunpacked]
  rfl

/-- Verifying a packed tape ends as verifying the tape does. -/
theorem verify_of_packs (hzipped : Arguments.parse arguments = .run debug (.verify zipped))
    (hraw : Arguments.parse otherArguments = .run debug (.verify raw)) :
    let outcome := run arguments files
    let other := run otherArguments others
    Outcome.Unpacks entry (verdictLine outcome zipped image) (verdictLine other raw image)
      outcome other := by
  intro outcome other
  rw [show outcome = _ from run_verify hzipped, show other = _ from run_verify hraw,
    verifyFile_of_imageIn (imageIn_zipped h hunpacked), verifyFile_of_imageIn (imageIn_raw h)]
  cases Tape.encode image with
  | error error => exact Outcome.unpacks_ofCourse entry debug [] _ files others
  | ok tape =>
    refine ⟨rfl, _, ?_, congrArg some (text_verifiedRecords debug raw image tape)⟩
    show some (Course.text debug ⟨.unzipping entry :: verifiedRecords zipped image tape, _⟩) = _
    rw [text_unzipping, text_verifiedRecords, ← String.append_assoc]
    rfl

/-- Encoding a packed tape ends as encoding the tape does, if the output path leads to the
same place in both cases, and writes the same. -/
theorem encode_of_packs {output : String}
    (hzipped : Arguments.parse arguments = .run debug (.encode zipped output))
    (hraw : Arguments.parse otherArguments = .run debug (.encode raw output))
    (hstorage : files.storage output = others.storage output) :
    let outcome := run arguments files
    let other := run otherArguments others
    Outcome.Unpacks entry "" "" outcome other ∧
      (other.exitCode = 0 → outcome.files.read output = other.files.read output) ∧
      (files = others → outcome.files = other.files) := by
  intro outcome other
  have hin := encodeFile_of_imageIn (imageIn_zipped h hunpacked)
  have hother := encodeFile_of_imageIn (imageIn_raw h)
  generalize tapeOf image = course at hin hother
  obtain ⟨records, failure | tape⟩ := course
  · rw [show outcome = _ from run_encode_of_error hzipped hin,
      show other = _ from run_encode_of_error hraw hother]
    exact ⟨Outcome.unpacks_ofCourse entry debug records _ files others, nofun, id⟩
  · -- The place decides whether the tape is written, and it is the same for both.
    cases hplace : others.storage output with
    | error error =>
      have hwrite : files.write output tape.bytes = .error error :=
        Files.write_eq_error_iff.2 (hstorage.trans hplace)
      have hotherWrite : others.write output tape.bytes = .error error :=
        Files.write_eq_error_iff.2 hplace
      rw [show outcome = _ from run_encode_of_write_error hzipped hin hwrite,
        show other = _ from run_encode_of_write_error hraw hother hotherWrite]
      exact ⟨Outcome.unpacks_ofCourse entry debug records _ files others, nofun, id⟩
    | ok place =>
      have hwrite : files.write output tape.bytes = .ok (files.put place tape.bytes) :=
        Files.write_eq_ok_iff.2 ⟨place, hstorage.trans hplace, rfl⟩
      have hotherWrite : others.write output tape.bytes = .ok (others.put place tape.bytes) :=
        Files.write_eq_ok_iff.2 ⟨place, hplace, rfl⟩
      rw [show outcome = _ from run_encode_of_write hzipped hin hwrite,
        show other = _ from run_encode_of_write hraw hother hotherWrite]
      refine ⟨Outcome.unpacks_ofCourse entry debug _ _ _ _, fun _ => ?_, ?_⟩
      · exact (Files.read_of_write hwrite).trans (Files.read_of_write hotherWrite).symm
      · rintro rfl
        rfl

end Packed

end Cassette.Console
