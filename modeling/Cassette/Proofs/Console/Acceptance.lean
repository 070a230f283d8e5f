import Cassette.Proofs.Archive.Choice
import Cassette.Proofs.Console.Commands

/-!
# What the commands accept

Both commands accept a file if it holds an image and the image has a tape
(`Files.Accepts`).  Verifying cannot end in any other way: that a tape does not read back,
or reads back as another image, is checked for but never found
(`verify_accepts_what_encode_accepts`).  A file that is not accepted is refused by both
with the same words.
-/

namespace Cassette.Console

open Log

/-- A path leads to a file that holds an image with a tape. -/
def Files.Accepts (files : Files) (path : String) : Prop :=
  ∃ image, files.Holds path image ∧ Tape.Fits image

/-- Something can be written to a path. -/
def Files.Writable (files : Files) (path : String) : Prop :=
  ∃ content after, files.write path content = .ok after

/-- What is written has no say in whether it can be written. -/
theorem Files.Writable.write {files : Files} {path : String} (h : files.Writable path)
    (content : List UInt8) : ∃ after, files.write path content = .ok after := by
  obtain ⟨_, _, hwrite⟩ := h
  obtain ⟨place, hstorage, -⟩ := Files.write_eq_ok_iff.1 hwrite
  exact ⟨_, Files.write_eq_ok_iff.2 ⟨place, hstorage, rfl⟩⟩

/-- Records that say nothing for debugging are shown or not shown all alike. -/
theorem text_eq_of_forall_level {records : List Record} (result : Except Failure Unit)
    (h : ∀ record ∈ records, record.level ≠ .debug) (debug other : Bool) :
    Course.text debug ⟨records, result⟩ = Course.text other ⟨records, result⟩ := by
  have hall (debug : Bool) : records.filter (Course.isShown debug) = records := by
    refine List.filter_eq_self.2 fun record hmem => ?_
    simp [Course.isShown, h record hmem]
  simp only [Course.text, hall]

/-- Reading an image logs nothing for debugging. -/
theorem level_of_mem_imageIn {path : String} {content : Except FileError (List UInt8)}
    {record : Record} (h : record ∈ (imageIn path content).outputs) : record.level ≠ .debug := by
  cases content with
  | error error => cases h
  | ok content =>
    by_cases hextension : Path.extension path = "zip"
    · rw [imageIn_of_archive hextension] at h
      simp only [Traced.relabel, List.map_id] at h
      rcases Archive.image_cases content with ⟨error, hcase⟩ | ⟨name, result, hcase⟩
      · rw [hcase] at h
        cases h
      · rw [hcase, List.mem_singleton] at h
        subst h
        intro hlevel
        cases hlevel
    · rw [imageIn_of_plain hextension] at h
      cases h

/-- What keeps a file from being accepted: it is not read, it gives no image, or the image
has no tape.  A tape that does not read back is not among the reasons. -/
inductive Refusal (input : String) : Failure → Prop
  | unread (error : FileError) : Refusal input (.file .reading input error)
  | noImage (error : Archive.ArchiveError) : Refusal input (.archive error)
  | tooShort (length least : Nat) : Refusal input (.tape (.imageTooShort length least))
  | tooLong (capacity : Nat) : Refusal input (.tape (.capacityExceeded capacity))

/-- What both commands make of a file, by whether it is accepted. -/
inductive Verdict (files : Files) (input : String) : Prop
  | accepted {records others : List Record} {tape : Tape} (haccepts : files.Accepts input)
      (hencode : encodeFile input (files.read input) = ⟨records, .ok tape⟩)
      (hverify : verifyFile input (files.read input) = ⟨others, .ok ()⟩)
  | refused {records : List Record} {failure : Failure} (haccepts : ¬files.Accepts input)
      (hencode : encodeFile input (files.read input) = ⟨records, .error failure⟩)
      (hverify : verifyFile input (files.read input) = ⟨records, .error failure⟩)
      (hlevel : ∀ record ∈ records, record.level ≠ .debug) (hfailure : Refusal input failure)

theorem verdict (files : Files) (input : String) : Verdict files input := by
  have hlevel {records : List Record} {result : Except Failure (List UInt8)}
      (himage : imageIn input (files.read input) = ⟨records, result⟩) :
      ∀ record ∈ records, record.level ≠ .debug := by
    intro record hmem
    refine level_of_mem_imageIn (?_ : record ∈ (imageIn input (files.read input)).outputs)
    rwa [himage]
  have hending := ending input (files.read input)
  generalize hencoded : encodeFile input (files.read input) = encoded at hending
  generalize hverified : verifyFile input (files.read input) = verified at hending
  cases hending with
  | noImage himage =>
    refine .refused ?_ hencoded hverified (hlevel himage) ?_
    · rintro ⟨image, hholds, -⟩
      rw [← imageIn_eq_ok_iff, himage] at hholds
      cases hholds
    · rcases failure_of_imageIn (congrArg Traced.result himage) with ⟨error, rfl⟩ | ⟨error, rfl⟩
      · exact .unread error
      · exact .noImage error
  | @noTape records image error himage hencode =>
    refine .refused ?_ hencoded hverified (hlevel himage) ?_
    · rintro ⟨other, hholds, hfits⟩
      have himage' : files.Holds input image := imageIn_eq_ok_iff.1 (congrArg Traced.result himage)
      obtain rfl := himage'.unique hholds
      obtain ⟨tape, htape⟩ := (Tape.exists_encode_iff other).2 hfits
      rw [htape] at hencode
      cases hencode
    · rcases Tape.error_of_encode hencode with rfl | rfl
      · exact .tooShort _ _
      · exact .tooLong _
  | @tape records image tape himage hencode =>
    refine .accepted ⟨image, ?_, ?_⟩ hencoded hverified
    · exact imageIn_eq_ok_iff.1 (congrArg Traced.result himage)
    · exact (Tape.exists_encode_iff image).1 ⟨tape, hencode⟩

/-- Encoding to a path that can be written to succeeds if the file is accepted. -/
theorem exitCode_encode_eq_zero_iff {arguments : List String} {debug : Bool}
    {input output : String} {files : Files}
    (hparse : Arguments.parse arguments = .run debug (.encode input output))
    (hwritable : files.Writable output) :
    (run arguments files).exitCode = 0 ↔ files.Accepts input := by
  cases verdict files input with
  | accepted haccepts hencode =>
    obtain ⟨after, hwrite⟩ := hwritable.write _
    rw [run_encode_of_write hparse hencode hwrite]
    exact iff_of_true rfl haccepts
  | refused haccepts hencode =>
    rw [run_encode_of_error hparse hencode]
    exact iff_of_false nofun haccepts

end Cassette.Console
