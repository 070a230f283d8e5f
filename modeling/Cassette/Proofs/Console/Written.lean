import Cassette.Proofs.Console.Acceptance

/-!
# What the program does to the files

A run writes at most one file, and only as the last thing it does: if it fails, whatever
the reason, nothing was written (`run_encode_cases`).  What is written is the signal of
the image that was read, two bytes to a value, so a reader that puts the bytes together
again (`Tape.valuesOf`) and decodes the train finds that image.  This holds also when the
file that is written is the one that was read, since all of it was read before.
-/

namespace Cassette

/-- The values of which some bytes consist, the low byte of each first. -/
def Tape.valuesOf : List UInt8 → List UInt16
  | low :: high :: rest => .ofNat (low.toNat + 256 * high.toNat) :: valuesOf rest
  | _ => []

namespace Tape

theorem valuesOf_valueBytes_append (value : UInt16) (rest : List UInt8) :
    valuesOf (valueBytes value ++ rest) = value :: valuesOf rest := by
  have hvalue : value.toUInt8.toNat + 256 * (value >>> 8).toUInt8.toNat = value.toNat := by
    have hlt : value.toNat < 65536 := value.toNat_lt
    have hhigh : (value >>> 8).toNat = value.toNat / 256 := by
      rw [UInt16.toNat_shiftRight, Nat.shiftRight_eq_div_pow]
      rfl
    rw [UInt16.toNat_toUInt8, UInt16.toNat_toUInt8, hhigh]
    omega
  rw [valueBytes, List.cons_append, List.cons_append, List.nil_append, valuesOf, hvalue,
    UInt16.ofNat_toNat]

/-- No value of a tape is lost when it is written as bytes. -/
theorem valuesOf_bytes (tape : Tape) : valuesOf tape.bytes = tape.pulses.toList := by
  unfold bytes
  induction tape.pulses.toList with
  | nil => rfl
  | cons value rest ih => rw [List.flatMap_cons, valuesOf_valueBytes_append, ih]

theorem length_bytes (tape : Tape) : tape.bytes.length = tape.byteLength := by
  rw [byteLength, ← Array.length_toList, bytes]
  induction tape.pulses.toList with
  | nil => rfl
  | cons value rest ih =>
    have hvalue : (valueBytes value).length = 2 := rfl
    rw [List.flatMap_cons, List.length_append, List.length_cons, ih, hvalue]
    omega

end Tape

namespace Console

variable {arguments : List String} {debug : Bool} {input output : String} {files : Files}

/-- A run that encodes a file fails and writes nothing, or it succeeds and the last thing
it did was to write the tape of the image in the file. -/
theorem run_encode_cases (hparse : Arguments.parse arguments = .run debug (.encode input output)) :
    (run arguments files).exitCode = 1 ∧ (run arguments files).files = files ∨
      (run arguments files).exitCode = 0 ∧ ∃ image tape,
        files.Holds input image ∧ Tape.encode image = .ok tape ∧
        files.write output tape.bytes = .ok (run arguments files).files := by
  have hending := ending input (files.read input)
  generalize hencoded : encodeFile input (files.read input) = encoded at hending
  generalize verifyFile input (files.read input) = verified at hending
  cases hending with
  | noImage | noTape =>
    rw [run_encode_of_error hparse hencoded]
    exact .inl ⟨rfl, rfl⟩
  | @tape records image tape himage hencode =>
    cases hwrite : files.write output tape.bytes with
    | error error =>
      rw [run_encode_of_write_error hparse hencoded hwrite]
      exact .inl ⟨rfl, rfl⟩
    | ok after =>
      rw [run_encode_of_write hparse hencoded hwrite]
      have hholds : files.Holds input image := imageIn_eq_ok_iff.1 (congrArg Traced.result himage)
      exact .inr ⟨rfl, image, tape, hholds, hencode, hwrite⟩

/-- Only encoding writes anything. -/
theorem files_run_of_parse_ne
    (hparse : ∀ debug input output,
      Arguments.parse arguments ≠ .run debug (.encode input output)) :
    (run arguments files).files = files := by
  cases hcase : Arguments.parse arguments with
  | help | misuse =>
    rw [run, hcase]
  | run debug command =>
    cases command with
    | encode input output => exact absurd hcase (hparse debug input output)
    | verify input =>
      rw [run_verify hcase]
      rfl

end Console

end Cassette
