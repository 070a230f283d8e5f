import Cassette.Proofs.Signal.Passage
import Cassette.Proofs.Signal.Room
import Cassette.Tape.Decoded

/-!
# A tape and its impulses

After its leading silence a train is a tape exactly if it consists of the
impulses of that tape (`DecodedTape.ofTrain_eq_ok_iff`).  An image is written as
the impulses of the tape `DecodedTape.ofImage`, if there is room for them
(`Tape.encode_eq`).  Reading and writing share nothing but these impulses, so
every law that relates the two goes through them.
-/

namespace Cassette

open Signal

namespace DecodedTape

/-- The impulses that follow the leading silence of a tape. -/
def impulses (tape : DecodedTape) : List Impulse :=
  Impulse.synchronization tape.headerSync ++ (Impulse.frames tape.header ++
    (Impulse.synchronization tape.dataSync ++ Impulse.frames tape.data))

/-- What is read after the leading silence. -/
def readImpulses : Reads DecodedTape := do
  let headerSync ← Reads.sync
  let header ← Reads.framedBytes headerLength
  let dataSync ← Reads.sync
  let data ← Reads.framedBytesToEnd []
  pure ⟨header, data, headerSync, dataSync⟩

/-- Behind the silence a tape is read off the impulses of that tape, and they
reach to the end of the train. -/
theorem readImpulses_eq_ok_iff {reader after : Reader} {tape : DecodedTape} :
    readImpulses reader = .ok tape after ↔
      tape.header.length = headerLength ∧ reader.Passes tape.impulses after ∧
        after.rest = [] := by
  constructor
  · intro h
    obtain ⟨headerSync, r₁, hheaderSync, h⟩ := Reads.bind_eq_ok_iff.1 h
    obtain ⟨header, r₂, hheader, h⟩ := Reads.bind_eq_ok_iff.1 h
    obtain ⟨dataSync, r₃, hdataSync, h⟩ := Reads.bind_eq_ok_iff.1 h
    obtain ⟨data, r₄, hdata, h⟩ := Reads.bind_eq_ok_iff.1 h
    cases h
    obtain ⟨hlength, hheader⟩ := Reads.framedBytes_eq_ok_iff.1 hheader
    obtain ⟨_, rfl, hdata, hend⟩ := Reads.framedBytesToEnd_eq_ok_iff.1 hdata
    refine ⟨hlength, ?_, hend⟩
    refine Reader.passes_append.2 ⟨r₁, Reads.sync_eq_ok_iff.1 hheaderSync, ?_⟩
    refine Reader.passes_append.2 ⟨r₂, hheader, ?_⟩
    exact Reader.passes_append.2 ⟨r₃, Reads.sync_eq_ok_iff.1 hdataSync, hdata⟩
  · rintro ⟨hlength, h, hend⟩
    obtain ⟨r₁, hheaderSync, h⟩ := Reader.passes_append.1 h
    obtain ⟨r₂, hheader, h⟩ := Reader.passes_append.1 h
    obtain ⟨r₃, hdataSync, hdata⟩ := Reader.passes_append.1 h
    refine Reads.bind_eq_ok_iff.2 ⟨_, r₁, Reads.sync_eq_ok_iff.2 hheaderSync, ?_⟩
    refine Reads.bind_eq_ok_iff.2 ⟨_, r₂, Reads.framedBytes_eq_ok_iff.2 ⟨hlength, hheader⟩, ?_⟩
    refine Reads.bind_eq_ok_iff.2 ⟨_, r₃, Reads.sync_eq_ok_iff.2 hdataSync, ?_⟩
    refine Reads.bind_eq_ok_iff.2 ⟨tape.data, after, ?_, rfl⟩
    exact Reads.framedBytesToEnd_eq_ok_iff.2 ⟨tape.data, rfl, hdata, hend⟩

theorem ofTrain_nil : ofTrain [] = .error (.malformed 0 .missingSilence) := rfl

theorem ofTrain_cons_of_ok {silence : UInt16} {train : List UInt16} {tape : DecodedTape}
    {after : Reader} (h : readImpulses ⟨1, train⟩ = .ok tape after) :
    ofTrain (silence :: train) = .ok tape := by
  have hread : read (.ofTrain (silence :: train)) = readImpulses ⟨1, train⟩ := rfl
  rw [ofTrain, hread, h]

theorem ofTrain_cons_of_error {silence : UInt16} {train : List UInt16} {error : TapeError}
    {after : Reader} (h : readImpulses ⟨1, train⟩ = .error error after) :
    ofTrain (silence :: train) = .error error := by
  have hread : read (.ofTrain (silence :: train)) = readImpulses ⟨1, train⟩ := rfl
  rw [ofTrain, hread, h]

/-- A train is a tape if some silence and then the impulses of that tape are
all there is. -/
theorem ofTrain_eq_ok_iff {train : List UInt16} {tape : DecodedTape} :
    ofTrain train = .ok tape ↔
      tape.header.length = headerLength ∧
        ∃ silence, train = silence :: Impulse.train tape.impulses := by
  cases train with
  | nil => simp [ofTrain_nil]
  | cons silence train =>
      constructor
      · intro h
        cases hread : readImpulses ⟨1, train⟩ with
        | error error after => simp [ofTrain_cons_of_error hread] at h
        | ok found after =>
            rw [ofTrain_cons_of_ok hread] at h
            cases h
            obtain ⟨hlength, ⟨hrest, _⟩, hend⟩ := readImpulses_eq_ok_iff.1 hread
            refine ⟨hlength, silence, ?_⟩
            rw [hend, List.append_nil] at hrest
            exact congrArg _ hrest
      · rintro ⟨hlength, _, h⟩
        obtain ⟨rfl, rfl⟩ := List.cons.inj h
        have hpasses := Reader.passes_train 1 tape.impulses []
        rw [List.append_nil] at hpasses
        exact ofTrain_cons_of_ok (readImpulses_eq_ok_iff.2 ⟨hlength, hpasses, rfl⟩)

/-- The tape that is written for an image. -/
def ofImage (image : List UInt8) : DecodedTape :=
  ⟨image.take headerLength, image.drop headerLength, Tape.headerSync, Tape.dataSync⟩

theorem image_ofImage (image : List UInt8) : (ofImage image).image = image :=
  List.take_append_drop headerLength image

theorem length_header_ofImage {image : List UInt8} (h : headerLength ≤ image.length) :
    (ofImage image).header.length = headerLength := by
  rw [ofImage, List.length_take, Nat.min_eq_left h]

/-! ## Writing a tape -/

/-- The steps that write a tape behind its silence. -/
def steps (tape : DecodedTape) : List Write :=
  Tape.opening tape.headerSync ++ tape.header.map .framedByte ++
    Tape.opening tape.dataSync ++ tape.data.map .framedByte

theorem not_isSilence_of_mem_steps {tape : DecodedTape} {step : Write} (h : step ∈ tape.steps) :
    ¬step.IsSilence := by
  rintro ⟨length, rfl⟩
  simp only [steps, Tape.opening, List.mem_append, List.mem_cons, List.mem_map,
    List.not_mem_nil] at h
  simp at h

theorem impulses_steps (tape : DecodedTape) :
    tape.steps.flatMap Write.impulses = tape.impulses := by
  have hopening (count : Nat) :
      (Tape.opening count).flatMap Write.impulses = Impulse.synchronization count := by
    simp [Tape.opening, Write.impulses, Impulse.synchronization]
  have hframes (bytes : List UInt8) :
      (bytes.map Write.framedByte).flatMap Write.impulses = Impulse.frames bytes := by
    rw [List.flatMap_map]
    rfl
  simp only [steps, List.flatMap_append, hopening, hframes, impulses, List.append_assoc]

/-- A silence has room in any writer that may write at all, and then there are only
impulses to be written. -/
theorem runAll_steps (silence : UInt16) (tape : DecodedTape) {limit : Nat} (h : 0 < limit) :
    Write.runAll 0 (.silence silence :: tape.steps) (.empty limit) =
      Writes.impulses 1 tape.impulses ⟨#[silence], limit⟩ := by
  have hsilence : (Write.silence silence).run (.empty limit) = .ok 1 ⟨#[silence], limit⟩ := by
    simp only [Write.run, Writes.silence, Writer.empty, List.size_toArray, List.length_nil]
    rw [if_pos h]
    rfl
  rw [Write.runAll_cons_of_ok hsilence,
    Write.runAll_eq_impulses fun _ => not_isSilence_of_mem_steps, impulses_steps]

end DecodedTape

namespace Tape

/-- The train that is written for an image. -/
def trainOf (image : List UInt8) : List UInt16 :=
  leadingSilence :: Impulse.train (DecodedTape.ofImage image).impulses

theorem encode_of_short {image : List UInt8} (h : image.length < headerLength) :
    encode image = .error (.imageTooShort image.length headerLength) := by
  rw [encode, if_pos h]

theorem capacityFor_pos (length : Nat) : 0 < capacityFor length := by
  rw [capacityFor]
  omega

/-- The writer of an image once the leading silence was written. -/
def started (image : List UInt8) : Writer :=
  ⟨#[leadingSilence], capacityFor image.length⟩

theorem runAll_program (image : List UInt8) :
    Write.runAll 0 (program image) (.empty (capacityFor image.length)) =
      Writes.impulses 1 (DecodedTape.ofImage image).impulses (started image) :=
  DecodedTape.runAll_steps leadingSilence (.ofImage image) (capacityFor_pos image.length)

theorem fits_iff (image : List UInt8) :
    (DecodedTape.ofImage image).impulses.length ≤ (started image).room ↔
      (trainOf image).length ≤ capacityFor image.length := by
  have hpositive := capacityFor_pos image.length
  simp only [trainOf, List.length_cons, Impulse.length_train, Writer.room, started,
    List.size_toArray, List.length_nil]
  omega

/-- An image with a header becomes its train if there is room for it. -/
theorem encode_eq {image : List UInt8} (h : headerLength ≤ image.length) :
    encode image =
      if (trainOf image).length ≤ capacityFor image.length then
        .ok ⟨(trainOf image).toArray, capacityFor image.length⟩
      else .error (.capacityExceeded (capacityFor image.length)) := by
  rw [encode, if_neg (Nat.not_lt.2 h)]
  simp only [runAll_program, Writes.impulses_eq, fits_iff]
  by_cases hfits : (trainOf image).length ≤ capacityFor image.length
  · rw [if_pos hfits, if_pos hfits]
    simp [Writer.append, started, trainOf]
  · rw [if_neg hfits, if_neg hfits]
    rfl

/-- An image that becomes a tape has a header, and the tape holds its train. -/
theorem eq_of_encode {image : List UInt8} {tape : Tape} (h : encode image = .ok tape) :
    headerLength ≤ image.length ∧
      tape = ⟨(trainOf image).toArray, capacityFor image.length⟩ := by
  by_cases hlength : headerLength ≤ image.length
  · rw [encode_eq hlength] at h
    split at h
    · cases h
      exact ⟨hlength, rfl⟩
    · cases h
  · rw [encode_of_short (Nat.lt_of_not_le hlength)] at h
    cases h

/-- The train of an image reads back as the tape of that image. -/
theorem ofTrain_trainOf {image : List UInt8} (h : headerLength ≤ image.length) :
    DecodedTape.ofTrain (trainOf image) = .ok (DecodedTape.ofImage image) :=
  DecodedTape.ofTrain_eq_ok_iff.2
    ⟨DecodedTape.length_header_ofImage h, leadingSilence, rfl⟩

/-- The tape of an image reads back as that image. -/
theorem ofTrain_of_encode {image : List UInt8} {tape : Tape} (h : encode image = .ok tape) :
    DecodedTape.ofTrain tape.pulses.toList = .ok (DecodedTape.ofImage image) := by
  obtain ⟨hlength, rfl⟩ := eq_of_encode h
  exact ofTrain_trainOf hlength

end Tape

end Cassette
