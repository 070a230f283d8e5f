import Cassette.Proofs.Tape.Capacity

/-!
# The grammar of tapes

The trains that hold a tape, written out in half-periods and without a word
about reading or writing.  Reading accepts these trains and no others
(`ofTrain_eq_ok_iff_tape`), and those among them that have the silence and the
run lengths of an encoded tape are what encoding writes.  The round trip of
images stands at the end.
-/

namespace Cassette

open Signal

namespace Grammar

def short : List UInt16 := [833, 833]

def long : List UInt16 := [1666, 1666]

/-- The marker behind every byte and every synchronization run. -/
def marker : List UInt16 :=
  short ++ short ++ short ++ short ++ long

/-- The eight bits of a byte, the lowest first: a 1 is two short impulses and a
0 a long one. -/
def bits (byte : UInt8) : List UInt16 :=
  (List.range 8).flatMap fun i => if byte.toNat.testBit i then short ++ short else long

/-- The bits of a byte and the marker. -/
def frame (byte : UInt8) : List UInt16 :=
  bits byte ++ marker

/-- A run of short impulses and the marker. -/
def run (count : Nat) : List UInt16 :=
  (List.replicate count short).flatten ++ marker

def tape (silence : UInt16) (headerSync : Nat) (header : List UInt8) (dataSync : Nat)
    (data : List UInt8) : List UInt16 :=
  [silence] ++ run headerSync ++ header.flatMap frame ++ run dataSync ++ data.flatMap frame

theorem marker_eq : marker = Impulse.train Impulse.endOfByte := rfl

theorem bits_eq (byte : UInt8) : bits byte = Impulse.train (Impulse.ofByte byte) := by
  have hbit (bit : Bool) :
      Impulse.train (Impulse.ofBit bit) = if bit then short ++ short else long := by
    cases bit <;> rfl
  have htrain (list : List Bool) : Impulse.train (list.flatMap Impulse.ofBit) =
      list.flatMap fun bit => if bit then short ++ short else long := by
    induction list with
    | nil => rfl
    | cons bit list ih =>
        rw [List.flatMap_cons, Impulse.train_append, ih, hbit]
        rfl
  rw [Impulse.ofByte, htrain, Bits.ofByte, List.flatMap_map]
  rfl

theorem frame_eq (byte : UInt8) : frame byte = Impulse.train (Impulse.frame byte) := by
  rw [frame, bits_eq, marker_eq, ← Impulse.train_append]
  rfl

theorem flatMap_frame (bytes : List UInt8) :
    bytes.flatMap frame = Impulse.train (Impulse.frames bytes) := by
  induction bytes with
  | nil => rfl
  | cons byte bytes ih =>
      rw [List.flatMap_cons, ih, frame_eq, Impulse.frames_cons, Impulse.train_append]

theorem run_eq (count : Nat) : run count = Impulse.train (Impulse.synchronization count) := by
  have hshorts : (List.replicate count short).flatten =
      Impulse.train (List.replicate count .short) := by
    induction count with
    | zero => rfl
    | succ count ih =>
        rw [List.replicate_succ, List.flatten_cons, ih]
        rfl
  rw [run, hshorts, marker_eq, ← Impulse.train_append]
  rfl

/-- The grammar spells the impulses of a tape behind its silence. -/
theorem tape_eq (silence : UInt16) (tape : DecodedTape) :
    Grammar.tape silence tape.headerSync tape.header tape.dataSync tape.data =
      silence :: Impulse.train tape.impulses := by
  simp only [Grammar.tape, run_eq, flatMap_frame, DecodedTape.impulses, Impulse.train_append,
    List.append_assoc]
  rfl

end Grammar

namespace DecodedTape

/-- A train with the silence and the run lengths of an encoded tape is the train
of its image. -/
theorem trainOf_image {header data : List UInt8} (h : header.length = headerLength) :
    Tape.trainOf (header ++ data) = Grammar.tape 17400 30000 header 7200 data := by
  have himage : ofImage (header ++ data) = ⟨header, data, 30000, 7200⟩ := by
    rw [ofImage, ← h, List.take_left, List.drop_left]
    rfl
  rw [Tape.trainOf, himage, ← Grammar.tape_eq]
  rfl

/-- Reading accepts exactly the trains of the grammar, with the parts that the
grammar names; and a train that reads like an encoded tape and is not too long
for its image is what the image is encoded to. -/
theorem ofTrain_eq_ok_iff_tape (train : List UInt16) (header data : List UInt8)
    (headerSync dataSync : Nat) :
    (ofTrain train = .ok ⟨header, data, headerSync, dataSync⟩ ↔
      header.length = 32 ∧
        ∃ silence, train = Grammar.tape silence headerSync header dataSync data) ∧
    (ofTrain train = .ok ⟨header, data, headerSync, dataSync⟩ →
      train.head? = some 17400 → headerSync = 30000 → dataSync = 7200 →
      train.length ≤ (header.length + data.length + 30000) * 40 →
      ∃ tape, Tape.encode (header ++ data) = .ok tape ∧ tape.pulses.toList = train) := by
  have hread : ofTrain train = .ok ⟨header, data, headerSync, dataSync⟩ ↔
      header.length = 32 ∧
        ∃ silence, train = Grammar.tape silence headerSync header dataSync data := by
    rw [ofTrain_eq_ok_iff]
    simp only [← Grammar.tape_eq]
    rfl
  refine ⟨hread, ?_⟩
  rintro h hsilence rfl rfl hfits
  obtain ⟨hheader, silence, rfl⟩ := hread.1 h
  obtain rfl : silence = 17400 := Option.some.inj hsilence
  rw [← trainOf_image hheader, ← List.length_append] at hfits
  have hlength : headerLength ≤ (header ++ data).length := by
    rw [List.length_append, hheader, headerLength]
    omega
  refine ⟨_, (Tape.encode_eq hlength).trans (if_pos hfits), ?_⟩
  exact trainOf_image hheader

/-- Thirty-two empty bytes and a full one, read and written. -/
theorem ofTrain_eq_ok_iff_tape_one_data_byte :
    ofTrain (Grammar.tape 17400 30000 (List.replicate 32 0) 7200 [0xff]) =
      .ok ⟨List.replicate 32 0, [0xff], 30000, 7200⟩ ∧
    ∃ tape, Tape.encode (List.replicate 32 0 ++ [0xff]) = .ok tape ∧
      tape.pulses.toList = Grammar.tape 17400 30000 (List.replicate 32 0) 7200 [0xff] := by
  obtain ⟨hread, hwrite⟩ := ofTrain_eq_ok_iff_tape
    (Grammar.tape 17400 30000 (List.replicate 32 0) 7200 [0xff]) (List.replicate 32 0) [0xff]
    30000 7200
  have hok := hread.2 ⟨List.length_replicate, 17400, rfl⟩
  refine ⟨hok, hwrite hok rfl rfl rfl ?_⟩
  have hheader : (List.replicate 32 (0 : UInt8)).length = headerLength := by decide
  have hones : Bits.onesIn (List.replicate 32 0 ++ [0xff]) = 8 := by decide
  rw [← trainOf_image hheader, Tape.length_trainOf, hones, List.length_append,
    List.length_replicate]
  decide

/-! ## The round trip -/

/-- Every image that can be encoded is read back, with all of its header and its
data in place; so two images never share a train. -/
theorem ofTrain_pulses_of_encode {image : List UInt8} {tape : Tape}
    (h : Tape.encode image = .ok tape) :
    (∃ decoded, ofTrain tape.pulses.toList = .ok decoded ∧
      decoded.header = image.take 32 ∧ decoded.header.length = 32 ∧
      decoded.data = image.drop 32 ∧ decoded.headerSync = 30000 ∧ decoded.dataSync = 7200 ∧
      decoded.image = image) ∧
    ∀ other otherTape, Tape.encode other = .ok otherTape →
      otherTape.pulses = tape.pulses → other = image := by
  obtain ⟨hlength, rfl⟩ := Tape.eq_of_encode h
  have hread := Tape.ofTrain_trainOf hlength
  constructor
  · exact ⟨ofImage image, hread, rfl, length_header_ofImage hlength, rfl, rfl, rfl,
      image_ofImage image⟩
  · intro other otherTape hother hpulses
    obtain ⟨hotherLength, rfl⟩ := Tape.eq_of_encode hother
    have htrain : Tape.trainOf other = Tape.trainOf image := congrArg Array.toList hpulses
    have hotherRead := Tape.ofTrain_trainOf hotherLength
    rw [htrain, hread] at hotherRead
    -- The one train was read twice, once for each image.
    have hsame : ofImage image = ofImage other := Except.ok.inj hotherRead
    calc
      other = (ofImage other).image := (image_ofImage other).symm
      _ = (ofImage image).image := by rw [hsame]
      _ = image := image_ofImage image

/-- Two images that differ in their last byte only. -/
theorem ofTrain_pulses_of_encode_two_images :
    ∃ empty full, Tape.encode (List.replicate 33 0) = .ok empty ∧
      Tape.encode (List.replicate 32 0 ++ [0xff]) = .ok full ∧
      (∃ decoded, ofTrain full.pulses.toList = .ok decoded ∧
        decoded.header = List.replicate 32 0 ∧ decoded.data = [0xff]) ∧
      empty.pulses ≠ full.pulses := by
  have hempty : Tape.encode (List.replicate 33 0) = .ok _ :=
    Tape.encode_of_fits (by decide) (by decide)
  have hfull : Tape.encode (List.replicate 32 0 ++ [0xff]) = .ok _ :=
    Tape.encode_of_fits (by decide) (by decide)
  obtain ⟨⟨decoded, hread, hheader, _, hdata, _⟩, hinjective⟩ := ofTrain_pulses_of_encode hfull
  refine ⟨_, _, hempty, hfull, ⟨decoded, hread, hheader, hdata⟩, fun hpulses => ?_⟩
  exact absurd (hinjective _ _ hempty hpulses) (by decide)

end DecodedTape

end Cassette
