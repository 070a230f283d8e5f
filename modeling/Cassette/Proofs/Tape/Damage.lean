import Mathlib.Algebra.Ring.Nat
import Cassette.Proofs.Signal.Places
import Cassette.Proofs.Signal.Unambiguous
import Cassette.Proofs.Tape.Grammar
import Cassette.Proofs.Tape.ViablePrefix

/-!
# Tapes that break off and tapes with a wrong half-period

What is read of a train that begins like a tape and then goes on without an
impulse: the error stands at that place, for the reader came there as it would
have on the whole tape (`readImpulses_of_isPrefix`).  Only if nothing goes on
there, and the place is behind a frame of data, is a tape read, with the data up
to there.

A tape that breaks off is read like this (`ofTrain_take_of_encode`), and so is a
tape in which one half-period has a wrong length (`ofTrain_set`).
-/

namespace Cassette

open Signal Reads

namespace DecodedTape

/-- The tape with the first bytes of its data only. -/
def takeData (tape : DecodedTape) (count : Nat) : DecodedTape :=
  { tape with data := tape.data.take count }

theorem takeData_ofImage (image : List UInt8) (count : Nat) :
    (ofImage image).takeData count = ofImage (image.take (headerLength + count)) := by
  simp only [takeData, ofImage, mk.injEq, and_true]
  constructor
  · rw [List.take_take, Nat.min_eq_left (Nat.le_add_right headerLength count)]
  · rw [List.drop_take, Nat.add_sub_cancel_left]

theorem isPrefix_impulses_takeData (tape : DecodedTape) (count : Nat) :
    (tape.takeData count).impulses <+: tape.impulses := by
  have hframes : Impulse.frames tape.data =
      Impulse.frames (tape.data.take count) ++ Impulse.frames (tape.data.drop count) := by
    unfold Impulse.frames
    rw [← List.flatMap_append, List.take_append_drop]
  refine ⟨Impulse.frames (tape.data.drop count), ?_⟩
  simp only [impulses, takeData, hframes, List.append_assoc]

/-- A tape whose impulses begin another tape with a header of the same length is
that tape with less data. -/
theorem eq_takeData_of_isPrefix {found tape : DecodedTape}
    (hlength : found.header.length = tape.header.length)
    (h : found.impulses <+: tape.impulses) :
    ∃ count, count ≤ tape.data.length ∧ found = tape.takeData count := by
  obtain ⟨more, hmore⟩ := h
  simp only [impulses, List.append_assoc] at hmore
  obtain ⟨hheaderSync, hmore⟩ := Impulse.prefixFree_synchronization hmore
  obtain ⟨hheader, hmore⟩ := Impulse.frames_append_inj hlength hmore
  obtain ⟨hdataSync, hmore⟩ := Impulse.prefixFree_synchronization hmore
  have hdata : found.data <+: tape.data := Impulse.isPrefix_of_frames ⟨more, hmore⟩
  obtain ⟨header, data, headerSync, dataSync⟩ := found
  refine ⟨data.length, hdata.length_le, ?_⟩
  simp only [takeData, mk.injEq]
  exact ⟨hheader, List.prefix_iff_eq_take.1 hdata, hheaderSync, hdataSync⟩

/-- What is read of a train that goes on like a tape up to a place where no
impulse is ahead. -/
theorem readImpulses_of_isPrefix {tape : DecodedTape}
    (hheader : tape.header.length = headerLength) {heard : List Impulse}
    (hheard : heard <+: tape.impulses) {reader after : Reader} {error : TapeError}
    (passes : reader.Passes heard after) (peeks : peek after = .error error after) :
    readImpulses reader = .error error after ∨
      ∃ count, count ≤ tape.data.length ∧ heard = (tape.takeData count).impulses ∧
        AtEnd after := by
  cases orderly_readImpulses reader with
  | @answered other last found passes' stopped answers =>
      right
      obtain ⟨hlength, hfound, hend⟩ := readImpulses_eq_ok_iff.1 (answers passes' stopped)
      obtain ⟨hsame, rfl⟩ :=
        passes.eq_of_peek_error peeks hfound (Reader.peek_of_atEnd hend)
      obtain ⟨count, hcount, rfl⟩ :=
        eq_takeData_of_isPrefix (hlength.trans hheader.symm) (hsame ▸ hheard)
      exact ⟨count, hcount, hsame.symm, hend⟩
  | jammed passes' peeks' fails wanted =>
      left
      obtain ⟨rfl, rfl⟩ := passes.eq_of_peek_error peeks passes' peeks'
      rw [peeks] at peeks'
      cases peeks'
      exact fails
  | @refused other kind last defect passes' misplaced refuses wanted =>
      -- The impulse out of place is one of the tape, which is read without error.
      obtain ⟨more, hmore⟩ := (passes.isPrefix peeks passes').trans hheard
      have hfails := refuses (Reader.passes_train 1 (other ++ [kind]) (Impulse.train more))
      have htape := Reader.passes_train 1 tape.impulses []
      rw [← Impulse.train_append, hmore] at hfails
      rw [List.append_nil] at htape
      rw [readImpulses_eq_ok_iff.2 ⟨hheader, htape, rfl⟩] at hfails
      cases hfails

/-- The train is no tape, for the given reason and at the given place. -/
def MalformedAt (train : List UInt16) (position : Nat) (reason : String) : Prop :=
  ∃ defect : Defect, defect.message = reason ∧
    ofTrain train = .error (.malformed position defect)

/-- The same behind a silence. -/
theorem ofTrain_cons_of_isPrefix {tape : DecodedTape}
    (hheader : tape.header.length = headerLength) {heard : List Impulse}
    (hheard : heard <+: tape.impulses) (silence : UInt16) {tail : List UInt16}
    {defect : Defect}
    (peeks : peek ⟨1 + 2 * heard.length, tail⟩ =
      .error (.malformed (1 + 2 * heard.length) defect) ⟨1 + 2 * heard.length, tail⟩) :
    MalformedAt (silence :: (Impulse.train heard ++ tail)) (1 + 2 * heard.length)
        defect.message ∨
      ∃ count, count ≤ tape.data.length ∧ heard = (tape.takeData count).impulses ∧
        tail = [] := by
  rcases readImpulses_of_isPrefix hheader hheard (Reader.passes_train 1 heard tail) peeks with
    hfails | hends
  · exact .inl ⟨defect, rfl, ofTrain_cons_of_error hfails⟩
  · exact .inr hends

end DecodedTape

/-! ## Tapes that break off -/

namespace Tape

/-- The number of values up to the end of the given number of data bytes. -/
def byteBorder (image : List UInt8) (count : Nat) : Nat :=
  74421 + ((image.take (32 + count)).map fun byte => 26 + 2 * Bits.ones byte).sum

theorem sum_map_ones (bytes : List UInt8) :
    (bytes.map fun byte => 26 + 2 * Bits.ones byte).sum =
      26 * bytes.length + 2 * Bits.onesIn bytes := by
  induction bytes with
  | nil => rfl
  | cons byte bytes ih =>
      simp only [List.map_cons, List.sum_cons, List.length_cons, Bits.onesIn_cons, ih]
      omega

theorem byteBorder_eq (image : List UInt8) (count : Nat) :
    byteBorder image count =
      1 + 2 * ((DecodedTape.ofImage image).takeData count).impulses.length := by
  have hlength := length_trainOf (image.take (headerLength + count))
  rw [trainOf, List.length_cons, Impulse.length_train, ← DecodedTape.takeData_ofImage] at hlength
  rw [byteBorder, sum_map_ones]
  unfold headerLength at hlength
  omega

end Tape

namespace DecodedTape

/-- The beginning of a tape up to the end of a byte of its data is a tape. -/
theorem ofTrain_take_byteBorder {image : List UInt8} (hlength : headerLength ≤ image.length)
    (count : Nat) :
    ofTrain ((Tape.trainOf image).take (Tape.byteBorder image count)) =
      .ok ((ofImage image).takeData count) := by
  obtain ⟨more, hmore⟩ := isPrefix_impulses_takeData (ofImage image) count
  refine ofTrain_eq_ok_iff.2 ⟨length_header_ofImage hlength, Tape.leadingSilence, ?_⟩
  rw [Tape.trainOf, ← hmore, Impulse.train_append, ← List.cons_append]
  refine List.take_left' ?_
  rw [Tape.byteBorder_eq, List.length_cons, Impulse.length_train, Nat.add_comm]

/-- A tape that breaks off behind its silence breaks off at the end of a byte of
its data, or it is given up where its whole impulses end. -/
theorem ofTrain_take_trainOf {image : List UInt8} (hlength : headerLength ≤ image.length)
    {whole half : Nat} (hhalf : half < 2)
    (hn : 1 + (2 * whole + half) ≤ (Tape.trainOf image).length) :
    MalformedAt ((Tape.trainOf image).take (1 + (2 * whole + half))) (1 + 2 * whole)
        "truncated impulse" ∨
      ∃ count, count ≤ image.length - headerLength ∧
        1 + (2 * whole + half) = Tape.byteBorder image count := by
  let heard := (ofImage image).impulses.take whole
  let tail := (Impulse.train ((ofImage image).impulses.drop whole)).take half
  have htrain := Impulse.length_train (ofImage image).impulses
  rw [Tape.trainOf, List.length_cons] at hn
  have hwhole : whole ≤ (ofImage image).impulses.length := by omega
  have hheard : heard.length = whole := by
    rw [List.length_take, Nat.min_eq_left hwhole]
  have htail : tail.length = half := by
    simp only [tail, List.length_take, Impulse.length_train, List.length_drop]
    omega
  have htake : (Tape.trainOf image).take (1 + (2 * whole + half)) =
      Tape.leadingSilence :: (Impulse.train heard ++ tail) := by
    rw [Tape.trainOf, Nat.add_comm, List.take_succ_cons, Impulse.take_train hwhole]
  have hpeek : peek ⟨1 + 2 * heard.length, tail⟩ = .error
      (.malformed (1 + 2 * heard.length) .truncatedImpulse) ⟨1 + 2 * heard.length, tail⟩ :=
    peek_eq_error_iff.2 (.inl ⟨by omega, rfl⟩)
  rw [htake]
  rcases ofTrain_cons_of_isPrefix (length_header_ofImage hlength)
    (List.take_prefix whole _) Tape.leadingSilence hpeek with
    hmalformed | ⟨count, hcount, hsame, hnil⟩
  · left
    rw [hheard] at hmalformed
    exact hmalformed
  · right
    have hdata : (ofImage image).data.length = image.length - headerLength := List.length_drop
    refine ⟨count, by omega, ?_⟩
    have hborder := congrArg List.length hsame
    rw [hnil, List.length_nil] at htail
    rw [Tape.byteBorder_eq, ← hborder, hheard, ← htail]
    rfl

/-- What the beginning of a tape reads as.  Without a value the silence is
missing.  Up to the end of a byte of the data, it is a tape with the data up to
there.  Anywhere else it breaks off within an impulse or for want of one. -/
theorem ofTrain_take_of_encode {image : List UInt8} {tape : Tape}
    (h : Tape.encode image = .ok tape) {n : Nat} (hn : n ≤ tape.pulses.size) :
    (n = 0 → MalformedAt (tape.pulses.toList.take n) 0 "missing leading silence") ∧
    (∀ count, count ≤ image.length - 32 → n = Tape.byteBorder image count →
      ofTrain (tape.pulses.toList.take n) =
        .ok ⟨image.take 32, (image.drop 32).take count, 30000, 7200⟩) ∧
    (n ≠ 0 → (∀ count, count ≤ image.length - 32 → n ≠ Tape.byteBorder image count) →
      MalformedAt (tape.pulses.toList.take n) (if n % 2 = 1 then n else n - 1)
        "truncated impulse") := by
  obtain ⟨hlength, rfl⟩ := Tape.eq_of_encode h
  refine ⟨?_, ?_, ?_⟩
  · rintro rfl
    exact ⟨.missingSilence, rfl, ofTrain_nil⟩
  · rintro count - rfl
    exact ofTrain_take_byteBorder hlength count
  · intro hpos hborder
    -- One value of silence, whole impulses, and perhaps half of one.
    obtain ⟨whole, half, hhalf, rfl⟩ :
        ∃ whole half, half < 2 ∧ n = 1 + (2 * whole + half) :=
      ⟨(n - 1) / 2, (n - 1) % 2, by omega, by omega⟩
    have hplace : (if (1 + (2 * whole + half)) % 2 = 1 then 1 + (2 * whole + half)
        else 1 + (2 * whole + half) - 1) = 1 + 2 * whole := by
      split <;> omega
    rw [hplace]
    rcases ofTrain_take_trainOf hlength hhalf hn with hmalformed | ⟨count, hcount, heq⟩
    · exact hmalformed
    · exact absurd heq (hborder count hcount)

/-- A header without data, and a byte of data that lacks the last value. -/
theorem ofTrain_take_of_encode_one_data_byte :
    ∃ tape, Tape.encode (List.replicate 32 0 ++ [0xff]) = .ok tape ∧
      tape.pulses.size = 75295 ∧
      MalformedAt (tape.pulses.toList.take 0) 0 "missing leading silence" ∧
      ofTrain (tape.pulses.toList.take 75253) = .ok ⟨List.replicate 32 0, [], 30000, 7200⟩ ∧
      MalformedAt (tape.pulses.toList.take 75294) 75293 "truncated impulse" := by
  have hencode : Tape.encode (List.replicate 32 0 ++ [0xff]) = .ok _ :=
    Tape.encode_of_fits (by decide) (by decide)
  have hsize : (Tape.trainOf (List.replicate 32 0 ++ [0xff])).length = 75295 := by
    rw [Tape.length_trainOf]
    decide
  have hcut {n : Nat} (hn : n ≤ 75295) :=
    ofTrain_take_of_encode hencode (Nat.le_trans hn (Nat.le_of_eq hsize.symm))
  refine ⟨_, hencode, hsize, ?_, ?_, ?_⟩
  · exact (hcut (by omega)).1 rfl
  · exact (hcut (by omega)).2.1 0 (by decide) (by decide)
  · exact (hcut (by omega)).2.2 (by decide) (by decide)

/-! ## Tapes with a wrong half-period -/

/-- With a wrong half-period two values are no impulse. -/
theorem peek_set {kind : Impulse} {value : UInt16} {half : Nat} (hhalf : half < 2)
    (hvalue : value ≠ kind.halfPeriod) (position : Nat) (more : List UInt16) :
    let wrong : Reader := ⟨position, [kind.halfPeriod, kind.halfPeriod].set half value ++ more⟩
    peek wrong = .error (.malformed position .unknownImpulse) wrong := by
  obtain ⟨hfirst, hsecond⟩ := Impulse.ofPair?_eq_none hvalue
  obtain rfl | rfl : half = 0 ∨ half = 1 := by omega
  · exact peek_of_noPair hfirst
  · exact peek_of_noPair hsecond

/-- In a tape no half-period but the first can be replaced unnoticed: the two
values of its impulse are no impulse any more, and reading stops in front of them.
The first one is not looked at. -/
theorem ofTrain_set {train : List UInt16} {tape : DecodedTape} (h : ofTrain train = .ok tape) :
    (∀ (i : Nat) (hi : i < train.length) (value : UInt16), 1 ≤ i → value ≠ train[i] →
      MalformedAt (train.set i value) (if i % 2 = 1 then i else i - 1) "unknown impulse") ∧
    ∀ value, ofTrain (train.set 0 value) = .ok tape := by
  obtain ⟨hheader, silence, rfl⟩ := ofTrain_eq_ok_iff.1 h
  constructor
  · intro i hi value hpos hvalue
    obtain ⟨place, rfl⟩ : ∃ place, i = place + 1 := ⟨i - 1, by omega⟩
    obtain ⟨heard, kind, more, half, himpulses, hhalf, rfl⟩ :=
      Impulse.exists_impulse (Nat.lt_of_succ_lt_succ hi)
    have hkind : value ≠ kind.halfPeriod := by
      have hget : (Impulse.train (heard ++ kind :: more))[2 * heard.length + half]? =
          some kind.halfPeriod := Impulse.getElem?_train hhalf
      rw [← himpulses] at hget
      obtain ⟨_, hget⟩ := List.getElem?_eq_some_iff.1 hget
      rw [List.getElem_cons_succ, hget] at hvalue
      exact hvalue
    have hplace : (if (2 * heard.length + half + 1) % 2 = 1 then 2 * heard.length + half + 1
        else 2 * heard.length + half + 1 - 1) = 1 + 2 * heard.length := by
      split <;> omega
    rw [hplace, List.set_cons_succ, himpulses, Impulse.set_train hhalf]
    rcases ofTrain_cons_of_isPrefix hheader ⟨kind :: more, himpulses.symm⟩ silence
      (peek_set hhalf hkind _ _) with hmalformed | ⟨count, _, _, hnil⟩
    · exact hmalformed
    -- Something stands there, so the tape did not end.
    · simp at hnil
  · intro value
    exact ofTrain_eq_ok_iff.2 ⟨hheader, value, rfl⟩

/-- A tape that no image is encoded to, for its runs are short: a wrong value in
the marker of its first run, and one in the bits of its header. -/
theorem ofTrain_set_in_short_runs :
    let train := Grammar.tape 5 0 (List.replicate 32 0) 1 [0xff]
    ofTrain train = .ok ⟨List.replicate 32 0, [0xff], 0, 1⟩ ∧
      MalformedAt (train.set 8 834) 7 "unknown impulse" ∧
      MalformedAt (train.set 11 833) 11 "unknown impulse" ∧
      ofTrain (train.set 0 833) = .ok ⟨List.replicate 32 0, [0xff], 0, 1⟩ := by
  intro train
  have hok : ofTrain train = .ok ⟨List.replicate 32 0, [0xff], 0, 1⟩ :=
    ofTrain_eq_ok_iff.2 ⟨List.length_replicate, 5,
      Grammar.tape_eq 5 ⟨List.replicate 32 0, [0xff], 0, 1⟩⟩
  obtain ⟨hdamaged, hsilence⟩ := ofTrain_set hok
  obtain ⟨h8, hmarker⟩ := List.getElem?_eq_some_iff.1 (show train[8]? = some 833 from rfl)
  obtain ⟨h11, hbit⟩ := List.getElem?_eq_some_iff.1 (show train[11]? = some 1666 from rfl)
  refine ⟨hok, ?_, ?_, hsilence 833⟩
  · exact hdamaged 8 h8 834 (by decide) (by rw [hmarker]; decide)
  · exact hdamaged 11 h11 833 (by decide) (by rw [hbit]; decide)

end DecodedTape

end Cassette
