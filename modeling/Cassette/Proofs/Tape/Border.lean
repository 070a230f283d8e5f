import Cassette.Proofs.Signal.Runs
import Cassette.Proofs.Tape.Grammar

/-!
# The border between header and data

Nothing in a train says how long its header is: reading takes 32 framed bytes and then
looks for the run in front of the data.  If the header was written with a byte too few or
too many, reading is out of step with what was written, and only the lengths of runs tell.
No run within frames is longer than that of a full byte, so a run in front of the data that
is longer has to be read as what it is (`eq_of_impulses_eq`), and a train with a header of
any other length is no tape (`ofTrain_of_length_header_ne`).

That run must be longer than the one in a full byte by an impulse at least: one that is just
as long can be taken for the last byte of the header (`ofTrain_tape_of_run_as_byte`).
-/

namespace Cassette

open Signal

namespace DecodedTape

/-- Impulses with a long run in front of the data are those of no other tape, whatever the
lengths of the headers. -/
theorem eq_of_impulses_eq {found tape : DecodedTape} (hsync : 17 ≤ tape.dataSync)
    (h : found.impulses = tape.impulses) : found = tape := by
  obtain ⟨foundHeader, foundData, foundHeaderSync, foundDataSync⟩ := found
  obtain ⟨header, data, headerSync, dataSync⟩ := tape
  obtain ⟨rfl, hbehind⟩ := Impulse.prefixFree_synchronization h
  simp only [Impulse.synchronization_eq_run] at hbehind
  have hlong : 20 < dataSync + 4 := by
    have : 17 ≤ dataSync := hsync
    omega
  -- The long run can only be the one that was read in front of the data.
  obtain ⟨more, hheader, hrun, hdata⟩ := Impulse.run_append_inj hlong hbehind
  obtain rfl := Impulse.eq_zero_of_frames hheader
  rw [List.replicate_zero, List.append_nil] at hheader
  obtain rfl := Impulse.frames_injective hheader
  obtain rfl := Impulse.frames_injective hdata
  obtain rfl : foundDataSync = dataSync := by omega
  rfl

/-- The values of a tape are written where there is room for them, whatever the length of
its header. -/
theorem runAll_eq_tape (silence : UInt16) (tape : DecodedTape) {limit : Nat}
    (hroom : (Grammar.tape silence tape.headerSync tape.header tape.dataSync tape.data).length ≤
      limit) :
    ∃ count writer, Write.runAll 0 (.silence silence :: tape.steps) (.empty limit) =
        .ok count writer ∧
      writer.train.toList =
        Grammar.tape silence tape.headerSync tape.header tape.dataSync tape.data := by
  rw [Grammar.tape_eq, List.length_cons, Impulse.length_train] at hroom
  have hfits : tape.impulses.length ≤ Writer.room ⟨#[silence], limit⟩ := by
    simp only [Writer.room, List.size_toArray, List.length_cons, List.length_nil]
    omega
  have hwritten := runAll_steps silence tape (show 0 < limit by omega)
  rw [Writes.impulses_eq, if_pos hfits] at hwritten
  refine ⟨_, _, hwritten, ?_⟩
  rw [Grammar.tape_eq]
  simp [Writer.append]

/-- No tape is read where a long run stands behind a header of the wrong length. -/
theorem ofTrain_tape_ne_ok {silence : UInt16} {tape found : DecodedTape}
    (hheader : tape.header.length ≠ headerLength) (hsync : 17 ≤ tape.dataSync) :
    ofTrain (Grammar.tape silence tape.headerSync tape.header tape.dataSync tape.data) ≠
      .ok found := by
  rw [Grammar.tape_eq]
  intro h
  obtain ⟨hlength, _, htrain⟩ := ofTrain_eq_ok_iff.1 h
  have himpulses := Impulse.train_injective (List.cons.inj htrain).2
  obtain rfl := eq_of_impulses_eq hsync himpulses.symm
  exact hheader hlength

/-- A header that was written with more or with fewer than 32 bytes is not read back, neither
as it is nor shifted, if the run in front of the data has at least 17 short impulses:
reading the train fails. -/
theorem ofTrain_of_length_header_ne (silence : UInt16) (headerSync : Nat) (header : List UInt8)
    (dataSync : Nat) (data : List UInt8) (limit : Nat) (hheader : header.length ≠ 32)
    (hsync : 17 ≤ dataSync)
    (hroom : (Grammar.tape silence headerSync header dataSync data).length ≤ limit) :
    let steps : List Write :=
      [.silence silence, .sync headerSync, .endOfByte] ++ header.map .framedByte ++
        [.sync dataSync, .endOfByte] ++ data.map .framedByte
    ∃ count writer, Write.runAll 0 steps (.empty limit) = .ok count writer ∧
      writer.train.toList = Grammar.tape silence headerSync header dataSync data ∧
      ∃ error, ofTrain writer.train.toList = .error error := by
  intro steps
  obtain ⟨count, writer, hwritten, htrain⟩ :=
    runAll_eq_tape silence ⟨header, data, headerSync, dataSync⟩ hroom
  refine ⟨count, writer, hwritten, htrain, ?_⟩
  cases hread : ofTrain writer.train.toList with
  | error error => exact ⟨error, rfl⟩
  | ok found =>
    rw [htrain] at hread
    exact absurd hread (ofTrain_tape_ne_ok hheader hsync)

/-- A header that lost a byte, and one in which a byte was doubled. -/
theorem ofTrain_of_length_header_ne_by_one :
    (∃ error, ofTrain (Grammar.tape 17400 0 (List.replicate 31 0xff) 17 [0xff]) = .error error) ∧
    ∃ error, ofTrain (Grammar.tape 17400 5 (List.replicate 33 0xff) 17 []) = .error error := by
  obtain ⟨_, _, -, hless, hlessError⟩ :=
    ofTrain_of_length_header_ne 17400 0 (List.replicate 31 0xff) 17 [0xff] _ (by decide)
      (by decide) (Nat.le_refl _)
  obtain ⟨_, _, -, hmore, hmoreError⟩ :=
    ofTrain_of_length_header_ne 17400 5 (List.replicate 33 0xff) 17 [] _ (by decide)
      (by decide) (Nat.le_refl _)
  rw [hless] at hlessError
  rw [hmore] at hmoreError
  exact ⟨hlessError, hmoreError⟩

/-- With a run of 16 short impulses the law fails: the run and its marker are those of a full
byte, so it is read as the last byte of a header that is a byte too short, and the first
full byte of the data as the run. -/
theorem ofTrain_tape_of_run_as_byte (silence : UInt16) (headerSync : Nat) {header : List UInt8}
    (data : List UInt8) (hheader : header.length = 31) :
    ofTrain (Grammar.tape silence headerSync header 16 (0xff :: data)) =
      .ok ⟨header ++ [0xff], data, headerSync, 16⟩ := by
  have himpulses : impulses ⟨header, 0xff :: data, headerSync, 16⟩ =
      impulses ⟨header ++ [0xff], data, headerSync, 16⟩ := by
    simp [impulses, Impulse.synchronization_eq_run, Impulse.frames, Impulse.frame_full]
  refine ofTrain_eq_ok_iff.2 ⟨by simp [hheader, headerLength], silence, ?_⟩
  rw [← himpulses]
  exact Grammar.tape_eq silence ⟨header, 0xff :: data, headerSync, 16⟩

end DecodedTape

end Cassette
