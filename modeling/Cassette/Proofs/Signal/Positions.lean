import Cassette.Proofs.Signal.Orderly
import Cassette.Proofs.Signal.ReadBack

/-!
# Where a reader stands

Every step of a reader but the silence goes over whole impulses, whether it succeeds or
gives up on the way, and an error names the place where it leaves the reader.  Nothing is
asked of the train or of the place where a step begins: after an error the next step may
begin in the middle of a bit, a marker or a run, and behind a silence one value off the
impulses (`Reader.place_of_run`).

That a step ends in this way is read off its ending as an orderly step
(`Reads.Orderly.strides`).  A run is described by the invariant `Reader.StandsIn`: what is
left to be read is the train from the position of the reader on.
-/

namespace Cassette.Signal

namespace Reads

open Reader

variable {α : Type} {stops : Reader → Prop} {reader after : Reader}

/-- Wherever it begins, the step goes over whole impulses, and an error names the place
behind them. -/
def Strides (step : Reads α) : Prop :=
  ∀ reader, ∃ heard after, reader.Passes heard after ∧
    ((∃ answer, step reader = .ok answer after) ∨
      ∃ defect, step reader = .error (.malformed after.position defect) after)

theorem malformed_of_peek_error {error : TapeError} (h : peek reader = .error error after) :
    ∃ defect, error = .malformed after.position defect := by
  obtain rfl := peek_error_stays h
  rcases peek_eq_error_iff.1 h with ⟨-, herror⟩ | ⟨_, _, _, -, -, herror⟩
  · exact ⟨.truncatedImpulse, herror⟩
  · exact ⟨.unknownImpulse, herror⟩

theorem peek_ok_stays {kind : Impulse} (h : peek reader = .ok kind after) : after = reader := by
  unfold peek at h
  split at h
  · split at h
    · cases h
      rfl
    · cases h
  · cases h

/-- A look ahead and an impulse find the same.  Only an impulse that is there is taken. -/
theorem peek_impulse_cases (reader : Reader) :
    (∃ kind after, peek reader = .ok kind reader ∧ impulse reader = .ok kind after) ∨
      ∃ defect, peek reader = .error (.malformed reader.position defect) reader ∧
        impulse reader = .error (.malformed reader.position defect) reader := by
  cases h : peek reader with
  | ok kind after =>
    left
    have himpulse : impulse reader = .ok kind ⟨reader.position + 2, reader.rest.drop 2⟩ := by
      rw [impulse, h]
    rw [peek_ok_stays h]
    exact ⟨kind, _, rfl, himpulse⟩
  | error error after =>
    right
    obtain ⟨defect, rfl⟩ := malformed_of_peek_error h
    obtain rfl := peek_error_stays h
    exact ⟨defect, rfl, impulse_of_peek_error h⟩

theorem strides_peek : Strides peek := by
  intro reader
  refine ⟨[], reader, passes_nil.2 rfl, ?_⟩
  exact (peek_impulse_cases reader).imp (fun ⟨kind, _, h, _⟩ => ⟨kind, h⟩)
    (fun ⟨defect, h, _⟩ => ⟨defect, h⟩)

theorem strides_impulse : Strides impulse := by
  intro reader
  rcases peek_impulse_cases reader with ⟨kind, after, -, h⟩ | ⟨defect, -, h⟩
  · exact ⟨[kind], after, impulse_eq_ok_iff_passes.1 h, .inl ⟨kind, h⟩⟩
  · exact ⟨[], reader, passes_nil.2 rfl, .inr ⟨defect, h⟩⟩

/-- In each of its three endings an orderly step stands behind what it heard. -/
theorem Orderly.strides {step : Reads α} (h : Orderly stops step) : Strides step := by
  intro reader
  cases h reader with
  | answered passes stopped answers => exact ⟨_, _, passes, .inl ⟨_, answers passes stopped⟩⟩
  | jammed passes peeks fails wanted =>
    obtain ⟨defect, rfl⟩ := malformed_of_peek_error peeks
    exact ⟨_, _, passes, .inr ⟨defect, fails⟩⟩
  | refused passes misplaced refuses wanted =>
    exact ⟨_, _, passes, .inr ⟨_, refuses passes⟩⟩

end Reads

namespace Reader

variable {reader after : Reader} {train taken : List UInt16}

/-! ## One step -/

theorem read_of_error {α : Type} {step : Reads α} {error : TapeError} {action : Read}
    (label : α → Finding) (hrun : action.run = label <$> step)
    (h : step reader = .error error after) : reader.read action = (.error error, after) := by
  have hmap : (label <$> step) reader = .error error after := by
    change EStateM.map label step reader = _
    rw [EStateM.map, h]
  rw [read, hrun, hmap]

/-- What a step leaves behind: it went over whole impulses, and an error names the place
where the reader now stands. -/
structure Strode (reader : Reader) (answer : Except TapeError Finding) (after : Reader) :
    Prop where
  passes : ∃ heard, reader.Passes heard after
  malformed : ∀ error, answer = .error error → ∃ defect, error = .malformed after.position defect

theorem strode_of_strides {α : Type} {step : Reads α} {action : Read} (label : α → Finding)
    (hrun : action.run = label <$> step) (h : step.Strides) (reader : Reader) :
    reader.Strode (reader.read action).1 (reader.read action).2 := by
  obtain ⟨heard, after, passes, ⟨answer, hok⟩ | ⟨defect, herror⟩⟩ := h reader
  · rw [read_of_ok label hrun hok]
    exact ⟨⟨heard, passes⟩, nofun⟩
  · rw [read_of_error label hrun herror]
    refine ⟨⟨heard, passes⟩, fun error h => ⟨defect, ?_⟩⟩
    cases h
    rfl

theorem strode_read {action : Read} (h : action ≠ .silence) (reader : Reader) :
    reader.Strode (reader.read action).1 (reader.read action).2 := by
  cases action with
  | silence => exact absurd rfl h
  | peek => exact strode_of_strides Finding.impulse rfl Reads.strides_peek reader
  | impulse => exact strode_of_strides Finding.impulse rfl Reads.strides_impulse reader
  | sync => exact strode_of_strides Finding.count rfl Reads.orderly_sync.strides reader
  | byte => exact strode_of_strides Finding.byte rfl Reads.orderly_byte.strides reader
  | endOfByte =>
    exact strode_of_strides (fun _ => Finding.marker) rfl Reads.orderly_endOfByte.strides reader
  | framedByte => exact strode_of_strides Finding.byte rfl Reads.orderly_framedByte.strides reader

/-- A silence takes the value ahead. -/
theorem read_silence_cons (position : Nat) (length : UInt16) (rest : List UInt16) :
    read ⟨position, length :: rest⟩ .silence = (.ok (.halfPeriod length), ⟨position + 1, rest⟩) :=
  rfl

/-- At the end of the train there is no silence, and the reader stays. -/
theorem read_silence_nil (position : Nat) :
    read ⟨position, []⟩ .silence = (.error (.malformed position .missingSilence), ⟨position, []⟩) :=
  rfl

theorem read_silence_of_error {error : TapeError} (h : (reader.read .silence).1 = .error error) :
    error = .malformed reader.position .missingSilence ∧ (reader.read .silence).2 = reader := by
  obtain ⟨position, rest⟩ := reader
  cases rest with
  | nil =>
    rw [read_silence_nil] at h ⊢
    cases h
    exact ⟨rfl, rfl⟩
  | cons length rest =>
    rw [read_silence_cons] at h
    cases h

/-- Every error is one of the train, and it names the place where the reader now stands. -/
theorem malformed_of_read_error {action : Read} {error : TapeError}
    (h : (reader.read action).1 = .error error) :
    ∃ defect, error = .malformed (reader.read action).2.position defect := by
  by_cases hsilence : action = .silence
  · subst hsilence
    obtain ⟨rfl, hstays⟩ := read_silence_of_error h
    rw [hstays]
    exact ⟨.missingSilence, rfl⟩
  · exact (strode_read hsilence reader).malformed error h

/-- The values that a step takes off the front of the train. -/
theorem exists_taken (reader : Reader) (action : Read) :
    ∃ taken, reader.rest = taken ++ (reader.read action).2.rest ∧
      (reader.read action).2.position = reader.position + taken.length := by
  by_cases hsilence : action = .silence
  · subst hsilence
    obtain ⟨position, rest⟩ := reader
    cases rest with
    | nil => exact ⟨[], rfl, rfl⟩
    | cons length rest => exact ⟨[length], rfl, rfl⟩
  · obtain ⟨heard, hrest, hposition⟩ := (strode_read hsilence reader).passes
    refine ⟨Impulse.train heard, hrest, ?_⟩
    rw [hposition, Impulse.length_train]

/-- A look ahead stays, and an impulse right after it finds the same. -/
theorem read_peek (reader : Reader) :
    (reader.read .peek).2 = reader ∧
      ((reader.read .peek).2.read .impulse).1 = (reader.read .peek).1 := by
  rcases Reads.peek_impulse_cases reader with ⟨kind, after, hpeek, himpulse⟩ |
    ⟨defect, hpeek, himpulse⟩
  · rw [read_of_ok Finding.impulse rfl hpeek, read_of_ok Finding.impulse rfl himpulse]
    exact ⟨rfl, rfl⟩
  · rw [read_of_error Finding.impulse rfl hpeek, read_of_error Finding.impulse rfl himpulse]
    exact ⟨rfl, rfl⟩

theorem read_impulse_of_error {error : TapeError}
    (h : (reader.read .impulse).1 = .error error) : (reader.read .impulse).2 = reader := by
  rcases Reads.peek_impulse_cases reader with ⟨kind, after, -, himpulse⟩ | ⟨defect, -, himpulse⟩
  · rw [read_of_ok Finding.impulse rfl himpulse] at h
    cases h
  · rw [read_of_error Finding.impulse rfl himpulse]

/-- A framed byte that is read takes thirteen impulses and one more for each bit that is
set. -/
theorem position_of_framedByte {value : UInt8}
    (h : (reader.read .framedByte).1 = .ok (.byte value)) :
    (reader.read .framedByte).2.position = reader.position + (26 + 2 * Bits.ones value) := by
  cases hstep : Reads.framedByte reader with
  | error error after =>
    rw [read_of_error Finding.byte rfl hstep] at h
    cases h
  | ok found after =>
    rw [read_of_ok Finding.byte rfl hstep] at h ⊢
    cases h
    obtain ⟨-, hposition⟩ := Reads.framedByte_eq_ok_iff.1 hstep
    rw [hposition, Impulse.length_frame]
    omega

/-! ## A run -/

/-- What is left to be read is the train from the position of the reader on. -/
structure StandsIn (reader : Reader) (train : List UInt16) : Prop where
  position_le : reader.position ≤ train.length
  rest_eq : reader.rest = train.drop reader.position

theorem standsIn_ofTrain (train : List UInt16) : (ofTrain train).StandsIn train :=
  ⟨Nat.zero_le _, rfl⟩

section StandsIn

variable (h : reader.StandsIn train) (hrest : reader.rest = taken ++ after.rest)
  (hposition : after.position = reader.position + taken.length)

include h hrest hposition

/-- The values that were taken stand in the train between the two places. -/
theorem StandsIn.drop_take_eq : (train.take after.position).drop reader.position = taken := by
  rw [List.drop_take, ← h.rest_eq, hrest, hposition, Nat.add_sub_cancel_left]
  exact List.take_left

theorem StandsIn.of_taken : after.StandsIn train := by
  have hlength := congrArg List.length h.rest_eq
  rw [hrest, List.length_append, List.length_drop] at hlength
  have hle := h.position_le
  refine ⟨by omega, ?_⟩
  rw [hposition, ← List.drop_drop, ← h.rest_eq, hrest, List.drop_left]

end StandsIn

theorem StandsIn.read (h : reader.StandsIn train) (action : Read) :
    (reader.read action).2.StandsIn train := by
  obtain ⟨taken, hrest, hposition⟩ := exists_taken reader action
  exact h.of_taken hrest hposition

theorem standsIn_after (h : reader.StandsIn train) (steps : List Read) :
    (reader.after steps).StandsIn train := by
  induction steps generalizing reader with
  | nil => exact h
  | cons first rest ih => exact ih (h.read first)

theorem position_le_read (reader : Reader) (action : Read) :
    reader.position ≤ (reader.read action).2.position := by
  obtain ⟨taken, -, hposition⟩ := exists_taken reader action
  rw [hposition]
  exact Nat.le_add_right _ _

/-- No step goes back, so no run does. -/
theorem position_le_after (reader : Reader) (steps : List Read) :
    reader.position ≤ (reader.after steps).position := by
  induction steps generalizing reader with
  | nil => exact Nat.le_refl _
  | cons first rest ih =>
    calc
      reader.position ≤ (reader.read first).2.position := position_le_read reader first
      _ ≤ (reader.after (first :: rest)).position := ih (reader.read first).2

theorem after_append (reader : Reader) (steps more : List Read) :
    reader.after (steps ++ more) = (reader.after steps).after more :=
  List.foldl_append

/-- Where a reader stands in any train after any steps, of which some may have failed, and
what one step more does there.  The reader never goes back and stays within the train.  An
error names the place where the step leaves the reader.  A look ahead leaves it where it
is, and an impulse right after it finds the same; a silence or an impulse that fails leaves
it there too.  Between the two places stand whole impulses unless the step is a silence,
and those of its frame if the step finds a framed byte. -/
theorem place_of_run (train : List UInt16) (steps : List Read) (step : Read) :
    let reader := (ofTrain train).after steps
    let answer := (reader.read step).1
    let next := (reader.read step).2
    (reader.position ≤ next.position ∧ next.position ≤ train.length ∧
      ∀ more, reader.position ≤ ((ofTrain train).after (steps ++ more)).position) ∧
    (∀ error, answer = .error error →
      ∃ defect, error = .malformed next.position defect) ∧
    (step = .peek → next = reader ∧ (next.read .impulse).1 = answer) ∧
    (step = .silence ∨ step = .impulse → ∀ error, answer = .error error → next = reader) ∧
    (step ≠ .silence →
      ∃ impulses, (train.take next.position).drop reader.position = Impulse.values impulses ∧
        next.position = reader.position + 2 * impulses.length) ∧
    ∀ value, step = .framedByte → answer = .ok (.byte value) →
      next.position = reader.position + (26 + 2 * Bits.ones value) := by
  intro reader answer next
  have hreader : reader.StandsIn train := standsIn_after (standsIn_ofTrain train) steps
  refine ⟨⟨position_le_read reader step, (hreader.read step).position_le, fun more => ?_⟩,
    fun error => malformed_of_read_error, ?_, ?_, fun hmoves => ?_, ?_⟩
  · rw [after_append]
    exact position_le_after reader more
  · rintro rfl
    exact read_peek reader
  · rintro (rfl | rfl) error herror
    · exact (read_silence_of_error herror).2
    · exact read_impulse_of_error herror
  · obtain ⟨heard, hrest, hposition⟩ := (strode_read hmoves reader).passes
    have htaken : next.position = reader.position + (Impulse.train heard).length := by
      rw [hposition, Impulse.length_train]
    refine ⟨heard, ?_, hposition⟩
    rw [← Impulse.train_eq_values]
    exact hreader.drop_take_eq hrest htaken
  · rintro value rfl hvalue
    exact position_of_framedByte hvalue

/-- A byte fails in the middle of a bit, a silence then takes half of an impulse, and behind
that a framed byte stands up to the end of the train, where no impulse is left. -/
theorem place_of_run_from_within_an_impulse :
    let train := 17400 :: 833 :: 833 :: 1666 :: 1666 :: 833 :: Impulse.train (Impulse.frame 5)
    ∃ first second last,
      first = (ofTrain train).after [.silence] ∧
      second = (ofTrain train).after [.silence, .byte, .silence] ∧
      last = (ofTrain train).after [.silence, .byte, .silence, .framedByte] ∧
      ((first.read .byte).1 = .error (.malformed 5 .halfBit) ∧
        ∃ impulses, (train.take (first.read .byte).2.position).drop first.position =
            Impulse.values impulses ∧
          (first.read .byte).2.position = first.position + 2 * impulses.length) ∧
      ((second.read .framedByte).1 = .ok (.byte 5) ∧
        (second.read .framedByte).2.position = second.position + (26 + 2 * Bits.ones 5)) ∧
      (last.read .impulse).1 = .error (.malformed 36 .truncatedImpulse) ∧
      (∃ defect, TapeError.malformed 36 .truncatedImpulse =
        .malformed (last.read .impulse).2.position defect) ∧
      (last.read .impulse).2 = last ∧ (last.read .peek).2 = last := by
  intro train
  obtain ⟨-, -, -, -, hpairs, -⟩ := place_of_run train [.silence] .byte
  obtain ⟨-, -, -, -, -, hposition⟩ :=
    place_of_run train [.silence, .byte, .silence] .framedByte
  obtain ⟨-, hmalformed, -, hstays, -, -⟩ :=
    place_of_run train [.silence, .byte, .silence, .framedByte] .impulse
  obtain ⟨-, -, hpeek, -, -, -⟩ :=
    place_of_run train [.silence, .byte, .silence, .framedByte] .peek
  have hframe : (((ofTrain train).after [.silence, .byte, .silence]).read .framedByte).1 =
      .ok (.byte 5) := by decide +kernel
  have hend : (((ofTrain train).after [.silence, .byte, .silence, .framedByte]).read .impulse).1 =
      .error (.malformed 36 .truncatedImpulse) := by decide +kernel
  exact ⟨_, _, _, rfl, rfl, rfl, ⟨by decide +kernel, hpairs nofun⟩,
    ⟨hframe, hposition 5 rfl hframe⟩, hend, hmalformed _ hend, hstays (.inr rfl) _ hend,
    (hpeek rfl).1⟩

end Reader

end Cassette.Signal
