import Cassette.Proofs.Signal.Room

/-!
# Writing up to the limit

What a writer does with a step is known from the impulses of the step, spelled out here
value by value, and from the room that is left (`Writer.write_within_limit`).  Errors do
not end a run: the next step goes on from what was written.  So the laws are stated of
the writer after any steps at all, and what one step keeps, `Writer.Grows`, is kept by a
run (`Writer.grows_after`).
-/

namespace Cassette.Signal

/-! ## The impulses of a step, spelled out -/

namespace Impulse

/-- The values of some impulses, two for each. -/
def values (impulses : List Impulse) : List UInt16 :=
  impulses.flatMap fun
    | short => [833, 833]
    | long => [1666, 1666]

/-- The eight bits of a byte, the lowest first: two short impulses for a 1 and a long
one for a 0. -/
def bits (byte : UInt8) : List Impulse :=
  (List.range 8).flatMap fun i => if byte.toNat.testBit i then [short, short] else [long]

/-- Four short impulses and a long one. -/
def marker : List Impulse :=
  List.replicate 4 short ++ [long]

theorem train_eq_values (impulses : List Impulse) : train impulses = values impulses := by
  unfold train values
  congr 1
  funext impulse
  cases impulse <;> rfl

theorem ofByte_eq_bits (byte : UInt8) : ofByte byte = bits byte := by
  unfold ofByte bits Bits.ofByte
  rw [List.flatMap_map]
  congr 1
  funext i
  cases byte.toNat.testBit i <;> rfl

end Impulse

namespace Write

/-- All impulses that a step asks for.  A silence asks for none. -/
def spelling : Write → List Impulse
  | .silence _ => []
  | .impulse kind => [kind]
  | .sync count => List.replicate count .short
  | .endOfByte => Impulse.marker
  | .byte value => Impulse.bits value
  | .framedByte value => Impulse.bits value ++ Impulse.marker

theorem impulses_eq_spelling (step : Write) : step.impulses = step.spelling := by
  cases step with
  | silence length => rfl
  | impulse kind => rfl
  | sync count => rfl
  | endOfByte => rfl
  | byte value => exact Impulse.ofByte_eq_bits value
  | framedByte value =>
      rw [impulses, spelling, Impulse.frame, Impulse.ofByte_eq_bits]
      rfl

end Write

namespace Writer

/-! ## One step -/

theorem write_eq {step : Write} (h : ¬step.IsSilence) (writer : Writer) :
    writer.write step =
      if step.spelling.length ≤ writer.room then
        (.ok (2 * step.spelling.length), writer.append step.spelling)
      else
        (.error (.capacityExceeded writer.limit),
          writer.append (step.spelling.take writer.room)) := by
  rw [write, Write.run_eq_impulses h, Writes.impulses_eq, Write.impulses_eq_spelling]
  by_cases hroom : step.spelling.length ≤ writer.room
  · rw [if_pos hroom, if_pos hroom, Nat.zero_add]
  · rw [if_neg hroom, if_neg hroom]

theorem write_silence (length : UInt16) (writer : Writer) :
    writer.write (.silence length) =
      if writer.train.size < writer.limit then
        (.ok 1, ⟨writer.train.push length, writer.limit⟩)
      else (.error (.capacityExceeded writer.limit), writer) := by
  simp only [write, Write.run, Writes.silence]
  by_cases hroom : writer.train.size < writer.limit
  · rw [if_pos hroom, if_pos hroom]
  · rw [if_neg hroom, if_neg hroom]

theorem toList_append (writer : Writer) (impulses : List Impulse) :
    (writer.append impulses).train.toList =
      writer.train.toList ++ Impulse.values impulses := by
  rw [append, Array.toList_append, ← Impulse.train_eq_values]

/-- What a step keeps: the limit, all that was written, and that it fits. -/
structure Grows (writer after : Writer) : Prop where
  limit_eq : after.limit = writer.limit
  isPrefix : writer.train.toList <+: after.train.toList
  fits : writer.train.size ≤ writer.limit → after.train.size ≤ after.limit

theorem Grows.refl (writer : Writer) : Grows writer writer :=
  ⟨rfl, List.prefix_refl _, id⟩

theorem Grows.trans {first second third : Writer} (h : Grows first second)
    (hnext : Grows second third) : Grows first third :=
  ⟨hnext.limit_eq.trans h.limit_eq, h.isPrefix.trans hnext.isPrefix,
    fun hfits => hnext.fits (h.fits hfits)⟩

/-- Impulses for which there is room keep what a step keeps. -/
theorem grows_append {writer : Writer} {impulses : List Impulse}
    (h : impulses.length ≤ writer.room) : Grows writer (writer.append impulses) where
  limit_eq := rfl
  isPrefix := by
    rw [toList_append]
    exact List.prefix_append _ _
  fits := by
    intro hfits
    rw [size_append, limit_append]
    rw [room] at h
    omega

theorem grows_write (writer : Writer) (step : Write) : Grows writer (writer.write step).2 := by
  by_cases hsilence : step.IsSilence
  · obtain ⟨length, rfl⟩ := hsilence
    rw [write_silence]
    split
    · rename_i hless
      refine ⟨rfl, ?_, ?_⟩
      · rw [Array.toList_push]
        exact List.prefix_append _ _
      · intro _
        rw [Array.size_push]
        exact hless
    · exact Grows.refl writer
  · rw [write_eq hsilence]
    split
    · rename_i hroom
      exact grows_append hroom
    · exact grows_append (List.length_take_le _ _)

/-! ## Any number of steps -/

/-- The writer after some steps, whether they fail or not. -/
def after (writer : Writer) (steps : List Write) : Writer :=
  steps.foldl (fun writer step => (writer.write step).2) writer

theorem grows_after (writer : Writer) (steps : List Write) :
    Grows writer (writer.after steps) := by
  induction steps generalizing writer with
  | nil => exact Grows.refl writer
  | cons first rest ih => exact (grows_write writer first).trans (ih (writer.write first).2)

/-- Impulses without enough room fill it up, but for a single value. -/
theorem size_append_take {writer : Writer} {impulses : List Impulse}
    (h : writer.room < impulses.length) :
    writer.limit - (writer.append (impulses.take writer.room)).train.size ≤ 1 := by
  rw [size_append, List.length_take, Nat.min_eq_left (Nat.le_of_lt h), room]
  omega

/-- A writer after any steps, some of which may have failed.  Its train is never longer
than the limit, and what is written stays.  A step that is no silence is written in full
if there is room for its impulses and answers with the number of its values; otherwise
it fails, and as many of its impulses as there is room for are written.  A silence needs
the room of a single value. -/
theorem write_within_limit (limit : Nat) (steps : List Write) :
    let writer := (Writer.empty limit).after steps
    let room := (limit - writer.train.size) / 2
    writer.train.size ≤ limit ∧
    (∀ more, writer.train.toList <+: (writer.after more).train.toList) ∧
    (∀ step, ¬step.IsSilence → step.spelling.length ≤ room →
      (writer.write step).1 = .ok (2 * step.spelling.length) ∧
      (writer.write step).2.train.toList =
        writer.train.toList ++ Impulse.values step.spelling) ∧
    (∀ step, ¬step.IsSilence → room < step.spelling.length →
      (writer.write step).1 = .error (.capacityExceeded limit) ∧
      (writer.write step).2.train.toList =
        writer.train.toList ++ Impulse.values (step.spelling.take room) ∧
      limit - (writer.write step).2.train.size ≤ 1) ∧
    (∀ length, writer.train.size < limit →
      (writer.write (.silence length)).1 = .ok 1 ∧
      (writer.write (.silence length)).2.train.toList = writer.train.toList ++ [length]) ∧
    ∀ length, limit ≤ writer.train.size →
      (writer.write (.silence length)).1 = .error (.capacityExceeded limit) ∧
      (writer.write (.silence length)).2.train = writer.train := by
  intro writer room
  have hgrows : Grows (Writer.empty limit) writer := grows_after (.empty limit) steps
  have hlimit : writer.limit = limit := hgrows.limit_eq
  have hroom : writer.room = room := by rw [Writer.room, hlimit]
  refine ⟨?_, fun more => (grows_after writer more).isPrefix, ?_, ?_, ?_, ?_⟩
  · have hfits := hgrows.fits (Nat.zero_le limit)
    rwa [hlimit] at hfits
  · intro step hsilence hle
    rw [write_eq hsilence, hroom, if_pos hle]
    exact ⟨rfl, toList_append writer step.spelling⟩
  · intro step hsilence hlt
    rw [write_eq hsilence, hroom, if_neg (Nat.not_le.2 hlt), hlimit]
    refine ⟨rfl, toList_append writer (step.spelling.take room), ?_⟩
    have hless : writer.room < step.spelling.length := by rwa [hroom]
    have hleft := size_append_take hless
    rwa [hlimit, hroom] at hleft
  · intro length hlt
    rw [write_silence, hlimit, if_pos hlt]
    exact ⟨rfl, Array.toList_push⟩
  · intro length hle
    rw [write_silence, hlimit, if_neg (Nat.not_lt.2 hle)]
    exact ⟨rfl, rfl⟩

/-- A marker of which two impulses fit, and silences in the one value that is then left
and in none. -/
theorem write_within_limit_of_ten_values :
    let writer := (Writer.empty 10).after [.silence 17400, .sync 2]
    (writer.write (.impulse .long)).1 = .ok 2 ∧
    (writer.write .endOfByte).1 = .error (.capacityExceeded 10) ∧
    (writer.write .endOfByte).2.train.toList = writer.train.toList ++ [833, 833, 833, 833] ∧
    10 - (writer.write .endOfByte).2.train.size ≤ 1 ∧
    ((writer.after [.endOfByte]).write (.silence 7)).1 = .ok 1 ∧
    ((writer.after [.endOfByte, .silence 7]).write (.silence 7)).1 =
      .error (.capacityExceeded 10) := by
  intro writer
  have hmarker : ¬Write.endOfByte.IsSilence := fun ⟨_, h⟩ => nomatch h
  have hlong : ¬(Write.impulse .long).IsSilence := fun ⟨_, h⟩ => nomatch h
  obtain ⟨-, -, hfits, hfails, -, -⟩ := write_within_limit 10 [.silence 17400, .sync 2]
  obtain ⟨-, -, -, -, hroom, -⟩ :=
    write_within_limit 10 [.silence 17400, .sync 2, .endOfByte]
  obtain ⟨-, -, -, -, -, hfull⟩ :=
    write_within_limit 10 [.silence 17400, .sync 2, .endOfByte, .silence 7]
  obtain ⟨herror, htrain, hleft⟩ := hfails .endOfByte hmarker (by decide)
  exact ⟨(hfits (.impulse .long) hlong (by decide)).1, herror, htrain, hleft,
    (hroom 7 (by decide)).1, (hfull 7 (by decide)).1⟩

end Writer

end Cassette.Signal
