import Cassette.Proofs.Signal.Passage

/-!
# How a step of a reader ends

A step hears one impulse after the other.  `Ending` lists the three ways in
which it can end: it has its answer, or no impulse stands ahead where it wants
one more, or the impulse that it heard last is out of place.  In the last two
cases the step was still `Open` before the place of the error: some impulses
would have brought it to an answer.  A step for which this holds of every train
is `Orderly`.

Steps made one after the other are orderly if each of them is
(`Orderly.bind`), so only the loops and the places where a step judges an
impulse need an argument of their own.  The last step of a tape reads to the
end of the train and answers nowhere else; the parameter `stops` says where a
step may answer and is `Anywhere` for all others.
-/

namespace Cassette.Signal

/-- The defects of an impulse that is out of place. -/
def Defect.IsMisplacement : Defect → Prop
  | .halfBit | .badEndOfByte | .shortSynchronization => True
  | .missingSilence | .truncatedImpulse | .unknownImpulse => False

namespace Reads

open Reader

variable {α β : Type} {stops : Reader → Prop} {reader between after : Reader}

/-- No matter what comes next. -/
def Anywhere (_ : Reader) : Prop := True

/-- Nothing is left of the train. -/
def AtEnd (reader : Reader) : Prop := reader.rest = []

/-- Once exactly these impulses were heard the step answers, wherever they
stand. -/
def Answers (stops : Reader → Prop) (step : Reads α) (heard : List Impulse) (answer : α) : Prop :=
  ∀ ⦃reader after : Reader⦄, reader.Passes heard after → stops after →
    step reader = .ok answer after

/-- Once exactly these impulses were heard the step gives up, wherever they
stand. -/
def Refuses (step : Reads α) (heard : List Impulse) (defect : Defect) : Prop :=
  ∀ ⦃reader after : Reader⦄, reader.Passes heard after →
    step reader = .error (.malformed after.position defect) after

/-- After these impulses the step looks at what comes next, and fails with the
look ahead. -/
def Awaits (step : Reads α) (heard : List Impulse) : Prop :=
  ∀ ⦃reader after : Reader⦄ ⦃error : TapeError⦄, reader.Passes heard after →
    after.rest ≠ [] → peek after = .error error after → step reader = .error error after

/-- After these impulses the step wants another one, and there are impulses
that lead it to an answer. -/
structure Open (stops : Reader → Prop) (step : Reads α) (heard : List Impulse) : Prop where
  awaits : Awaits step heard
  viable : ∃ more answer, Answers stops step (heard ++ more) answer

/-- The three ways in which a step ends. -/
inductive Ending (stops : Reader → Prop) (step : Reads α) (reader : Reader) : Prop where
  | answered {heard : List Impulse} {after : Reader} {answer : α}
      (passes : reader.Passes heard after) (stopped : stops after)
      (answers : Answers stops step heard answer)
  | jammed {heard : List Impulse} {after : Reader} {error : TapeError}
      (passes : reader.Passes heard after) (peeks : peek after = .error error after)
      (fails : step reader = .error error after) (wanted : Open stops step heard)
  | refused {heard : List Impulse} {kind : Impulse} {after : Reader} {defect : Defect}
      (passes : reader.Passes (heard ++ [kind]) after) (misplaced : defect.IsMisplacement)
      (refuses : Refuses step (heard ++ [kind]) defect) (wanted : Open stops step heard)

/-- The step ends in one of the three ways on every train. -/
def Orderly (stops : Reader → Prop) (step : Reads α) : Prop :=
  ∀ reader, Ending stops step reader

/-! ## Steps one after the other -/

theorem bind_of_ok {step : Reads α} {next : α → Reads β} {found : α}
    (h : step reader = .ok found between) : (step >>= next) reader = next found between := by
  change EStateM.bind step next reader = _
  rw [EStateM.bind, h]

theorem bind_of_error {step : Reads α} {next : α → Reads β} {error : TapeError}
    (h : step reader = .error error after) : (step >>= next) reader = .error error after := by
  change EStateM.bind step next reader = _
  rw [EStateM.bind, h]

/-- `step` goes on as `next` once these impulses were heard. -/
def Continues (step : Reads α) (front : List Impulse) (next : Reads α) : Prop :=
  ∀ ⦃reader between : Reader⦄, reader.Passes front between → step reader = next between

theorem Answers.continues {step : Reads α} {next : α → Reads β} {front : List Impulse}
    {found : α} (h : Answers Anywhere step front found) :
    Continues (step >>= next) front (next found) :=
  fun _ _ passes => bind_of_ok (h passes trivial)

section Continues

variable {step next : Reads α} {front : List Impulse}

theorem Answers.prepend (hstep : Continues step front next) {heard : List Impulse} {answer : α}
    (h : Answers stops next heard answer) : Answers stops step (front ++ heard) answer := by
  intro reader after passes stopped
  obtain ⟨between, hfront, hheard⟩ := passes_append.1 passes
  rw [hstep hfront]
  exact h hheard stopped

theorem Refuses.prepend (hstep : Continues step front next) {heard : List Impulse}
    {defect : Defect} (h : Refuses next heard defect) : Refuses step (front ++ heard) defect := by
  intro reader after passes
  obtain ⟨between, hfront, hheard⟩ := passes_append.1 passes
  rw [hstep hfront]
  exact h hheard

theorem Open.prepend (hstep : Continues step front next) {heard : List Impulse}
    (h : Open stops next heard) : Open stops step (front ++ heard) where
  awaits := by
    intro reader after error passes hrest hpeek
    obtain ⟨between, hfront, hheard⟩ := passes_append.1 passes
    rw [hstep hfront]
    exact h.awaits hheard hrest hpeek
  viable := by
    obtain ⟨more, answer, hanswers⟩ := h.viable
    refine ⟨more, answer, ?_⟩
    rw [List.append_assoc]
    exact hanswers.prepend hstep

/-- The ending of what follows is the ending of the whole. -/
theorem Ending.prepend (hstep : Continues step front next) (passes : reader.Passes front between)
    (h : Ending stops next between) : Ending stops step reader := by
  cases h with
  | answered hpasses stopped answers =>
      exact .answered (passes_append.2 ⟨_, passes, hpasses⟩) stopped (answers.prepend hstep)
  | jammed hpasses peeks fails wanted =>
      refine .jammed (passes_append.2 ⟨_, passes, hpasses⟩) peeks ?_ (wanted.prepend hstep)
      rw [hstep passes]
      exact fails
  | refused hpasses misplaced refuses wanted =>
      have hpasses' := passes_append.2 ⟨_, passes, hpasses⟩
      have refuses' := refuses.prepend hstep
      rw [← List.append_assoc] at hpasses' refuses'
      exact .refused hpasses' misplaced refuses' (wanted.prepend hstep)

end Continues

theorem Open.bind {step : Reads α} {next : α → Reads β} {heard : List Impulse}
    (h : Open Anywhere step heard)
    (hnext : ∀ found, ∃ more answer, Answers stops (next found) more answer) :
    Open stops (step >>= next) heard where
  awaits := fun _ _ _ passes hrest hpeek => bind_of_error (h.awaits passes hrest hpeek)
  viable := by
    obtain ⟨front, found, hfound⟩ := h.viable
    obtain ⟨back, answer, hanswer⟩ := hnext found
    refine ⟨front ++ back, answer, ?_⟩
    rw [← List.append_assoc]
    exact hanswer.prepend hfound.continues

/-- An orderly step can be brought to an answer. -/
theorem Orderly.completable {step : Reads α} (h : Orderly stops step) :
    ∃ heard answer, Answers stops step heard answer := by
  cases h (.ofTrain []) with
  | answered _ _ answers => exact ⟨_, _, answers⟩
  | jammed _ _ _ wanted =>
      obtain ⟨more, answer, answers⟩ := wanted.viable
      exact ⟨_, answer, answers⟩
  | refused _ _ _ wanted =>
      obtain ⟨more, answer, answers⟩ := wanted.viable
      exact ⟨_, answer, answers⟩

theorem answers_pure (answer : α) : Answers Anywhere (pure answer : Reads α) [] answer := by
  intro reader after passes _
  obtain rfl := passes_nil.1 passes
  rfl

theorem orderly_pure (answer : α) : Orderly Anywhere (pure answer : Reads α) :=
  fun _ => .answered (passes_nil.2 rfl) trivial (answers_pure answer)

/-- Steps one after the other are orderly if each of them is. -/
theorem Orderly.bind {step : Reads α} {next : α → Reads β} (h : Orderly Anywhere step)
    (hnext : ∀ found, Orderly stops (next found)) : Orderly stops (step >>= next) := by
  intro reader
  cases h reader with
  | answered passes _ answers => exact (hnext _ _).prepend answers.continues passes
  -- Before its answer the first step decides how the whole ends.
  | jammed passes peeks fails wanted =>
      exact .jammed passes peeks (bind_of_error fails)
        (wanted.bind fun found => (hnext found).completable)
  | refused passes misplaced refuses wanted =>
      exact .refused passes misplaced (fun _ _ passes => bind_of_error (refuses passes))
        (wanted.bind fun found => (hnext found).completable)

theorem Answers.map {step : Reads α} (f : α → β) {heard : List Impulse} {answer : α}
    (h : Answers stops step heard answer) :
    Answers stops (step >>= fun found => pure (f found)) heard (f answer) :=
  fun _ _ passes stopped => bind_of_ok (h passes stopped)

/-- Renaming the answer of a step keeps it orderly.  `Orderly.bind` does not say
this of a step that answers at the end of the train only. -/
theorem Orderly.map {step : Reads α} (h : Orderly stops step) (f : α → β) :
    Orderly stops (step >>= fun found => pure (f found)) := by
  have hopen {heard : List Impulse} (wanted : Open stops step heard) :
      Open stops (step >>= fun found => pure (f found)) heard := by
    obtain ⟨awaits, more, answer, answers⟩ := wanted
    exact ⟨fun _ _ _ passes hrest hpeek => bind_of_error (awaits passes hrest hpeek),
      more, f answer, answers.map f⟩
  intro reader
  cases h reader with
  | answered passes stopped answers => exact .answered passes stopped (answers.map f)
  | jammed passes peeks fails wanted =>
      exact .jammed passes peeks (bind_of_error fails) (hopen wanted)
  | refused passes misplaced refuses wanted =>
      exact .refused passes misplaced (fun _ _ passes => bind_of_error (refuses passes))
        (hopen wanted)

/-! ## A single impulse -/

theorem answers_impulse (kind : Impulse) : Answers Anywhere impulse [kind] kind :=
  fun _ _ passes _ => impulse_eq_ok_iff_passes.2 passes

theorem peek_error_stays {error : TapeError} (h : peek reader = .error error after) :
    after = reader := by
  unfold peek at h
  split at h
  · split at h
    · cases h
    · cases h
      rfl
  · cases h
    rfl

theorem peek_of_noPair {position : Nat} {first second : UInt16} {more : List UInt16}
    (h : Impulse.ofPair? first second = none) :
    peek ⟨position, first :: second :: more⟩ =
      .error (.malformed position .unknownImpulse) ⟨position, first :: second :: more⟩ := by
  simp only [peek, h]
  rfl

/-- A look ahead fails where fewer than two values are left, or where the next
two are no impulse. -/
theorem peek_eq_error_iff {position : Nat} {tail : List UInt16} {error : TapeError} :
    peek ⟨position, tail⟩ = .error error ⟨position, tail⟩ ↔
      (tail.length ≤ 1 ∧ error = .malformed position .truncatedImpulse) ∨
      ∃ first second more, tail = first :: second :: more ∧
        Impulse.ofPair? first second = none ∧ error = .malformed position .unknownImpulse := by
  match tail with
  | [] => simp [peek, malformed, eq_comm]
  | [_] => simp [peek, malformed, eq_comm]
  | first :: second :: more =>
      cases hpair : Impulse.ofPair? first second with
      | some kind => simp [peek, hpair]
      | none =>
          rw [peek_of_noPair hpair]
          constructor
          · intro h
            cases h
            exact .inr ⟨first, second, more, rfl, hpair, rfl⟩
          · rintro (⟨hlength, _⟩ | ⟨_, _, _, _, _, rfl⟩)
            · simp at hlength
            · rfl

theorem impulse_of_peek_error {error : TapeError} (h : peek reader = .error error after) :
    impulse reader = .error error reader := by
  rw [impulse, h]

/-- An impulse is there, or the look ahead fails. -/
theorem impulse_cases (reader : Reader) :
    (∃ kind between, impulse reader = .ok kind between) ∨
      ∃ error, peek reader = .error error reader := by
  cases h : peek reader with
  | ok kind between =>
      left
      exact ⟨kind, _, by rw [impulse, h]⟩
  | error error after =>
      right
      exact ⟨error, by rw [peek_error_stays h]⟩

/-- A step that hears an impulse and goes on by its kind is orderly at a train
if it either goes on as an orderly step or finds the impulse out of place. -/
theorem Ending.impulse_bind {next : Impulse → Reads α}
    (hviable : ∃ more answer, Answers stops (impulse >>= next) more answer)
    (hnext : ∀ kind between, Ending stops (next kind) between ∨
      ∃ defect : Defect, defect.IsMisplacement ∧ next kind = malformed defect) :
    Ending stops (impulse >>= next) reader := by
  have hopen : Open stops (impulse >>= next) [] := by
    refine ⟨?_, hviable⟩
    intro reader after error passes _ hpeek
    obtain rfl := passes_nil.1 passes
    exact bind_of_error (impulse_of_peek_error hpeek)
  -- Without an impulse ahead the step is open at once; otherwise `next` decides.
  rcases impulse_cases reader with ⟨kind, between, hkind⟩ | ⟨error, herror⟩
  · have passes := impulse_eq_ok_iff_passes.1 hkind
    rcases hnext kind between with hending | ⟨defect, hmisplaced, hmalformed⟩
    · exact hending.prepend (answers_impulse kind).continues passes
    · have hrefuses : Refuses (impulse >>= next) [kind] defect := by
        intro reader after passes
        rw [bind_of_ok (impulse_eq_ok_iff_passes.2 passes), hmalformed]
        rfl
      rw [← List.nil_append [kind]] at passes hrefuses
      exact .refused passes hmisplaced hrefuses hopen
  · exact .jammed (passes_nil.2 rfl) herror
      (bind_of_error (impulse_of_peek_error herror)) hopen

/-! ## The steps of a reader -/

theorem orderly_bit : Orderly Anywhere bit := by
  intro reader
  unfold bit
  refine Ending.impulse_bind ⟨[.long], false, (answers_pure false).prepend
    (answers_impulse .long).continues⟩ fun kind between => ?_
  left
  cases kind with
  | long => exact orderly_pure false between
  | short =>
      -- Only behind the first half of a bit 1 can an impulse be out of place.
      refine Ending.impulse_bind ⟨[.short], true, (answers_pure true).prepend
        (answers_impulse .short).continues⟩ fun kind last => ?_
      cases kind with
      | short => exact .inl (orderly_pure true last)
      | long => exact .inr ⟨.halfBit, trivial, rfl⟩

theorem orderly_marker (expected : List Impulse) : Orderly Anywhere (marker expected) := by
  induction expected with
  | nil => exact orderly_pure ()
  | cons first rest ih =>
      intro reader
      refine Ending.impulse_bind ⟨first :: rest, (), fun _ _ passes _ =>
        marker_eq_ok_iff.2 passes⟩ fun kind between => ?_
      by_cases hkind : kind = first
      · left
        rw [if_pos hkind]
        exact ih between
      · right
        exact ⟨.badEndOfByte, trivial, if_neg hkind⟩

theorem Orderly.repeated {step : Reads α} (h : Orderly Anywhere step) (count : Nat) :
    Orderly Anywhere (repeated step count) := by
  induction count with
  | zero => exact orderly_pure []
  | succ count ih => exact h.bind fun first => ih.bind fun rest => orderly_pure (first :: rest)

theorem orderly_byte : Orderly Anywhere byte := by
  have hbits : Orderly Anywhere (bits 8) := by
    rw [bits_eq_repeated]
    exact orderly_bit.repeated 8
  exact hbits.bind fun digits => orderly_pure (Bits.toByte digits)

theorem orderly_endOfByte : Orderly Anywhere endOfByte :=
  orderly_marker Impulse.endOfByte

theorem orderly_framedByte : Orderly Anywhere framedByte :=
  orderly_byte.bind fun value => orderly_endOfByte.bind fun _ => orderly_pure value

theorem orderly_framedBytes (count : Nat) : Orderly Anywhere (framedBytes count) := by
  rw [framedBytes_eq_repeated]
  exact orderly_framedByte.repeated count

/-- Short impulses go on until a long one or until no impulse is ahead. -/
theorem exists_shortRun (reader : Reader) :
    ∃ run between, reader.Passes (List.replicate run .short) between ∧
      ((∃ after, between.Passes [.long] after) ∨
        ∃ error, peek between = .error error between) := by
  rcases impulse_cases reader with ⟨kind, between, hkind⟩ | ⟨error, herror⟩
  · have hlength := length_rest_of_impulse hkind
    have passes := impulse_eq_ok_iff_passes.1 hkind
    cases kind with
    | long => exact ⟨0, reader, passes_nil.2 rfl, .inl ⟨between, passes⟩⟩
    | short =>
        obtain ⟨run, last, hrun, hnext⟩ := exists_shortRun between
        exact ⟨run + 1, last, passes_cons.2 ⟨between, passes, hrun⟩, hnext⟩
  · exact ⟨0, reader, passes_nil.2 rfl, .inr ⟨error, herror⟩⟩
termination_by reader.rest.length

theorem sync_of_peek_error {run : Nat} {error : TapeError}
    (passes : reader.Passes (List.replicate run .short) after)
    (hpeek : peek after = .error error after) : sync reader = .error error after := by
  refine bind_of_error ?_
  rw [shortRun_of_passes passes]
  exact shortRun_of_error (impulse_of_peek_error hpeek)

/-- Any number of short impulses can still become a synchronization run. -/
theorem open_sync (run : Nat) : Open Anywhere sync (List.replicate run .short) where
  awaits := fun _ _ _ passes _ hpeek => sync_of_peek_error passes hpeek
  viable := ⟨Impulse.endOfByte, run, fun _ _ passes _ => sync_eq_ok_iff.2 passes⟩

theorem refuses_sync {run : Nat} (hrun : run < 4) :
    Refuses sync (List.replicate run .short ++ [.long]) .shortSynchronization := by
  intro reader after passes
  have hcount : shortRun 0 reader = .ok run after :=
    shortRun_eq_ok_iff.2 ⟨run, by omega, passes⟩
  rw [sync, bind_of_ok hcount, if_pos hrun]
  rfl

theorem orderly_sync : Orderly Anywhere sync := by
  intro reader
  obtain ⟨run, between, hrun, hnext⟩ := exists_shortRun reader
  rcases hnext with ⟨after, hlong⟩ | ⟨error, herror⟩
  · have passes := passes_append.2 ⟨between, hrun, hlong⟩
    -- A closed run of fewer than four has no marker to end in.
    by_cases hfour : run < 4
    · have hmisplaced : Defect.shortSynchronization.IsMisplacement := trivial
      exact .refused passes hmisplaced (refuses_sync hfour) (open_sync run)
    · obtain ⟨count, rfl⟩ : ∃ count, run = count + 4 := ⟨run - 4, by omega⟩
      rw [← Impulse.synchronization_eq] at passes
      exact .answered passes trivial fun _ _ passes _ => sync_eq_ok_iff.2 passes
  · exact .jammed hrun herror (sync_of_peek_error hrun herror) (open_sync run)

/-! ## The data up to the end of the train -/

theorem rest_ne_nil_of_passes {heard : List Impulse} (passes : reader.Passes heard after)
    (h : after.rest ≠ []) : reader.rest ≠ [] := by
  rw [passes.1]
  exact List.append_ne_nil_of_right_ne_nil _ h

theorem answers_framedBytesToEnd (read bytes : List UInt8) :
    Answers AtEnd (framedBytesToEnd read) (Impulse.frames bytes) (read.reverse ++ bytes) :=
  fun _ _ passes stopped => framedBytesToEnd_eq_ok_iff.2 ⟨bytes, rfl, passes, stopped⟩

/-- Inside of a frame the data can still be brought to an end. -/
theorem Open.framedBytesToEnd {heard : List Impulse} (h : Open Anywhere framedByte heard)
    (read : List UInt8) : Open AtEnd (framedBytesToEnd read) heard where
  awaits := fun _ _ _ passes hrest hpeek => framedBytesToEnd_of_error
    (rest_ne_nil_of_passes passes hrest) (h.awaits passes hrest hpeek)
  viable := by
    obtain ⟨more, value, hvalue⟩ := h.viable
    refine ⟨more, (value :: read).reverse, ?_⟩
    intro reader after passes stopped
    rw [framedBytesToEnd_of_ok (hvalue passes trivial), framedBytesToEnd_of_end stopped]

/-- Reading the data is orderly, but its answer takes the end of the train. -/
theorem orderly_framedBytesToEnd (read : List UInt8) :
    Orderly AtEnd (framedBytesToEnd read) := by
  intro reader
  by_cases hend : reader.rest = []
  · exact .answered (passes_nil.2 rfl) hend (answers_framedBytesToEnd read [])
  -- A whole frame leaves a shorter train; within a frame the loop ends as its byte does.
  · cases orderly_framedByte reader with
    | @answered _ after value passes _ answers =>
        have hlength := length_rest_of_framedByte (answers passes trivial)
        exact (orderly_framedBytesToEnd (value :: read) after).prepend
          (fun _ _ passes => framedBytesToEnd_of_ok (answers passes trivial)) passes
    | jammed passes peeks fails wanted =>
        exact .jammed passes peeks (framedBytesToEnd_of_error hend fails)
          (wanted.framedBytesToEnd read)
    | refused passes misplaced refuses wanted =>
        refine .refused passes misplaced ?_ (wanted.framedBytesToEnd read)
        intro reader after passes
        refine framedBytesToEnd_of_error ?_ (refuses passes)
        -- The impulse out of place shows that the train had not ended.
        rw [passes.1, Impulse.train_append, List.append_assoc]
        exact List.append_ne_nil_of_right_ne_nil _ (List.cons_ne_nil _ _)
termination_by reader => reader.rest.length

end Reads

end Cassette.Signal
