import Cassette.Signal.Writer

/-!
# Writing with little room

Every step of a writer but the silence writes a list of impulses, one after the
other (`Write.run_eq_impulses`), and several such steps write the concatenation
of their lists (`Write.runAll_eq_impulses`).  What a list of impulses does to a
writer depends on nothing but the room that is left: the list is written if it
fits, and otherwise as many of its impulses as fit are (`impulses_eq`).
-/

namespace Cassette.Signal

namespace Writer

/-- The writer after more impulses. -/
def append (writer : Writer) (impulses : List Impulse) : Writer :=
  ⟨writer.train ++ (Impulse.train impulses).toArray, writer.limit⟩

/-- The number of impulses that still fit. -/
def room (writer : Writer) : Nat :=
  (writer.limit - writer.train.size) / 2

@[simp]
theorem limit_append (writer : Writer) (impulses : List Impulse) :
    (writer.append impulses).limit = writer.limit := rfl

@[simp]
theorem append_nil (writer : Writer) : writer.append [] = writer := by
  simp [append]

theorem append_append (writer : Writer) (front back : List Impulse) :
    (writer.append front).append back = writer.append (front ++ back) := by
  simp [append, Array.append_assoc]

theorem size_append (writer : Writer) (impulses : List Impulse) :
    (writer.append impulses).train.size = writer.train.size + 2 * impulses.length := by
  simp [append, Impulse.length_train]

theorem room_append (writer : Writer) (impulses : List Impulse) :
    (writer.append impulses).room = writer.room - impulses.length := by
  simp only [room, size_append, limit_append]
  omega

end Writer

namespace Writes

theorem impulse_eq (kind : Impulse) (writer : Writer) :
    impulse kind writer =
      if 0 < writer.room then .ok 2 (writer.append [kind])
      else .error (.capacityExceeded writer.limit) writer := by
  obtain ⟨train, limit⟩ := writer
  have hroom : train.size + 2 ≤ limit ↔ 0 < Writer.room ⟨train, limit⟩ := by
    simp only [Writer.room]
    omega
  simp only [impulse, hroom]
  rfl

/-- A list of impulses is written if it fits; otherwise its first impulses fill
the room and the step fails. -/
theorem impulses_eq (written : Nat) (list : List Impulse) (writer : Writer) :
    impulses written list writer =
      if list.length ≤ writer.room then
        .ok (written + 2 * list.length) (writer.append list)
      else
        .error (.capacityExceeded writer.limit) (writer.append (list.take writer.room)) := by
  induction list generalizing written writer with
  | nil => simp [impulses, pure, EStateM.pure]
  | cons first rest ih =>
      change EStateM.bind (impulse first) (fun values => impulses (written + values) rest)
        writer = _
      rw [EStateM.bind, impulse_eq]
      by_cases hroom : 0 < writer.room
      -- One impulse is written, and the rest finds the room less by one.
      · rw [if_pos hroom]
        show impulses (written + 2) rest (writer.append [first]) = _
        rw [ih, Writer.room_append, Writer.append_append, Writer.append_append,
          Writer.limit_append]
        have hlength : rest.length ≤ writer.room - [first].length ↔
            (first :: rest).length ≤ writer.room := by
          simp only [List.length_cons, List.length_nil]
          omega
        have htake : [first] ++ rest.take (writer.room - [first].length) =
            (first :: rest).take writer.room := by
          obtain ⟨room, hsucc⟩ := Nat.exists_eq_succ_of_ne_zero (Nat.pos_iff_ne_zero.1 hroom)
          rw [hsucc]
          rfl
        have hcount : written + 2 + 2 * rest.length = written + 2 * (first :: rest).length := by
          simp only [List.length_cons]
          omega
        simp only [hlength, htake, hcount]
        rfl
      -- Without room nothing is written, not even a part of the first impulse.
      · have hlength : ¬(first :: rest).length ≤ writer.room := by
          simp only [List.length_cons]
          omega
        have hzero : writer.room = 0 := by omega
        rw [if_neg hroom, if_neg hlength, hzero, List.take_zero, Writer.append_nil]

theorem impulses_append (written : Nat) (front back : List Impulse) :
    impulses written (front ++ back) =
      (do impulses (← impulses written front) back) := by
  induction front generalizing written with
  | nil => simp [impulses]
  | cons first rest ih => simp [impulses, ih]

/-- What was written before is only counted. -/
theorem impulses_add (before written : Nat) (list : List Impulse) :
    impulses (before + written) list =
      (do pure (before + (← impulses written list))) := by
  induction list generalizing written with
  | nil => simp [impulses]
  | cons first rest ih => simp [impulses, Nat.add_assoc, ih]

end Writes

namespace Write

/-- The impulses that a step writes.  A silence is not made of impulses. -/
def impulses : Write → List Impulse
  | .silence _ => []
  | .impulse kind => [kind]
  | .sync count => List.replicate count .short
  | .endOfByte => Impulse.endOfByte
  | .byte value => Impulse.ofByte value
  | .framedByte value => Impulse.frame value

/-- The step writes a single half-period. -/
def IsSilence (step : Write) : Prop :=
  ∃ length, step = .silence length

theorem run_eq_impulses {step : Write} (h : ¬step.IsSilence) :
    step.run = Writes.impulses 0 step.impulses := by
  cases step with
  | silence length => exact absurd ⟨length, rfl⟩ h
  | impulse kind => simp [run, impulses, Writes.impulses]
  | sync count => exact Writes.shorts_eq_impulses 0 count
  | endOfByte => rfl
  | byte value => rfl
  | framedByte value =>
      -- The byte and its marker are counted apart and added up.
      rw [impulses, Impulse.frame, Writes.impulses_append]
      simp only [run, Writes.framedByte, Writes.byte, Writes.endOfByte]
      congr 1
      funext bits
      exact (Writes.impulses_add bits 0 Impulse.endOfByte).symm

theorem runAll_cons_of_ok {written values : Nat} {first : Write} {rest : List Write}
    {writer between : Writer} (h : first.run writer = .ok values between) :
    runAll written (first :: rest) writer = runAll (written + values) rest between := by
  change EStateM.bind first.run _ writer = _
  rw [EStateM.bind, h]

/-- Steps in a row write their impulses in a row. -/
theorem runAll_eq_impulses {steps : List Write} (h : ∀ step ∈ steps, ¬step.IsSilence)
    (written : Nat) :
    runAll written steps = Writes.impulses written (steps.flatMap impulses) := by
  induction steps generalizing written with
  | nil => rfl
  | cons first rest ih =>
      have hadd := Writes.impulses_add written 0 first.impulses
      rw [Nat.add_zero] at hadd
      rw [List.flatMap_cons, Writes.impulses_append, hadd]
      simp only [runAll, bind_assoc, pure_bind]
      rw [run_eq_impulses (h first List.mem_cons_self)]
      congr 1
      funext values
      exact ih (fun step hstep => h step (List.mem_cons_of_mem first hstep)) _

end Write

end Cassette.Signal
