import Cassette.Proofs.Frontend.Outputs

/-!
# What a failed load leaves behind

A load fails for a few reasons that are known by the kind of its file: no image in the
archive, no tape for the image, or a machine that refuses (`Trial.Fails`).  After a load
that failed the session is what it were if no file had waited, so that nothing that
happens later depends on it (`Session.frame_of_error`).  How the end of an attempt is
shown to the user is counted in `Session.frame_of_attempt`.
-/

namespace Cassette.Frontend

/-- An image does not end up in the drive: it has no tape, or the machine refuses it. -/
def Rejected (answers : Answers) (image : List UInt8) : Prop :=
  (∃ error, Tape.encode image = .error error) ∨ answers.takesTape = false

/-- The reasons for which a load fails.  A listing is always typed. -/
def Trial.Fails (system : System) (trial : Trial) : Prop :=
  match trial.file.kind system with
  | .image => Rejected trial.answers trial.file.data
  | .archive => (∃ error, (Archive.image trial.file.data).result = .error error) ∨
      ∃ image, (Archive.image trial.file.data).result = .ok image ∧
        Rejected trial.answers image
  | .listing => False
  | .program => trial.answers.takesQuickload = false

theorem insert_eq_error_iff (answers : Answers) (image : List UInt8) :
    (∃ error, (insert answers image).result = .error error) ↔ Rejected answers image := by
  unfold Rejected
  cases hencode : Tape.encode image with
  | error error =>
    rw [insert_of_error hencode]
    exact ⟨fun _ => .inl ⟨error, rfl⟩, fun _ => ⟨_, rfl⟩⟩
  | ok tape =>
    rw [insert_of_ok hencode]
    cases answers.takesTape with
    | false => exact ⟨fun _ => .inr rfl, fun _ => ⟨_, rfl⟩⟩
    | true =>
      constructor
      · rintro ⟨_, h⟩
        cases h
      · rintro (⟨_, h⟩ | h) <;> cases h

theorem load_eq_error_iff (system : System) (trial : Trial) :
    (∃ error, (load system trial.answers trial.file).result = .error error) ↔
      trial.Fails system := by
  unfold load Trial.Fails
  cases trial.file.kind system with
  | image => exact insert_eq_error_iff trial.answers trial.file.data
  | archive =>
    cases Archive.image trial.file.data with
    | mk records result =>
      cases result with
      | error error => exact ⟨fun _ => .inl ⟨error, rfl⟩, fun _ => ⟨_, rfl⟩⟩
      | ok image =>
        refine (insert_eq_error_iff trial.answers image).trans ⟨?_, ?_⟩
        · exact fun h => .inr ⟨image, rfl, h⟩
        · rintro (⟨_, h⟩ | ⟨_, h, hrejected⟩)
          · cases h
          · cases h
            exact hrejected
  | listing =>
    constructor
    · rintro ⟨_, h⟩
      cases h
    · exact False.elim
  | program =>
    show (∃ error, (quickload trial.answers trial.file.data).result = .error error) ↔ _
    unfold quickload
    cases trial.answers.takesQuickload with
    | false => exact ⟨fun _ => rfl, fun _ => ⟨_, rfl⟩⟩
    | true =>
      constructor
      · rintro ⟨_, h⟩
        cases h
      · exact fun h => nomatch h

namespace Session

variable {session : Session} {time : Nat} {answers : Answers} {trial : Trial}

theorem answers_of_trial (htrial : session.trial? (.frame time answers) = some trial) :
    trial.answers = answers := by
  obtain ⟨file, -, rfl⟩ := Option.map_eq_some_iff.1 htrial
  rfl

/-- After a load that failed a frame goes on as if no file had waited. -/
theorem frame_of_error {outputs : List Effect} {error : LoadError}
    (htrial : session.trial? (.frame time answers) = some trial)
    (hload : load (session.later time).config.system answers trial.file =
      ⟨outputs, .error error⟩) :
    (session.frame time answers).1 = (session.tried.frame time answers).1 ∧
      (session.frame time answers).2 =
        ((session.later time).attempt answers trial.file).2 ++
          (session.tried.frame time answers).2 := by
  have htried : session.tried.frame time answers = (session.later time).tried.typeKey time :=
    frame_of_pending_none rfl time answers
  rw [frame_of_trial htrial, htried, attempt_of_error hload]
  exact ⟨rfl, rfl⟩

/-- What is shown of a frame with a trial is what is shown of its attempt. -/
theorem countOf_frame (htrial : session.trial? (.frame time answers) = some trial)
    {purpose : Purpose} (hne : purpose ≠ .key) :
    countOf purpose (session.frame time answers).2 =
      countOf purpose ((session.later time).attempt answers trial.file).2 := by
  rw [frame_of_trial htrial, countOf_append,
    countOf_eq_zero (fun _ hmem => purpose_of_mem_typeKey hmem) hne, Nat.add_zero]

/-- Steps that begin with frames that end in one session go on alike. -/
theorem run_frame_eq {other : Session} {time : Nat} {answers : Answers}
    (h : (session.frame time answers).1 = (other.frame time answers).1) (steps : List Step) :
    ∃ last later,
      session.run (.frame time answers :: steps) =
        (last, (session.frame time answers).2 :: later) ∧
      other.run (.frame time answers :: steps) =
        (last, (other.frame time answers).2 :: later) := by
  refine ⟨((session.frame time answers).1.run steps).1,
    ((session.frame time answers).1.run steps).2, rfl, ?_⟩
  rw [h]
  rfl

/-- A frame in which a load is attempted, in any session.  If the load fails, which is
so for the reasons named, then one failure is shown and no success, and apart from what
the attempt puts out the file might as well not have waited: neither the keys of this
frame nor the session after it nor any later step is different.  If the load succeeds,
no failure is shown, and one success if the frame ends late enough. -/
theorem frame_of_attempt (session : Session) (time : Nat) (answers : Answers) (trial : Trial)
    (htrial : session.trial? (.frame time answers) = some trial) :
    let without : Session := { session with pending := none }
    let after := session.frame time answers
    ((∃ error, (load session.config.system answers trial.file).result = .error error) ↔
      trial.Fails session.config.system) ∧
    (trial.Fails session.config.system →
      countOf .failure after.2 = 1 ∧ countOf .success after.2 = 0 ∧
      after.1.pending = none ∧
      after.1 = (without.frame time answers).1 ∧
      (∃ loading, countOf .key loading = 0 ∧
        after.2 = loading ++ (without.frame time answers).2) ∧
      ∀ steps, ∃ last later,
        session.run (.frame time answers :: steps) = (last, after.2 :: later) ∧
        without.run (.frame time answers :: steps) =
          (last, (without.frame time answers).2 :: later)) ∧
    (¬trial.Fails session.config.system →
      countOf .failure after.2 = 0 ∧
      countOf .success after.2 =
        if session.config.loadDelay + 10 < (session.elapsed + time) / 16667 then 1 else 0) := by
  intro without after
  have hfails := load_eq_error_iff session.config.system trial
  rw [answers_of_trial htrial] at hfails
  have hsuccess : countOf .success after.2 = _ := countOf_frame htrial (by decide)
  have hfailure : countOf .failure after.2 = _ := countOf_frame htrial (by decide)
  refine ⟨hfails, ?_, ?_⟩
  · intro hreason
    obtain ⟨error, herror⟩ := hfails.2 hreason
    have hload : load (session.later time).config.system answers trial.file =
        ⟨_, .error error⟩ := congrArg (Traced.mk _) herror
    obtain ⟨hsame, heffects⟩ := frame_of_error htrial hload
    obtain ⟨hnone, hone⟩ := countOf_attempt_of_error hload
    obtain ⟨-, -, hkeys⟩ := countOf_attempt (session.later time) answers trial.file
    refine ⟨hfailure.trans hone, hsuccess.trans hnone, ?_, hsame, ⟨_, hkeys, heffects⟩,
      run_frame_eq hsame⟩
    rw [hsame, frame_of_pending_none rfl]
    rfl
  · intro hreason
    cases hload : load (session.later time).config.system answers trial.file with
    | mk outputs result =>
      cases result with
      | error error => exact absurd (hfails.1 ⟨error, congrArg Traced.result hload⟩) hreason
      | ok text =>
        obtain ⟨hshown, hnone⟩ := countOf_attempt_of_ok hload
        exact ⟨hfailure.trans hnone, hsuccess.trans hshown⟩

/-- A tape that the machine refuses, with a key that waits, and a program that is loaded
twelve frames after the start. -/
theorem frame_of_attempt_of_two_files :
    let tape : Session := ⟨⟨.vg5000v11, 0, 5, some "RUN"⟩, ⟨[0x41], 83335, 0⟩,
      some ⟨"game.K7", List.replicate 32 0⟩, 0⟩
    let program : Session := ⟨⟨.z1013v64, 1, 6, none⟩, ⟨[], 100002, 0⟩,
      some ⟨"prog.z80", [1, 2, 3]⟩, 150000⟩
    Trial.Fails .vg5000 ⟨⟨"game.K7", List.replicate 32 0⟩, ⟨false, true⟩⟩ ∧
    countOf .failure (tape.frame 20000 ⟨false, true⟩).2 = 1 ∧
    (tape.frame 20000 ⟨false, true⟩).1 =
      (({ tape with pending := none } : Session).frame 20000 ⟨false, true⟩).1 ∧
    ¬Trial.Fails .z1013 ⟨⟨"prog.z80", [1, 2, 3]⟩, ⟨false, true⟩⟩ ∧
    countOf .failure (program.frame 50004 ⟨false, true⟩).2 = 0 ∧
    countOf .success (program.frame 50004 ⟨false, true⟩).2 = 1 := by
  intro tape program
  have hfails : Trial.Fails .vg5000 ⟨⟨"game.K7", List.replicate 32 0⟩, ⟨false, true⟩⟩ :=
    .inr rfl
  have hloads : ¬Trial.Fails .z1013 ⟨⟨"prog.z80", [1, 2, 3]⟩, ⟨false, true⟩⟩ :=
    fun h => nomatch h
  obtain ⟨-, hrefused, -⟩ := frame_of_attempt tape 20000 ⟨false, true⟩
    ⟨⟨"game.K7", List.replicate 32 0⟩, ⟨false, true⟩⟩ (by decide)
  obtain ⟨-, -, hloaded⟩ := frame_of_attempt program 50004 ⟨false, true⟩
    ⟨⟨"prog.z80", [1, 2, 3]⟩, ⟨false, true⟩⟩ (by decide)
  obtain ⟨hone, -, -, hsame, -⟩ := hrefused hfails
  obtain ⟨hnone, hshown⟩ := hloaded hloads
  exact ⟨hfails, hone, hsame, hloads, hnone, hshown.trans (if_pos (by decide))⟩

end Session

end Cassette.Frontend
