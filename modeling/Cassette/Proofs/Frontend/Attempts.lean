import Cassette.Frontend.Session

/-!
# The files that a session tries

Only a frame tries a file, and at most one.  `Session.trials` lists what a run
tries, each file with the answers of its frame.  `Session.loading_cases` says once
what the loading part of a frame can do: nothing is due, the file that is due is
loaded, or it is not.  What is proved about frames is proved from these three cases.
-/

namespace Cassette.Frontend

/-- A file that is tried, and the answers of the machine in that frame. -/
structure Trial where
  file : File
  answers : Answers
  deriving DecidableEq

/-- Whether the file of a trial is loaded. -/
def Trial.succeeds (system : System) (trial : Trial) : Bool :=
  (load system trial.answers trial.file).result.toBool

namespace Session

/-- The session after some time in which nothing was done. -/
def later (session : Session) (time : Nat) : Session :=
  { session with elapsed := session.elapsed + time }

@[simp]
theorem later_config (session : Session) (time : Nat) :
    (session.later time).config = session.config := rfl

@[simp]
theorem later_keys (session : Session) (time : Nat) :
    (session.later time).keys = session.keys := rfl

/-- What a step tries.  The time of a frame has passed before its file is tried. -/
def trial? (session : Session) : Step → Option Trial
  | .frame time answers => (session.later time).due.map (⟨·, answers⟩)
  | .drop _ | .charInput _ | .keyDown _ | .keyUp _ => none

/-- What a run tries, in order. -/
def trials (session : Session) : List Step → List Trial
  | [] => []
  | first :: rest => (session.trial? first).toList ++ (session.step first).1.trials rest

/-- The session once a file was tried, which does not wait any more. -/
def tried (session : Session) : Session :=
  { session with pending := none }

/-- The session once the bytes that a file left are queued, and the input after
them. -/
def typeAll (session : Session) (text : List UInt8) : Session :=
  typeInput { session with keys := session.keys.putBytes text }

/-- What the loading part of a frame can end in, from the session after the time of
the frame. -/
inductive Loading (session : Session) (answers : Answers) :
    Session × List Effect → Prop
  /-- No file is due. -/
  | idle (hdue : session.due = none) : Loading session answers (session, [])
  /-- The file is loaded and leaves some bytes to be typed before the input. -/
  | loaded {file : File} {outputs : List Effect} {text : List UInt8}
      (hdue : session.due = some file)
      (hload : load session.config.system answers file = ⟨outputs, .ok text⟩) :
      Loading session answers
        (session.tried.typeAll text, outputs ++ session.success)
  /-- The file is not loaded. -/
  | failed {file : File} {outputs : List Effect} {error : LoadError}
      (hdue : session.due = some file)
      (hload : load session.config.system answers file = ⟨outputs, .error error⟩) :
      Loading session answers
        (session.tried, outputs ++ [.log (.loadFailed file.name error), .flashError])

theorem attempt_of_ok {session : Session} {answers : Answers} {file : File}
    {outputs : List Effect} {text : List UInt8}
    (hload : load session.config.system answers file = ⟨outputs, .ok text⟩) :
    session.attempt answers file =
      (session.tried.typeAll text, outputs ++ session.success) := by
  simp only [attempt, hload]
  rfl

theorem attempt_of_error {session : Session} {answers : Answers} {file : File}
    {outputs : List Effect} {error : LoadError}
    (hload : load session.config.system answers file = ⟨outputs, .error error⟩) :
    session.attempt answers file =
      (session.tried, outputs ++ [.log (.loadFailed file.name error), .flashError]) := by
  simp only [attempt, hload]
  rfl

theorem loading_cases (session : Session) (answers : Answers) :
    Loading session answers (session.loadPending answers) := by
  unfold loadPending
  cases hdue : session.due with
  | none => exact .idle hdue
  | some file =>
    show Loading session answers (session.attempt answers file)
    cases hload : load session.config.system answers file with
    | mk outputs result =>
      cases result with
      | ok text =>
        rw [attempt_of_ok hload]
        exact .loaded hdue hload
      | error error =>
        rw [attempt_of_error hload]
        exact .failed hdue hload

/-- A frame lets its time pass, tries the file that is due and presses a key. -/
theorem frame_eq (session : Session) (time : Nat) (answers : Answers) :
    session.frame time answers =
      ((((session.later time).loadPending answers).1.typeKey time).1,
        ((session.later time).loadPending answers).2 ++
          (((session.later time).loadPending answers).1.typeKey time).2) := rfl

theorem loadPending_config (session : Session) (answers : Answers) :
    (session.loadPending answers).1.config = session.config := by
  have hcases := loading_cases session answers
  generalize session.loadPending answers = after at hcases ⊢
  cases hcases with
  | idle hdue => rfl
  | loaded hdue hload => rfl
  | failed hdue hload => rfl

/-- Nothing that happens in a session changes how it was set up. -/
@[simp]
theorem step_config (session : Session) (step : Step) :
    (session.step step).1.config = session.config := by
  cases step with
  | frame time answers => exact loadPending_config (session.later time) answers
  | drop file => rfl
  | charInput c => rfl
  | keyDown key => rfl
  | keyUp key => rfl

end Session

end Cassette.Frontend
