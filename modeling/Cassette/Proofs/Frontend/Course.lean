import Cassette.Proofs.Frontend.Attempts

/-!
# The course of a run

A run answers with the effects of each of its steps.  `Session.before` is the session
that a step finds, so that what a single step does can be said of any place in a run
(`Session.getElem?_effects`).  What holds of all sessions before the steps of a run is
proved by induction on the place, with `Session.before_succ` as the step.
-/

namespace Cassette.Frontend.Session

@[simp]
theorem start_config (config : Config) (file : Option File) :
    (start config file).1.config = config := by
  cases file <;> rfl

theorem run_cons (session : Session) (first : Step) (rest : List Step) :
    session.run (first :: rest) =
      (((session.step first).1.run rest).1,
        (session.step first).2 :: ((session.step first).1.run rest).2) := rfl

/-- The session that the step at an index of a run finds. -/
def before (session : Session) (steps : List Step) (index : Nat) : Session :=
  (session.run (steps.take index)).1

@[simp]
theorem before_zero (session : Session) (steps : List Step) :
    session.before steps 0 = session := rfl

theorem before_succ {steps : List Step} {index : Nat} {step : Step}
    (h : steps[index]? = some step) (session : Session) :
    session.before steps (index + 1) = ((session.before steps index).step step).1 := by
  induction index generalizing session steps with
  | zero =>
    cases steps with
    | nil => cases h
    | cons first rest =>
      cases h
      rfl
  | succ index ih =>
    cases steps with
    | nil => cases h
    | cons first rest => exact ih h (session.step first).1

/-- Behind the last step nothing changes any more. -/
theorem before_succ_of_end {steps : List Step} {index : Nat} (h : steps[index]? = none)
    (session : Session) : session.before steps (index + 1) = session.before steps index := by
  have hlength : steps.length ≤ index := List.getElem?_eq_none_iff.1 h
  rw [before, before, List.take_of_length_le hlength, List.take_of_length_le (by omega)]

@[simp]
theorem before_config (session : Session) (steps : List Step) (index : Nat) :
    (session.before steps index).config = session.config := by
  induction index with
  | zero => rfl
  | succ index ih =>
    cases h : steps[index]? with
    | none => rw [before_succ_of_end h, ih]
    | some step => rw [before_succ h, step_config, ih]

@[simp]
theorem length_effects (session : Session) (steps : List Step) :
    (session.run steps).2.length = steps.length := by
  induction steps generalizing session with
  | nil => rfl
  | cons first rest ih => rw [run_cons, List.length_cons, ih, List.length_cons]

theorem exists_effects (session : Session) {steps : List Step} {index : Nat}
    (h : index < steps.length) : ∃ effects, (session.run steps).2[index]? = some effects :=
  ⟨_, List.getElem?_eq_getElem (by rwa [length_effects])⟩

/-- The effects at a place of a run are those of its step, on the session that the
step finds. -/
theorem getElem?_effects (session : Session) (steps : List Step) (index : Nat) :
    (session.run steps).2[index]? =
      steps[index]?.map fun step => ((session.before steps index).step step).2 := by
  induction steps generalizing session index with
  | nil => rfl
  | cons first rest ih =>
    cases index with
    | zero => rfl
    | succ index => exact ih (session.step first).1 index

theorem exists_step {session : Session} {steps : List Step} {index : Nat}
    {effects : List Effect} (h : (session.run steps).2[index]? = some effects) :
    ∃ step, steps[index]? = some step ∧
      effects = ((session.before steps index).step step).2 := by
  rw [getElem?_effects] at h
  obtain ⟨step, hstep, rfl⟩ := Option.map_eq_some_iff.1 h
  exact ⟨step, hstep, rfl⟩

end Cassette.Frontend.Session
