import Cassette.Proofs.Frontend.Calls

/-!
# Keys of the user beside a session

What the user types goes to the machine and nowhere else.  The keys of the user can be put
between the other steps of a run, or be left out, and the other steps find the same sessions
and put out the same (`Session.host_keys_aside`).

A machine may answer to a tape or a program by all that it was called with before, so the
keys could still come back through its answers.  `Responder` is such a machine, and
`Session.answered` gives the steps of a run the answers of a machine.  The only thing that is
asked of the machine is that keys have no say in its answers (`Responder.IgnoresKeys`).  Two
runs are then compared with the run from which all keys of the user were left out:
`Session.own_answered` does so for the answers and `Session.ownCourse_own` for the rest.
-/

namespace Cassette.Frontend

/-! ## Machines that answer -/

/-- The calls that press and release no keys. -/
def withoutKeys (calls : List Call) : List Call :=
  calls.filter fun call => !call.isKey

@[simp]
theorem withoutKeys_append (calls others : List Call) :
    withoutKeys (calls ++ others) = withoutKeys calls ++ withoutKeys others :=
  List.filter_append _ _

/-- A machine, as far as it answers: whether it takes the tape or the program of a call,
after some calls, and set for the frame as the answers given with it say. -/
abbrev Responder := List Call → Answers → Call → Bool

/-- Keys have no say in the answers of a machine. -/
def Responder.IgnoresKeys (responder : Responder) : Prop :=
  ∀ calls others : List Call, withoutKeys calls = withoutKeys others →
    responder calls = responder others

/-- The answers of a machine in a frame, which count only if the frame hands a file over. -/
def Responder.answers (responder : Responder) (calls : List Call) (given : Answers)
    (offer : Option Call) : Answers :=
  match offer with
  | some offer => ⟨responder calls given offer, responder calls given offer⟩
  | none => given

namespace Session

/-- A step with the answers of a machine that got some calls before. -/
def Step.answered (responder : Responder) (calls : List Call) (session : Session) :
    Step → Step
  | .frame time given => .frame time (responder.answers calls given (session.offer? time))
  | .drop file => .drop file
  | .charInput c => .charInput c
  | .keyDown key => .keyDown key
  | .keyUp key => .keyUp key

/-- The steps of a run with the answers of a machine that got some calls before. -/
def answered (responder : Responder) (calls : List Call) (session : Session) :
    List Step → List Step
  | [] => []
  | first :: rest =>
      let first := first.answered responder calls session
      let (after, effects) := session.step first
      first :: after.answered responder (calls ++ callsOf effects) rest

/-! ## Keys of the user -/

/-- The user types: a character, or a key that goes down or up. -/
def Step.isHost : Step → Bool
  | .charInput _ | .keyDown _ | .keyUp _ => true
  | .frame _ _ | .drop _ => false

/-- The steps that are no keys of the user. -/
def own (steps : List Step) : List Step :=
  steps.filter fun step => !step.isHost

/-- What happens at the steps that are no keys of the user: the session after each and its
effects. -/
def ownCourse (session : Session) : List Step → List (Session × List Effect)
  | [] => []
  | first :: rest =>
      let after := session.step first
      (if first.isHost then [] else [after]) ++ after.1.ownCourse rest

/-- Lists of calls, one for each step: those of the keys of the user are known, and those of
the other steps are taken from a list, in order. -/
def interleave (host : Step → List Call) : List Step → List (List Call) → List (List Call)
  | [], _ => []
  | first :: rest, others =>
      if first.isHost then host first :: interleave host rest others
      else others.headD [] :: interleave host rest others.tail

variable {session : Session} {step : Step}

theorem step_of_isHost (h : step.isHost = true) : (session.step step).1 = session := by
  cases step with
  | frame | drop => cases h
  | charInput | keyDown | keyUp => rfl

/-- What the keys of the user call depends on the machine only. -/
theorem effects_of_isHost (h : step.isHost = true) {other : Session}
    (hconfig : session.config = other.config) :
    (session.step step).2 = (other.step step).2 := by
  cases step with
  | frame | drop => cases h
  | charInput c =>
    show session.charInput c = other.charInput c
    rw [charInput, hconfig, charInput]
  | keyDown key =>
    show session.keyDown key = other.keyDown key
    rw [keyDown, hconfig, keyDown]
  | keyUp key =>
    show session.keyUp key = other.keyUp key
    rw [keyUp, hconfig, keyUp]

theorem isHost_answered (responder : Responder) (calls : List Call) (session : Session)
    (step : Step) : (step.answered responder calls session).isHost = step.isHost := by
  cases step <;> rfl

theorem answered_of_isHost (h : step.isHost = true) (responder : Responder)
    (calls : List Call) (session : Session) : step.answered responder calls session = step := by
  cases step with
  | frame | drop => cases h
  | charInput | keyDown | keyUp => rfl

/-- The keys of the user call nothing but keys. -/
theorem withoutKeys_of_isHost (h : step.isHost = true) :
    withoutKeys (callsOf (session.step step).2) = [] := by
  have hcalls := mayCall_step session step
  generalize callsOf (session.step step).2 = calls at hcalls ⊢
  cases hcalls with
  | frame | drop => cases h
  | charInput hstrokes => cases hstrokes <;> rfl
  | noKeyDown | keyDown | triangle | noKeyUp | keyUp => rfl

/-- A machine that keys have no say in answers a step alike after calls that differ in keys
only. -/
theorem answered_eq {responder : Responder} (hkeys : responder.IgnoresKeys)
    {calls others : List Call} (h : withoutKeys calls = withoutKeys others)
    (session : Session) (step : Step) :
    step.answered responder calls session = step.answered responder others session := by
  cases step with
  | frame time given =>
    simp only [Step.answered, Responder.answers, hkeys calls others h]
  | drop | charInput | keyDown | keyUp => rfl

theorem own_cons_of_isHost (h : step.isHost = true) (rest : List Step) :
    own (step :: rest) = own rest :=
  List.filter_cons_of_neg (by simp [h])

theorem own_cons_of_not_isHost (h : step.isHost = false) (rest : List Step) :
    own (step :: rest) = step :: own rest :=
  List.filter_cons_of_pos (by simp [h])

/-- The machine gives the steps that are no keys of the user the same answers if there are no
keys of the user. -/
theorem own_answered {responder : Responder} (hkeys : responder.IgnoresKeys)
    (session : Session) {calls others : List Call} (h : withoutKeys calls = withoutKeys others)
    (steps : List Step) :
    own (session.answered responder calls steps) =
      session.answered responder others (own steps) := by
  induction steps generalizing session calls others with
  | nil => rfl
  | cons first rest ih =>
    rw [answered]
    cases hhost : first.isHost with
    | true =>
      -- The key changes nothing but the keys among the calls.
      have hafter : withoutKeys (calls ++ callsOf (session.step first).2) =
          withoutKeys others := by
        rw [withoutKeys_append, withoutKeys_of_isHost hhost, List.append_nil, h]
      rw [own_cons_of_isHost hhost, answered_of_isHost hhost]
      show own (first :: (session.step first).1.answered responder _ rest) = _
      rw [own_cons_of_isHost hhost, step_of_isHost hhost]
      exact ih session hafter
    | false =>
      have hafter (effects : List Effect) : withoutKeys (calls ++ callsOf effects) =
          withoutKeys (others ++ callsOf effects) := by
        rw [withoutKeys_append, withoutKeys_append, h]
      have hown := isHost_answered responder others session first
      rw [hhost] at hown
      rw [own_cons_of_not_isHost hhost, answered, answered_eq hkeys h]
      show own (_ :: _) = _ :: _
      rw [own_cons_of_not_isHost hown, ih _ (hafter _)]

/-- What happens at the steps that are no keys of the user is what happens without the keys
of the user. -/
theorem ownCourse_own (session : Session) (steps : List Step) :
    session.ownCourse (own steps) = session.ownCourse steps := by
  induction steps generalizing session with
  | nil => rfl
  | cons first rest ih =>
    cases hhost : first.isHost with
    | true =>
      rw [own_cons_of_isHost hhost, ih, ownCourse, hhost, step_of_isHost hhost]
      rfl
    | false => rw [own_cons_of_not_isHost hhost, ownCourse, ownCourse, ih]

theorem run_own (session : Session) (steps : List Step) :
    (session.run (own steps)).1 = (session.run steps).1 := by
  induction steps generalizing session with
  | nil => rfl
  | cons first rest ih =>
    cases hhost : first.isHost with
    | true => rw [own_cons_of_isHost hhost, ih, run_cons, step_of_isHost hhost]
    | false => rw [own_cons_of_not_isHost hhost, run_cons, run_cons, ih]

/-- The calls of a run are those of the keys of the user, which each key would make at any
time, and between them those of the other steps. -/
theorem calls_eq_interleave (session first : Session) (hconfig : session.config = first.config)
    (steps : List Step) :
    (session.run steps).2.map callsOf =
      interleave (fun step => callsOf (first.step step).2) steps
        ((session.ownCourse steps).map fun after => callsOf after.2) := by
  induction steps generalizing session with
  | nil => rfl
  | cons step rest ih =>
    have hrest := ih (session.step step).1 (by rw [step_config, hconfig])
    rw [run_cons, List.map_cons, hrest, interleave, ownCourse]
    cases hhost : step.isHost with
    | true => rw [effects_of_isHost hhost hconfig]; rfl
    | false => rfl

/-- The answers of a machine do not change which steps are keys of the user. -/
theorem interleave_answered (host : Step → List Call) (responder : Responder)
    (calls : List Call) (session : Session) (steps : List Step) (others : List (List Call)) :
    interleave host (session.answered responder calls steps) others =
      interleave host steps others := by
  induction steps generalizing session calls others with
  | nil => rfl
  | cons first rest ih =>
    rw [answered, interleave]
    cases hhost : first.isHost with
    | true =>
      rw [answered_of_isHost hhost]
      show interleave host (first :: _) others = _
      rw [interleave, hhost, if_pos rfl, ih, interleave, hhost, if_pos rfl]
    | false =>
      show interleave host (first.answered responder calls session :: _) others = _
      rw [interleave, isHost_answered, hhost, if_neg (by simp), ih, interleave, hhost,
        if_neg (by simp)]

/-- Let a machine answer to tapes and programs without regard to keys.  Two runs on it that
are the same but for keys of the user come to the same session, and at each step that is no
key of the user they find the same and do the same: the same calls, in a frame, the same
shown to the user, the same records.  All calls of a run are those of its steps in order,
those of the other run at the steps that are no keys of the user, and between them the calls
of each key, which it would have made at the start. -/
theorem host_keys_aside {responder : Responder} (hkeys : responder.IgnoresKeys)
    (config : Config) (file : Option File) {steps others : List Step}
    (hsame : own steps = own others) :
    let first := (start config file).1
    let played := first.answered responder (callsOf (start config file).2)
    first.ownCourse (played steps) = first.ownCourse (played others) ∧
    (first.run (played steps)).1 = (first.run (played others)).1 ∧
    (first.run (played steps)).2.map callsOf =
      interleave (fun step => callsOf (first.step step).2) steps
        ((first.ownCourse (played others)).map fun after => callsOf after.2) := by
  intro first played
  have hown : own (played steps) = own (played others) := by
    rw [own_answered hkeys first rfl, own_answered hkeys first rfl, hsame]
  have hcourse : first.ownCourse (played steps) = first.ownCourse (played others) := by
    rw [← ownCourse_own, hown, ownCourse_own]
  refine ⟨hcourse, ?_, ?_⟩
  · rw [← run_own, hown, run_own]
  · rw [calls_eq_interleave first first rfl, hcourse, interleave_answered]

/-- A machine that takes one program only, with and without keys of the user before, between
and after two programs. -/
theorem host_keys_aside_of_two_programs :
    let responder : Responder := fun calls given _ =>
      given.takesQuickload && (withoutKeys calls).length < 2
    let config : Config := ⟨.vg5000v11, 0, 0, some "R"⟩
    let file : Option File := some ⟨"a.bin", [1]⟩
    let steps : List Step :=
      [.charInput 'a', .frame 20000 ⟨true, true⟩, .keyDown .enter, .drop ⟨"b.bin", [2]⟩,
        .frame 20000 ⟨true, true⟩, .keyUp .enter]
    let others : List Step :=
      [.frame 20000 ⟨true, true⟩, .drop ⟨"b.bin", [2]⟩, .frame 20000 ⟨true, true⟩]
    let first := (start config file).1
    let played := first.answered responder [.boot .vg5000v11]
    responder.IgnoresKeys ∧ own steps = own others ∧
      (first.run (played steps)).1 = (first.run (played others)).1 ∧
      (first.run (played steps)).2.map callsOf =
        [[.keyDown 0x41, .keyUp 0x41], [.quickload [1], .keyDown 0x52, .keyUp 0x52],
          [.keyDown 0x0d], [], [.quickload [2]], [.keyUp 0x0d]] := by
  intro responder config file steps others first played
  have hkeys : responder.IgnoresKeys := by
    intro calls others h
    funext given offer
    simp only [responder, h]
  have hsame : own steps = own others := by decide
  obtain ⟨-, hsession, hcalls⟩ := host_keys_aside hkeys config file hsame
  refine ⟨hkeys, hsame, hsession, hcalls.trans ?_⟩
  decide +kernel

end Session

end Cassette.Frontend
