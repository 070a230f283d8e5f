import Cassette.Proofs.Frontend.Outputs

/-!
# The calls that a machine gets

Records and what the user is shown put aside, a run is a sequence of calls.  A file is
handed to the machine in one call at most, and in which one is decided before the machine
answers (`File.offer?`, `callsOf_load`).  What a step calls has one of few shapes
(`MayCall`); `Session.mayCall_step` says so of every step, and from there on the steps are
not looked into any more.

The main statement, `Session.calls_of_run`, is about whole runs: booting comes first and
once, and as long as the user holds no keys, a key that goes down comes up with the next
call, so that none is down between two steps.
-/

namespace Cassette.Frontend

open Keyboard

/-- The call that an effect is, if it is one. -/
def Effect.call? : Effect → Option Call
  | .call made => some made
  | .flashSuccess | .flashError | .log _ => none

/-- The calls among some effects, in order. -/
def callsOf (effects : List Effect) : List Call :=
  effects.filterMap Effect.call?

@[simp]
theorem callsOf_append (effects others : List Effect) :
    callsOf (effects ++ others) = callsOf effects ++ callsOf others :=
  List.filterMap_append

@[simp]
theorem callsOf_records (records : List Log.Record) : callsOf (records.map .log) = [] := by
  induction records with
  | nil => rfl
  | cons record rest ih => exact ih

namespace Call

/-- The call hands a tape or a program to the machine. -/
def isOffer : Call → Bool
  | insertTape _ | quickload _ => true
  | boot _ | keyDown _ | keyUp _ | triangle => false

/-- The call presses or releases a key. -/
def isKey : Call → Bool
  | keyDown _ | keyUp _ | triangle => true
  | boot _ | insertTape _ | quickload _ => false

end Call

/-! ## What a load calls -/

/-- The call that hands an image to the machine, if the image has a tape. -/
def tapeOffer (image : List UInt8) : Option Call :=
  (Tape.encode image).toOption.map .insertTape

/-- The call that hands a file to the machine, if there is one. -/
def File.offer? (system : System) (file : File) : Option Call :=
  match file.kind system with
  | .image => tapeOffer file.data
  | .archive => (Archive.image file.data).result.toOption.bind tapeOffer
  | .listing => none
  | .program => some (.quickload file.data)

theorem callsOf_insert (answers : Answers) (image : List UInt8) :
    callsOf (insert answers image).outputs = (tapeOffer image).toList := by
  unfold tapeOffer
  cases hencode : Tape.encode image with
  | error error => rw [insert_of_error hencode]; rfl
  | ok tape => rw [insert_of_ok hencode]; rfl

/-- A load makes the one call that hands the file over, if there is one, whatever the
machine answers to it. -/
theorem callsOf_load (system : System) (answers : Answers) (file : File) :
    callsOf (load system answers file).outputs = (file.offer? system).toList := by
  unfold load File.offer?
  cases file.kind system with
  | image => exact callsOf_insert answers file.data
  | archive =>
    cases Archive.image file.data with
    | mk records result =>
      cases result with
      | error error => exact callsOf_records records
      | ok image =>
        show callsOf (records.map .log ++ (insert answers image).outputs) = _
        rw [callsOf_append, callsOf_records, callsOf_insert]
        rfl
  | listing => rfl
  | program => rfl

theorem isOffer_tapeOffer {image : List UInt8} {call : Call} (h : tapeOffer image = some call) :
    call.isOffer = true := by
  obtain ⟨tape, -, rfl⟩ := Option.map_eq_some_iff.1 h
  rfl

theorem File.isOffer_offer? {system : System} {file : File} {call : Call}
    (h : file.offer? system = some call) : call.isOffer = true := by
  unfold File.offer? at h
  split at h
  · exact isOffer_tapeOffer h
  · obtain ⟨image, -, hoffer⟩ := Option.bind_eq_some_iff.1 h
    exact isOffer_tapeOffer hoffer
  · cases h
  · rw [← Option.some.inj h]
    rfl

/-! ## What a step calls -/

/-- At most one key, pressed and released at once. -/
inductive IsStroke : List Call → Prop
  | none : IsStroke []
  | key (key : UInt8) : IsStroke [.keyDown key, .keyUp key]

/-- The calls that a step can make on a family of machines. -/
inductive MayCall (system : System) : Session.Step → List Call → Prop
  /-- A frame hands one file over at most and then types one key at most. -/
  | frame {time : Nat} {answers : Answers} {offers strokes : List Call}
      (hlength : offers.length ≤ 1) (hoffers : ∀ call ∈ offers, call.isOffer = true)
      (hstrokes : IsStroke strokes) :
      MayCall system (.frame time answers) (offers ++ strokes)
  | drop (file : File) : MayCall system (.drop file) []
  | charInput {c : Char} {strokes : List Call} (hstrokes : IsStroke strokes) :
      MayCall system (.charInput c) strokes
  /-- The user holds a key down that the machine does not have. -/
  | noKeyDown (key : HostKey) : MayCall system (.keyDown key) []
  | keyDown (key : HostKey) (code : UInt8) : MayCall system (.keyDown key) [.keyDown code]
  /-- Only one family of machines has the triangle key. -/
  | triangle (key : HostKey) (hsystem : system = .vg5000) :
      MayCall system (.keyDown key) [.triangle]
  | noKeyUp (key : HostKey) : MayCall system (.keyUp key) []
  | keyUp (key : HostKey) (code : UInt8) : MayCall system (.keyUp key) [.keyUp code]

namespace Session

theorem callsOf_success (session : Session) : callsOf session.success = [] := by
  unfold success
  split <;> rfl

theorem callsOf_attempt (session : Session) (answers : Answers) (file : File) :
    callsOf (session.attempt answers file).2 =
      (file.offer? session.config.system).toList := by
  have hcalls := callsOf_load session.config.system answers file
  cases hload : load session.config.system answers file with
  | mk outputs result =>
    rw [hload] at hcalls
    cases result with
    | ok text => rw [attempt_of_ok hload, callsOf_append, callsOf_success, List.append_nil, hcalls]
    | error error =>
      rw [attempt_of_error hload, callsOf_append, hcalls]
      exact List.append_nil _

/-- The call that hands the file of a frame over, if a file is due and there is one. -/
def offer? (session : Session) (time : Nat) : Option Call :=
  (session.later time).due.bind (File.offer? session.config.system)

theorem callsOf_loadPending (session : Session) (time : Nat) (answers : Answers) :
    callsOf ((session.later time).loadPending answers).2 = (session.offer? time).toList := by
  unfold loadPending offer?
  cases (session.later time).due with
  | none => rfl
  | some file => exact callsOf_attempt (session.later time) answers file

theorem isStroke_typeKey (session : Session) (time : Nat) :
    IsStroke (callsOf (session.typeKey time).2) := by
  unfold typeKey
  cases session.keys.get time with
  | mk key keys =>
    cases key with
    | none => exact .none
    | some key => exact .key key

/-- A frame makes the call that hands its file over, and then types. -/
theorem callsOf_frame (session : Session) (time : Nat) (answers : Answers) :
    ∃ strokes, callsOf (session.frame time answers).2 =
      (session.offer? time).toList ++ strokes ∧ IsStroke strokes := by
  refine ⟨_, ?_, isStroke_typeKey ((session.later time).loadPending answers).1 time⟩
  rw [frame_eq, callsOf_append, callsOf_loadPending]

theorem isOffer_offer? {session : Session} {time : Nat} {call : Call}
    (h : session.offer? time = some call) : call.isOffer = true := by
  obtain ⟨file, -, hoffer⟩ := Option.bind_eq_some_iff.1 h
  exact File.isOffer_offer? hoffer

theorem isStroke_charInput (session : Session) (c : Char) :
    IsStroke (callsOf (session.charInput c)) := by
  unfold charInput
  cases charKey session.config.system c with
  | none => exact .none
  | some key => exact .key key

theorem eq_vg5000_of_triangle {system : System} {key : HostKey}
    (h : hostKey system key = some .triangle) : system = .vg5000 := by
  cases system with
  | vg5000 => rfl
  | z1013 => cases key <;> cases h

/-- All that a step can call. -/
theorem mayCall_step (session : Session) (step : Step) :
    MayCall session.config.system step (callsOf (session.step step).2) := by
  cases step with
  | frame time answers =>
    obtain ⟨strokes, hcalls, hstrokes⟩ := callsOf_frame session time answers
    show MayCall _ _ (callsOf (session.frame time answers).2)
    rw [hcalls]
    refine .frame ?_ ?_ hstrokes
    · cases session.offer? time <;> simp
    · intro call hmem
      exact isOffer_offer? (Option.mem_toList.1 hmem)
  | drop file => exact .drop file
  | charInput c => exact .charInput (isStroke_charInput session c)
  | keyDown key =>
    show MayCall _ _ (callsOf (session.keyDown key))
    unfold keyDown
    cases hkey : hostKey session.config.system key with
    | none => exact .noKeyDown key
    | some machineKey =>
      cases machineKey with
      | code code => exact .keyDown key code
      | triangle => exact .triangle key (eq_vg5000_of_triangle hkey)
  | keyUp key =>
    show MayCall _ _ (callsOf (session.keyUp key))
    unfold keyUp
    cases hostKey session.config.system key with
    | none => exact .noKeyUp key
    | some machineKey =>
      cases machineKey with
      | code code => exact .keyUp key code
      | triangle => exact .noKeyUp key

end Session

namespace MayCall

variable {system : System} {step : Session.Step} {calls : List Call}

theorem boot_not_mem (h : MayCall system step calls) (model : Model) :
    .boot model ∉ calls := by
  intro hmem
  cases h with
  | frame hlength hoffers hstrokes =>
    rcases List.mem_append.1 hmem with hmem | hmem
    · cases hoffers _ hmem
    · cases hstrokes <;> simp at hmem
  | charInput hstrokes => cases hstrokes <;> simp at hmem
  | drop | noKeyDown | keyDown | triangle | noKeyUp | keyUp => simp at hmem

/-- The triangle key is pressed by the user only, and not on every machine. -/
theorem of_triangle_mem (h : MayCall system step calls) (hmem : .triangle ∈ calls) :
    (∃ key, step = .keyDown key) ∧ system = .vg5000 := by
  cases h with
  | frame hlength hoffers hstrokes =>
    rcases List.mem_append.1 hmem with hmem | hmem
    · cases hoffers _ hmem
    · cases hstrokes <;> simp at hmem
  | charInput hstrokes => cases hstrokes <;> simp at hmem
  | triangle key hsystem => exact ⟨⟨key, rfl⟩, hsystem⟩
  | drop | noKeyDown | keyDown | noKeyUp | keyUp => simp at hmem

end MayCall

/-! ## Keys that go down and come up -/

/-- Every key that goes down comes up with the next call. -/
def ReleasesAtOnce (calls : List Call) : Prop :=
  ∀ earlier key later, calls = earlier ++ .keyDown key :: later →
    ∃ rest, later = .keyUp key :: rest

/-- A key is down after some calls: it went down and did not come up since. -/
def Held (key : UInt8) (calls : List Call) : Prop :=
  ∃ earlier later, calls = earlier ++ .keyDown key :: later ∧ .keyUp key ∉ later

theorem releasesAtOnce_of_forall {calls : List Call} (h : ∀ key, .keyDown key ∉ calls) :
    ReleasesAtOnce calls := by
  rintro earlier key later rfl
  exact absurd (List.mem_append_right earlier List.mem_cons_self) (h key)

theorem IsStroke.releasesAtOnce {calls : List Call} (h : IsStroke calls) :
    ReleasesAtOnce calls := by
  cases h with
  | none => exact releasesAtOnce_of_forall fun _ hmem => nomatch hmem
  | key code =>
    intro earlier key later hcalls
    match earlier with
    | [] =>
      cases hcalls
      exact ⟨[], rfl⟩
    | [_] => cases hcalls
    | _ :: _ :: rest => simp at hcalls

namespace ReleasesAtOnce

variable {calls others : List Call}

theorem not_held (h : ReleasesAtOnce calls) (key : UInt8) : ¬Held key calls := by
  rintro ⟨earlier, later, hcalls, hnot⟩
  obtain ⟨rest, rfl⟩ := h earlier key later hcalls
  exact hnot List.mem_cons_self

theorem append (h : ReleasesAtOnce calls) (hothers : ReleasesAtOnce others) :
    ReleasesAtOnce (calls ++ others) := by
  intro earlier key later heq
  -- The key goes down among the others, or it is the first of them, or among the calls.
  rcases List.append_eq_append_iff.1 heq with ⟨between, -, hothersEq⟩ | ⟨between, hcalls, hlast⟩
  · exact hothers between key later hothersEq
  · cases between with
    | nil => exact hothers [] key later hlast.symm
    | cons call rest =>
      obtain ⟨rfl, rfl⟩ := List.cons.inj hlast
      obtain ⟨back, rfl⟩ := h earlier key rest hcalls
      exact ⟨back ++ others, rfl⟩

theorem flatMap {effects : List (List Effect)}
    (h : ∀ made ∈ effects, ReleasesAtOnce (callsOf made)) :
    ReleasesAtOnce (effects.flatMap callsOf) := by
  induction effects with
  | nil => exact releasesAtOnce_of_forall fun _ hmem => nomatch hmem
  | cons first rest ih =>
    rw [List.flatMap_cons]
    exact (h first List.mem_cons_self).append
      (ih fun made hmem => h made (List.mem_cons_of_mem first hmem))

end ReleasesAtOnce

/-- The user holds a key down or lets go of it. -/
def Session.Step.isHold : Session.Step → Bool
  | .keyDown _ | .keyUp _ => true
  | .frame _ _ | .drop _ | .charInput _ => false

theorem MayCall.releasesAtOnce {system : System} {step : Session.Step} {calls : List Call}
    (h : MayCall system step calls) (hhold : step.isHold = false) : ReleasesAtOnce calls := by
  cases h with
  | frame hlength hoffers hstrokes =>
    refine ReleasesAtOnce.append (releasesAtOnce_of_forall fun key hmem => ?_)
      hstrokes.releasesAtOnce
    cases hoffers _ hmem
  | drop file => exact releasesAtOnce_of_forall fun _ hmem => nomatch hmem
  | charInput hstrokes => exact hstrokes.releasesAtOnce
  | noKeyDown | keyDown | triangle | noKeyUp | keyUp => cases hhold

/-! ## Whole runs -/

namespace Session

/-- All calls from the start of a session to the end of the given number of its steps. -/
def callsUntil (config : Config) (file : Option File) (steps : List Step) (count : Nat) :
    List Call :=
  callsOf (start config file).2 ++
    (((start config file).1.run steps).2.take count).flatMap callsOf

theorem mayCall_of_getElem? {session : Session} {steps : List Step} {index : Nat}
    {made : List Effect} (h : (session.run steps).2[index]? = some made) :
    ∃ step, steps[index]? = some step ∧
      MayCall session.config.system step (callsOf made) := by
  obtain ⟨step, hstep, rfl⟩ := exists_step h
  have hcalls := mayCall_step (session.before steps index) step
  rw [before_config] at hcalls
  exact ⟨step, hstep, hcalls⟩

theorem mayCall_of_mem {session : Session} {steps : List Step} {made : List Effect}
    (h : made ∈ (session.run steps).2) :
    ∃ step ∈ steps, MayCall session.config.system step (callsOf made) := by
  obtain ⟨index, hindex⟩ := List.mem_iff_getElem?.1 h
  obtain ⟨step, hstep, hcalls⟩ := mayCall_of_getElem? hindex
  exact ⟨step, List.mem_of_getElem? hstep, hcalls⟩

/-- The calls of any run.  The machine is booted first and only then (1, 2); each step calls
what such a step may call (3), and so the triangle key is pressed only as the user presses a
key, and not on a Z1013 (4).  While the user holds no keys, every key that goes down comes up
with the next call, and none is down at the end of a step (5). -/
theorem calls_of_run (config : Config) (file : Option File) (steps : List Step) :
    let effects := ((start config file).1.run steps).2
    (∀ count, callsUntil config file steps count =
      .boot config.model :: (effects.take count).flatMap callsOf) ∧
    (∀ model, .boot model ∉ effects.flatMap callsOf) ∧
    (∀ (index : Nat) step, steps[index]? = some step →
      ∃ made, effects[index]? = some made ∧ MayCall config.system step (callsOf made)) ∧
    (∀ (index : Nat) made, effects[index]? = some made → .triangle ∈ callsOf made →
      (∃ key, steps[index]? = some (.keyDown key)) ∧ config.system ≠ .z1013) ∧
    ((∀ step ∈ steps, step.isHold = false) → ∀ count,
      ReleasesAtOnce (callsUntil config file steps count) ∧
        ∀ key, ¬Held key (callsUntil config file steps count)) := by
  intro effects
  refine ⟨fun count => rfl, ?_, ?_, ?_, ?_⟩
  · intro model hmem
    obtain ⟨made, hmade, hcall⟩ := List.mem_flatMap.1 hmem
    obtain ⟨step, -, hcalls⟩ := mayCall_of_mem hmade
    exact hcalls.boot_not_mem model hcall
  · intro index step hstep
    have hmade : effects[index]? = _ := getElem?_effects (start config file).1 steps index
    rw [hstep] at hmade
    have hcalls := mayCall_step ((start config file).1.before steps index) step
    rw [before_config, start_config] at hcalls
    exact ⟨_, hmade, hcalls⟩
  · intro index made hmade hmem
    obtain ⟨step, hstep, hcalls⟩ := mayCall_of_getElem? hmade
    rw [start_config] at hcalls
    obtain ⟨⟨key, rfl⟩, hsystem⟩ := hcalls.of_triangle_mem hmem
    refine ⟨⟨key, hstep⟩, ?_⟩
    rw [hsystem]
    decide
  · intro hholds count
    have hboot : ReleasesAtOnce (callsOf (start config file).2) :=
      releasesAtOnce_of_forall fun key hmem => nomatch hmem
    have hsteps : ReleasesAtOnce ((effects.take count).flatMap callsOf) := by
      refine ReleasesAtOnce.flatMap fun made hmem => ?_
      obtain ⟨step, hstep, hcalls⟩ := mayCall_of_mem (List.mem_of_mem_take hmem)
      exact hcalls.releasesAtOnce (hholds step hstep)
    have hall := hboot.append hsteps
    exact ⟨hall, hall.not_held⟩

/-- A program that is loaded, the input after it and a character of the user in between; and
the triangle key, which the user holds while a key is typed. -/
theorem calls_of_run_of_two_sessions :
    let config : Config := ⟨.vg5000v11, 0, 0, some "R"⟩
    let file : Option File := some ⟨"a.bin", [7]⟩
    let typing : List Step :=
      [.charInput 'a', .frame 20000 ⟨true, true⟩, .charInput 'é', .charInput 'z']
    let holding : List Step := [.keyDown .endKey, .frame 20000 ⟨true, true⟩, .keyUp .endKey]
    callsUntil config file typing 2 =
      [.boot .vg5000v11, .keyDown 0x41, .keyUp 0x41, .quickload [7], .keyDown 0x52,
        .keyUp 0x52] ∧
    ReleasesAtOnce (callsUntil config file typing 2) ∧
    ¬Held 0x52 (callsUntil config file typing 2) ∧
    (∃ key, holding[0]? = some (.keyDown key)) ∧
    ∃ made, ((start config none).1.run holding).2[1]? = some made ∧
      MayCall .vg5000 (.frame 20000 ⟨true, true⟩) (callsOf made) := by
  intro config file typing holding
  have hmade : callsUntil config file typing 2 = [.boot .vg5000v11, .keyDown 0x41, .keyUp 0x41,
      .quickload [7], .keyDown 0x52, .keyUp 0x52] := by
    decide +kernel
  obtain ⟨-, -, -, -, hreleases⟩ := calls_of_run config file typing
  obtain ⟨-, -, hcalls, htriangle, -⟩ := calls_of_run config none holding
  obtain ⟨hatOnce, hheld⟩ := hreleases (by decide) 2
  obtain ⟨hkey, -⟩ := htriangle 0 [.call .triangle] rfl List.mem_cons_self
  exact ⟨hmade, hatOnce, hheld 0x52, hkey, hcalls 1 _ rfl⟩

end Session

end Cassette.Frontend
