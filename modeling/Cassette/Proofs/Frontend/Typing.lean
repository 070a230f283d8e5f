import Cassette.Proofs.Frontend.Course
import Cassette.Proofs.Keyboard.Keys

/-!
# What the front-end types

The keys that the frames of a run press, and after them the keys that still wait,
are what the start of the session and the loads that succeeded queued, in order
(`Session.pressed_append_waiting_of_start`).  No key is lost, doubled or moved on
the way, whatever the user types in between.

A step keeps this balance: what it presses and what waits after it are what waited
before it and what its trial queued (`Session.pressed_append_waiting_of_step`).  What
a load leaves is stated by the extension of its file (`leftover`), apart from how
the file is loaded; `leaves_load` relates the two.
-/

namespace Cassette.Frontend

open Keyboard

/-- The key that an effect presses. -/
def Effect.keyDown? : Effect → Option UInt8
  | .call (.keyDown key) => some key
  | .call _ | .flashSuccess | .flashError | .log _ => none

/-- The keys that some effects press, in order. -/
def keyDowns (effects : List Effect) : List UInt8 :=
  effects.filterMap Effect.keyDown?

@[simp]
theorem keyDowns_nil : keyDowns [] = [] := rfl

@[simp]
theorem keyDowns_append (effects others : List Effect) :
    keyDowns (effects ++ others) = keyDowns effects ++ keyDowns others :=
  List.filterMap_append

@[simp]
theorem keyDowns_stroke (key : UInt8) : keyDowns (stroke key) = [key] := rfl

@[simp]
theorem keyDowns_log (records : List Log.Record) : keyDowns (records.map .log) = [] := by
  induction records with
  | nil => rfl
  | cons record rest ih => exact ih

/-! ## What a load leaves to be typed -/

/-- The keys that a loaded file leaves to be typed: the command that reads the tape
for an image or an archive, the text before the first zero byte for a listing, and
nothing for any other file. -/
def leftover (system : System) (file : File) : List UInt8 :=
  match system, Path.extension file.name with
  | .vg5000, "k7" | .vg5000, "zip" => [0x43, 0x4c, 0x4f, 0x41, 0x44, 0x0d]
  | .z1013, "txt" | .z1013, "bas" => keysOf (file.data.take (file.data.idxOf 0))
  | _, _ => []

theorem keysOf_tapeCommand :
    keysOf (Text.bytes tapeCommand) = [0x43, 0x4c, 0x4f, 0x41, 0x44, 0x0d] := by
  decide

theorem listing_eq_take (data : List UInt8) : listing data = data.take (data.idxOf 0) := by
  induction data with
  | nil => rfl
  | cons byte rest ih =>
    unfold listing at ih ⊢
    by_cases hzero : byte = 0
    · simp [hzero]
    · have hindex : (byte :: rest).idxOf 0 = rest.idxOf 0 + 1 := by
        simp [List.idxOf_cons, beq_false_of_ne hzero]
      rw [hindex, List.take_succ_cons, ← ih]
      simp [hzero]

/-- The keys that are left, by the kind of the file. -/
theorem leftover_eq (system : System) (file : File) :
    leftover system file =
      match file.kind system with
      | .image | .archive => keysOf (Text.bytes tapeCommand)
      | .listing => keysOf (listing file.data)
      | .program => [] := by
  rw [keysOf_tapeCommand, listing_eq_take]
  unfold leftover File.kind
  generalize Path.extension file.name = extension
  split <;> simp_all

/-- A load that presses no key and, if it succeeds, leaves the given keys to be
typed. -/
structure Leaves (keys : List UInt8) (loading : Traced Effect LoadError (List UInt8)) :
    Prop where
  silent : keyDowns loading.outputs = []
  keysOf_text : ∀ text, loading.result = .ok text → keysOf text = keys

theorem leaves_insert (answers : Answers) (image : List UInt8) :
    Leaves (keysOf (Text.bytes tapeCommand)) (insert answers image) where
  silent := by
    unfold insert offer
    cases Tape.encodeLogged image with
    | mk records result => cases result <;> simp [keyDowns, Effect.keyDown?]
  keysOf_text := by
    intro text hresult
    simp only [insert] at hresult
    split at hresult
    · rw [Except.ok.inj hresult]
    · cases hresult

theorem leaves_quickload (answers : Answers) (data : List UInt8) :
    Leaves [] (quickload answers data) where
  silent := rfl
  keysOf_text := by
    intro text hresult
    simp only [quickload] at hresult
    split at hresult
    · rw [← Except.ok.inj hresult]
      rfl
    · cases hresult

theorem leaves_load (system : System) (answers : Answers) (file : File) :
    Leaves (leftover system file) (load system answers file) := by
  rw [leftover_eq]
  unfold load
  cases file.kind system with
  | image => exact leaves_insert answers file.data
  | archive =>
    cases Archive.image file.data with
    | mk records result =>
      cases result with
      | error error => exact ⟨keyDowns_log records, fun text hresult => nomatch hresult⟩
      | ok image =>
        obtain ⟨hsilent, htext⟩ := leaves_insert answers image
        refine ⟨?_, htext⟩
        show keyDowns (records.map .log ++ (insert answers image).outputs) = []
        rw [keyDowns_append, keyDowns_log, hsilent, List.nil_append]
  | listing => exact ⟨rfl, fun text hresult => by rw [Except.ok.inj hresult]⟩
  | program => exact leaves_quickload answers file.data

/-! ## One step -/

/-- The keys of the input, if there is any. -/
def inputKeys (config : Config) : List UInt8 :=
  config.input.elim [] fun text => keysOf (Text.bytes text)

/-- The keys that some trials queue, in order: what each file that is loaded leaves,
and the input after it.  A file that is not loaded queues none. -/
def queuedBy (config : Config) (trials : List Trial) : List UInt8 :=
  (trials.filter (·.succeeds config.system)).flatMap fun trial =>
    leftover config.system trial.file ++ inputKeys config

theorem queuedBy_nil (config : Config) : queuedBy config [] = [] := rfl

theorem queuedBy_append (config : Config) (trials others : List Trial) :
    queuedBy config (trials ++ others) = queuedBy config trials ++ queuedBy config others := by
  rw [queuedBy, List.filter_append, List.flatMap_append]
  rfl

theorem queuedBy_of_ok {config : Config} {file : File} {answers : Answers}
    {outputs : List Effect} {text : List UInt8}
    (hload : load config.system answers file = ⟨outputs, .ok text⟩) :
    queuedBy config [⟨file, answers⟩] = keysOf text ++ inputKeys config := by
  have htext := (leaves_load config.system answers file).keysOf_text text (by rw [hload])
  rw [htext]
  simp [queuedBy, Trial.succeeds, hload, Except.toBool]

theorem queuedBy_of_error {config : Config} {file : File} {answers : Answers}
    {outputs : List Effect} {error : LoadError}
    (hload : load config.system answers file = ⟨outputs, .error error⟩) :
    queuedBy config [⟨file, answers⟩] = [] := by
  simp [queuedBy, Trial.succeeds, hload, Except.toBool]

/-- The keys that a step presses for the user, if it is a frame. -/
def Session.Step.pressed : Session.Step → List Effect → List UInt8
  | .frame _ _, effects => keyDowns effects
  | .drop _, _ | .charInput _, _ | .keyDown _, _ | .keyUp _, _ => []

/-- The keys that the frames among some steps press, from the effects of each step. -/
def pressed (steps : List Session.Step) (effects : List (List Effect)) : List UInt8 :=
  (List.zipWith Session.Step.pressed steps effects).flatten

namespace Session

theorem typeInput_waiting (session : Session) :
    session.typeInput.keys.waiting = session.keys.waiting ++ inputKeys session.config := by
  unfold typeInput inputKeys
  cases session.config.input with
  | none => simp
  | some text => simp

theorem typeAll_waiting (session : Session) (text : List UInt8) :
    (session.typeAll text).keys.waiting =
      session.keys.waiting ++ (keysOf text ++ inputKeys session.config) := by
  unfold typeAll
  rw [typeInput_waiting, Queue.putBytes_waiting, List.append_assoc]

theorem keyDowns_success (session : Session) : keyDowns session.success = [] := by
  unfold success
  split <;> rfl

/-- The loading part of a frame presses no key and queues what its trial leaves. -/
theorem loadPending_waiting (session : Session) (answers : Answers) :
    keyDowns (session.loadPending answers).2 = [] ∧
      (session.loadPending answers).1.keys.waiting =
        session.keys.waiting ++
          queuedBy session.config (session.due.map (Trial.mk · answers)).toList := by
  have hcases := loading_cases session answers
  generalize session.loadPending answers = after at hcases ⊢
  cases hcases with
  | idle hdue => simp [hdue, queuedBy_nil]
  | @loaded file outputs text hdue hload =>
    have hsilent := (leaves_load session.config.system answers file).silent
    rw [hload] at hsilent
    constructor
    · rw [keyDowns_append, hsilent, keyDowns_success, List.nil_append]
    · rw [typeAll_waiting, hdue]
      show _ = _ ++ queuedBy session.config [⟨file, answers⟩]
      rw [queuedBy_of_ok hload]
      rfl
  | @failed file outputs error hdue hload =>
    have hsilent := (leaves_load session.config.system answers file).silent
    rw [hload] at hsilent
    constructor
    · rw [keyDowns_append, hsilent]
      rfl
    · rw [hdue]
      show _ = _ ++ queuedBy session.config [⟨file, answers⟩]
      rw [queuedBy_of_error hload, List.append_nil]
      rfl

/-- The typing part of a frame presses the key that it takes out of the queue. -/
theorem typeKey_waiting (session : Session) (time : Nat) :
    keyDowns (session.typeKey time).2 ++ (session.typeKey time).1.keys.waiting =
      session.keys.waiting := by
  have hget := Queue.get_append_waiting session.keys time
  unfold typeKey
  cases hkey : session.keys.get time with
  | mk key keys =>
    rw [hkey] at hget
    cases key with
    | none => exact hget
    | some key =>
      show keyDowns (stroke key) ++ keys.waiting = session.keys.waiting
      rw [keyDowns_stroke]
      exact hget

/-- What a step presses and what waits after it are what waited before it and what
its trial queued. -/
theorem pressed_append_waiting_of_step (session : Session) (step : Step) :
    step.pressed (session.step step).2 ++ (session.step step).1.keys.waiting =
      session.keys.waiting ++ queuedBy session.config (session.trial? step).toList := by
  cases step with
  | frame time answers =>
    obtain ⟨hsilent, hwaiting⟩ := loadPending_waiting (session.later time) answers
    show keyDowns (session.frame time answers).2 ++
      (session.frame time answers).1.keys.waiting = _
    rw [frame_eq, keyDowns_append, hsilent, List.nil_append, typeKey_waiting, hwaiting,
      later_config, later_keys]
    rfl
  | drop file => exact (List.append_nil _).symm
  | charInput c => exact (List.append_nil _).symm
  | keyDown key => exact (List.append_nil _).symm
  | keyUp key => exact (List.append_nil _).symm

/-! ## A whole run -/

theorem pressed_append_waiting_of_run (session : Session) (steps : List Step) :
    pressed steps (session.run steps).2 ++ (session.run steps).1.keys.waiting =
      session.keys.waiting ++ queuedBy session.config (session.trials steps) := by
  induction steps generalizing session with
  | nil => exact (List.append_nil _).symm
  | cons first rest ih =>
    have hstep := pressed_append_waiting_of_step session first
    have hrest := ih (session.step first).1
    rw [step_config] at hrest
    rw [run_cons]
    calc
      pressed (first :: rest) ((session.step first).2 :: ((session.step first).1.run rest).2) ++
            ((session.step first).1.run rest).1.keys.waiting
        = first.pressed (session.step first).2 ++
            (pressed rest ((session.step first).1.run rest).2 ++
              ((session.step first).1.run rest).1.keys.waiting) := by
          rw [← List.append_assoc]
          rfl
      _ = first.pressed (session.step first).2 ++ (session.step first).1.keys.waiting ++
            queuedBy session.config ((session.step first).1.trials rest) := by
          rw [hrest, List.append_assoc]
      _ = session.keys.waiting ++ queuedBy session.config (session.trials (first :: rest)) := by
          rw [hstep, trials, queuedBy_append, List.append_assoc]

/-- The keys that frames pressed so far, followed by those that still wait, are the
input, if the session started without a file, and what every load that succeeded
leaves, each followed by the input. -/
theorem pressed_append_waiting_of_start (config : Config) (file : Option File)
    (steps : List Step) :
    let first := (start config file).1
    pressed steps (first.run steps).2 ++ (first.run steps).1.keys.waiting =
      (if file = none then inputKeys config else []) ++
        ((first.trials steps).filter (·.succeeds config.system)).flatMap fun trial =>
          leftover config.system trial.file ++ inputKeys config := by
  intro first
  have hconfig : first.config = config := by
    cases file <;> rfl
  have hwaiting : first.keys.waiting = if file = none then inputKeys config else [] := by
    cases file with
    | none => exact typeInput_waiting _
    | some file => rfl
  have hrun := pressed_append_waiting_of_run first steps
  rw [hconfig, hwaiting] at hrun
  exact hrun

/-- A listing is typed up to its zero byte, then the input; what the user types in
between is not among the keys. -/
example :
    let config : Config := ⟨.z1013v64, 0, 0, some "R"⟩
    let steps : List Step :=
      [.frame 20000 ⟨true, true⟩, .charInput 'x', .frame 20000 ⟨true, true⟩]
    let after := (start config (some ⟨"a.bas", [0x41, 0x0a, 0, 0x42]⟩)).1.run steps
    pressed steps after.2 = [0x41, 0x0d] ∧ after.1.keys.waiting = [0x52] := by
  decide

end Session

end Cassette.Frontend
