import Cassette.Proofs.Frontend.Schedule
import Cassette.Proofs.Frontend.Typing
import Cassette.Proofs.Keyboard.Pauses
import Cassette.Proofs.Tape.Capacity

/-!
# The automatic load, frame by frame

A session that starts with an image loads it by itself: when the delay is over it
inserts the tape and types the command that reads it, and then the input.  If all
frames take the same time, it is known in advance in which frame each of this happens
(`Session.effects_of_automatic_load`), for a delay lasts so many frames as fit into it,
rounded up (`Session.framesFor_le_iff`).

A run has two phases.  Before the frame of the load the session only grows older
(`Session.before_frames_of_lt`).  From that frame on it types: some number of pauses
ended so far and some frames of the next one have passed, which is what a frame
preserves (`Session.Typing.frame`).  Both phases are described for the pauses that the
queue really makes; only the schedule asks for a delay that a pause can last
(`Session.keyGap_eq`).
-/

namespace Cassette.Frontend.Session

open Keyboard

/-! ## Frames of one length -/

/-- The least number of frames of a given length that last a time. -/
def framesFor (length time : Nat) : Nat :=
  (time + length - 1) / length

theorem framesFor_le_iff {length time count : Nat} (hlength : 1 ≤ length) :
    framesFor length time ≤ count ↔ time ≤ count * length := by
  rw [framesFor, Nat.div_le_iff_le_mul_add_pred hlength, Nat.mul_comm]
  omega

/-! ## Before the load -/

/-- The session that starts with a file, after some time in which nothing was done. -/
def unloaded (config : Config) (file : File) (elapsed : Nat) : Session :=
  ⟨config, .empty config.keyDelay, some file, elapsed⟩

variable {config : Config} {file : File} {tape : Tape}

theorem due_unloaded (config : Config) (file : File) (elapsed : Nat) :
    (unloaded config file elapsed).due =
      if (config.loadDelay + 1) * 16667 ≤ elapsed then some file else none := by
  by_cases h : (config.loadDelay + 1) * 16667 ≤ elapsed
  · rw [if_pos h, due, if_pos (lt_frames_iff.2 h)]
    rfl
  · rw [if_neg h, due, if_neg (mt lt_frames_iff.1 h)]

theorem frame_unloaded_of_lt {elapsed time : Nat}
    (h : elapsed + time < (config.loadDelay + 1) * 16667) (answers : Answers) :
    (unloaded config file elapsed).frame time answers =
      (unloaded config file (elapsed + time), []) := by
  have hdue : ((unloaded config file elapsed).later time).due = none := by
    rw [show (unloaded config file elapsed).later time =
      unloaded config file (elapsed + time) from rfl, due_unloaded, if_neg (by omega)]
  rw [frame_of_no_trial (Option.map_eq_none_iff.2 hdue)]
  rfl

/-! ## The load -/

/-- A tape that the machine takes leaves the command that reads it. -/
theorem load_of_accepted (hsystem : config.system = .vg5000)
    (hextension : Path.extension file.name = "k7") (hencode : Tape.encode file.data = .ok tape)
    {answers : Answers} (haccepts : answers.takesTape = true) :
    load config.system answers file =
      ⟨[.log (.encoded file.data.length tape.capacity tape.pulses.size tape.usedPercent),
          .call (.insertTape tape), .log tape.release, .log (.inserting true)],
        .ok (Text.bytes tapeCommand)⟩ := by
  have hkind : file.kind config.system = .image := by
    simp only [File.kind, hsystem, hextension]
  have hinsert := insert_of_ok hencode answers
  rw [haccepts] at hinsert
  unfold load
  rw [hkind]
  exact hinsert

theorem typeAll_keys (session : Session) (text : List UInt8) :
    (session.typeAll text).keys =
      { session.keys with
        waiting := session.keys.waiting ++ (keysOf text ++ inputKeys session.config) } := by
  rw [← typeAll_waiting]
  unfold typeAll typeInput
  cases session.config.input <;> rfl

/-- What the load of a tape puts out when the machine takes it. -/
def inserting (config : Config) (file : File) (tape : Tape) (elapsed : Nat) : List Effect :=
  [.log (.encoded file.data.length tape.capacity tape.pulses.size tape.usedPercent),
    .call (.insertTape tape), .log tape.release, .log (.inserting true)] ++
    if config.loadDelay + 10 < elapsed / 16667 then [.flashSuccess] else []

/-- The keys that a tape and the input leave to be typed. -/
def loadKeys (config : Config) : List UInt8 :=
  [0x43, 0x4c, 0x4f, 0x41, 0x44, 0x0d] ++ inputKeys config

theorem typeKey_eq (session : Session) (time : Nat) :
    session.typeKey time =
      ({ session with keys := (session.keys.get time).2 },
        (session.keys.get time).1.elim [] stroke) := rfl

/-- In the frame of the load the tape is inserted and the first key is pressed.  What is
left to be typed begins its first pause. -/
theorem frame_unloaded_of_le {elapsed time : Nat} {answers : Answers}
    (hsystem : config.system = .vg5000) (hextension : Path.extension file.name = "k7")
    (hencode : Tape.encode file.data = .ok tape) (haccepts : answers.takesTape = true)
    (h : (config.loadDelay + 1) * 16667 ≤ elapsed + time) :
    let after := (unloaded config file elapsed).frame time answers
    after.2 = inserting config file tape (elapsed + time) ++ stroke 0x43 ∧
      after.1.pending = none ∧
      after.1.keys.Rests ((loadKeys config).drop 1) (Queue.pauseFor config.keyDelay) 0 := by
  have hdue : (unloaded config file (elapsed + time)).due = some file := by
    rw [due_unloaded, if_pos h]
  have htrial : (unloaded config file elapsed).trial? (.frame time answers) =
      some ⟨file, answers⟩ := by
    show ((unloaded config file (elapsed + time)).due.map (⟨·, answers⟩) : Option Trial) = _
    rw [hdue]
    rfl
  have hattempt : ((unloaded config file elapsed).later time).attempt answers file = _ :=
    attempt_of_ok (load_of_accepted hsystem hextension hencode haccepts)
  -- The whole pause counts as passed, for no key was let out before.
  have hrests : (((unloaded config file elapsed).later time).tried.typeAll
      (Text.bytes tapeCommand)).keys.Rests (loadKeys config) (Queue.pauseFor config.keyDelay)
        (Queue.pauseFor config.keyDelay) := by
    rw [typeAll_keys, keysOf_tapeCommand]
    exact ⟨rfl, rfl, fun _ => (Nat.sub_self _).symm⟩
  obtain ⟨hkey, hafter⟩ := hrests.get_of_le (Nat.le_refl _) time
  rw [frame_of_trial htrial, hattempt, typeKey_eq]
  refine ⟨?_, rfl, hafter⟩
  show _ ++ Option.elim _ [] stroke = _
  rw [hkey]
  rfl

/-! ## Typing -/

/-- What is typed in a frame, the given number of frames after the first key, if a key is
pressed in every frame whose number is a multiple of the gap. -/
structure TypedAt (keys : List UInt8) (gap count : Nat) (typing : List Effect) : Prop where
  stroke_eq : ∀ j key, keys[j]? = some key → count = j * gap → typing = stroke key
  silent : (∀ j < keys.length, count ≠ j * gap) → typing = []

theorem typedAt_mul {gap : Nat} (keys : List UInt8) (j : Nat) (hgap : 0 < gap) :
    TypedAt keys gap (j * gap) (keys[j]?.elim [] stroke) where
  stroke_eq := by
    intro k key hkey hcount
    have hsame : j = k := Nat.eq_of_mul_eq_mul_right hgap hcount
    rw [hsame, hkey]
    rfl
  silent := by
    intro hnone
    have hend : keys[j]? = none := by
      refine List.getElem?_eq_none_iff.2 (Nat.le_of_not_lt fun hlt => ?_)
      exact hnone j hlt rfl
    rw [hend]
    rfl

theorem typedAt_nil_of_rest {keys : List UInt8} {gap j r : Nat} (hpos : 0 < r)
    (hr : r < gap) : TypedAt keys gap (j * gap + r) [] where
  stroke_eq := by
    intro k key _ hcount
    have hrest : (j * gap + r) % gap = k * gap % gap := by rw [hcount]
    rw [Nat.mul_add_mod_self_right, Nat.mod_eq_of_lt hr, Nat.mul_mod_left] at hrest
    omega
  silent _ := rfl

/-- The session when some frames have passed since the first key, each of which took the
same time: the keys up to the last one pressed are gone, and the time since then counts
against the pause. -/
structure Typing (session : Session) (keys : List UInt8) (delay time count : Nat) :
    Prop where
  pending_eq : session.pending = none
  rests : ∃ j r, count = j * (framesFor time delay + 1) + r ∧ r < framesFor time delay + 1 ∧
    session.keys.Rests (keys.drop (j + 1)) delay (r * time)

/-- The frame after a pause presses the next key, if there is one, and the frames of the
pause press none. -/
theorem Typing.frame {session : Session} {keys : List UInt8} {delay time count : Nat}
    (htime : 1 ≤ time) (h : session.Typing keys delay time count) (answers : Answers) :
    TypedAt keys (framesFor time delay + 1) (count + 1) (session.frame time answers).2 ∧
      (session.frame time answers).1.Typing keys delay time (count + 1) := by
  obtain ⟨hpending, j, r, rfl, hr, hrests⟩ := h
  have hgap : 0 < framesFor time delay + 1 := Nat.succ_pos _
  have htyping : (session.frame time answers).2 = (session.keys.get time).1.elim [] stroke := by
    rw [frame_of_pending_none hpending, typeKey_eq]
    rfl
  have hafter : (session.frame time answers).1.pending = none ∧
      (session.frame time answers).1.keys = (session.keys.get time).2 := by
    rw [frame_of_pending_none hpending, typeKey_eq]
    exact ⟨hpending, rfl⟩
  rw [htyping]
  by_cases hlast : r = framesFor time delay
  -- The pause is over.
  · have hcount : j * (framesFor time delay + 1) + r + 1 =
        (j + 1) * (framesFor time delay + 1) := by
      rw [Nat.succ_mul]
      omega
    have hle : delay ≤ r * time := (framesFor_le_iff htime).1 (Nat.le_of_eq hlast.symm)
    obtain ⟨hkey, hnext⟩ := hrests.get_of_le hle time
    rw [List.tail_drop, ← hafter.2, ← Nat.zero_mul time] at hnext
    rw [hcount, hkey, List.head?_drop]
    exact ⟨typedAt_mul keys (j + 1) hgap, hafter.1, j + 1, 0, rfl, hgap, hnext⟩
  -- The pause goes on.
  · have hlt : r * time < delay := by
      refine Nat.lt_of_not_le fun hle => ?_
      have := (framesFor_le_iff htime).2 hle
      omega
    obtain ⟨hkey, hnext⟩ := hrests.get_of_lt hlt time
    rw [← hafter.2, ← Nat.succ_mul] at hnext
    rw [Nat.add_assoc, hkey]
    exact ⟨typedAt_nil_of_rest (Nat.succ_pos r) (by omega), hafter.1, j, r + 1, rfl,
      by omega, hnext⟩

/-! ## The schedule -/

/-- The number of the frame that loads the file, counted from one, if every frame takes
the same time. -/
def loadFrame (config : Config) (time : Nat) : Nat :=
  framesFor time ((config.loadDelay + 1) * 16667)

/-- The frames from one key to the next. -/
def keyGap (config : Config) (time : Nat) : Nat :=
  framesFor time (config.keyDelay * 16667) + 1

/-- The gap is the one that the queue keeps if its pauses last the whole of their frames. -/
theorem keyGap_eq (hdelay : config.keyDelay ≤ 257692) (time : Nat) :
    keyGap config time = framesFor time (Queue.pauseFor config.keyDelay) + 1 := by
  rw [Queue.pauseFor_eq_iff.2 hdelay]
  rfl

theorem loadFrame_le_iff {time : Nat} (htime : 1 ≤ time) (count : Nat) :
    loadFrame config time ≤ count ↔ (config.loadDelay + 1) * 16667 ≤ count * time :=
  framesFor_le_iff htime

theorem loadFrame_pos {time : Nat} (htime : 1 ≤ time) : 0 < loadFrame config time := by
  refine Nat.lt_of_not_le fun hle => ?_
  have := (loadFrame_le_iff htime 0).1 hle
  omega

variable {time : Nat} {answers : List Answers}

theorem getElem?_frames {index : Nat} (h : index < answers.length) :
    (answers.map (Step.frame time))[index]? = some (.frame time answers[index]) := by
  rw [List.getElem?_map, List.getElem?_eq_getElem h]
  rfl

theorem effects_frames (session : Session) {index : Nat} (h : index < answers.length) :
    (session.run (answers.map (.frame time))).2[index]? =
      some ((session.before (answers.map (.frame time)) index).frame time answers[index]).2 := by
  rw [getElem?_effects, getElem?_frames h]
  rfl

theorem before_frames_succ (session : Session) {index : Nat} (h : index < answers.length) :
    session.before (answers.map (.frame time)) (index + 1) =
      ((session.before (answers.map (.frame time)) index).frame time answers[index]).1 :=
  before_succ (getElem?_frames h) session

/-- Up to the frame of the load, the frames only pass the time. -/
theorem before_frames_of_lt (htime : 1 ≤ time) {index : Nat}
    (hlt : index < loadFrame config time) (hle : index ≤ answers.length) :
    (unloaded config file 0).before (answers.map (.frame time)) index =
      unloaded config file (index * time) := by
  induction index with
  | zero => rw [before_zero, Nat.zero_mul]
  | succ index ih =>
    have hearly : index * time + time < (config.loadDelay + 1) * 16667 := by
      rw [← Nat.succ_mul]
      exact Nat.lt_of_not_le (mt (loadFrame_le_iff htime (index + 1)).2 (Nat.not_le_of_lt hlt))
    rw [before_frames_succ _ hle, ih (by omega) (by omega), frame_unloaded_of_lt hearly,
      Nat.succ_mul]

/-- Before the frame of the load the machine is left alone. -/
theorem effects_of_lt_loadFrame (htime : 1 ≤ time) {index : Nat}
    (hlt : index + 1 < loadFrame config time) (hle : index < answers.length) :
    ((unloaded config file 0).run (answers.map (.frame time))).2[index]? = some [] := by
  have hearly : index * time + time < (config.loadDelay + 1) * 16667 := by
    rw [← Nat.succ_mul]
    exact Nat.lt_of_not_le (mt (loadFrame_le_iff htime (index + 1)).2 (Nat.not_le_of_lt hlt))
  rw [effects_frames _ hle, before_frames_of_lt htime (by omega) (by omega),
    frame_unloaded_of_lt hearly]

section Accepted

variable (hsystem : config.system = .vg5000) (hextension : Path.extension file.name = "k7")
  (hencode : Tape.encode file.data = .ok tape)
  (haccepts : ∀ answer ∈ answers, answer.takesTape = true) (htime : 1 ≤ time)

include hsystem hextension hencode haccepts htime

/-- In the frame of the load the tape is inserted and the first key is pressed, and from
then on the session types. -/
theorem effects_loadFrame {index : Nat} (hindex : loadFrame config time = index + 1)
    (hle : index < answers.length) :
    ((unloaded config file 0).run (answers.map (.frame time))).2[index]? =
        some (inserting config file tape (loadFrame config time * time) ++ stroke 0x43) ∧
      ((unloaded config file 0).before (answers.map (.frame time)) (index + 1)).Typing
        (loadKeys config) (Queue.pauseFor config.keyDelay) time 0 := by
  have hlate : (config.loadDelay + 1) * 16667 ≤ index * time + time := by
    rw [← Nat.succ_mul]
    exact (loadFrame_le_iff htime (index + 1)).1 (Nat.le_of_eq hindex)
  have hbefore : (unloaded config file 0).before (answers.map (.frame time)) index =
      unloaded config file (index * time) :=
    before_frames_of_lt htime (by omega) (Nat.le_of_lt hle)
  obtain ⟨heffects, hpending, hrests⟩ := frame_unloaded_of_le hsystem hextension hencode
    (haccepts answers[index] (List.getElem_mem hle)) hlate
  rw [effects_frames _ hle, before_frames_succ _ hle, hbefore, heffects, hindex, Nat.succ_mul]
  refine ⟨rfl, hpending, 0, 0, by omega, Nat.succ_pos _, ?_⟩
  rw [Nat.zero_mul]
  exact hrests

/-- After the frame of the load the session goes on to type. -/
theorem typing_before {count : Nat} (hle : loadFrame config time + count ≤ answers.length) :
    ((unloaded config file 0).before (answers.map (.frame time))
      (loadFrame config time + count)).Typing
        (loadKeys config) (Queue.pauseFor config.keyDelay) time count := by
  induction count with
  | zero =>
    have hpos : 0 < loadFrame config time := loadFrame_pos htime
    obtain ⟨index, hindex⟩ := Nat.exists_eq_add_one.2 hpos
    rw [Nat.add_zero, hindex] at hle ⊢
    exact (effects_loadFrame hsystem hextension hencode haccepts htime hindex hle).2
  | succ count ih =>
    rw [← Nat.add_assoc] at hle ⊢
    rw [before_frames_succ _ hle]
    exact ((ih (Nat.le_of_lt hle)).frame htime _).2

/-- After the frame of the load only keys are pressed. -/
theorem typedAt_of_loadFrame_lt {count : Nat}
    (hle : loadFrame config time + count < answers.length) :
    ∃ typing, ((unloaded config file 0).run (answers.map (.frame time))).2[
        loadFrame config time + count]? = some typing ∧
      TypedAt (loadKeys config) (framesFor time (Queue.pauseFor config.keyDelay) + 1)
        (count + 1) typing := by
  have htyping := typing_before hsystem hextension hencode haccepts htime (Nat.le_of_lt hle)
  exact ⟨_, effects_frames _ hle, (htyping.frame htime _).1⟩

end Accepted

/-- A session that starts with an image, on a machine that takes it, and runs in frames
of one length: until the delay is over the machine is left alone; then, in one frame, the
tape is inserted and the first key of the command is pressed; and the keys that follow,
those of the input behind those of the command, come one after each gap.  There is
nothing else in any frame.  The delay between keys is any one whose pauses last the whole
of their frames. -/
theorem effects_of_automatic_load {config : Config} {file : File} {tape : Tape}
    (hsystem : config.system = .vg5000) (hdelay : config.keyDelay ≤ 257692)
    (hextension : Path.extension file.name = "k7")
    (hencode : Tape.encode file.data = .ok tape) {time : Nat} (htime : 1 ≤ time)
    {answers : List Answers} (haccepts : ∀ answer ∈ answers, answer.takesTape = true) :
    let begun := start config (some file)
    let effects := (begun.1.run (answers.map (.frame time))).2
    let first := loadFrame config time
    let gap := keyGap config time
    begun.2 = [.call (.boot config.model)] ∧
    effects.length = answers.length ∧
    ∀ index < answers.length,
      (index + 1 = first →
        effects[index]? = some (inserting config file tape (first * time) ++ stroke 0x43)) ∧
      (∀ j key, (loadKeys config)[j]? = some key → 0 < j → index + 1 = first + j * gap →
        effects[index]? = some (stroke key)) ∧
      ((∀ j < (loadKeys config).length, index + 1 ≠ first + j * gap) →
        effects[index]? = some []) := by
  intro begun effects first gap
  refine ⟨rfl, (length_effects begun.1 _).trans (List.length_map _), fun index hindex => ?_⟩
  have hgap : 0 < gap := Nat.succ_pos _
  rcases Nat.lt_or_ge (index + 1) first with hlt | hge
  · refine ⟨fun hfirst => by omega, fun j key _ _ hj => by omega, fun _ => ?_⟩
    exact effects_of_lt_loadFrame htime hlt hindex
  · obtain ⟨count, hcount⟩ := Nat.exists_eq_add_of_le hge
    cases count with
    | zero =>
      obtain ⟨hload, -⟩ :=
        effects_loadFrame hsystem hextension hencode haccepts htime hcount.symm hindex
      refine ⟨fun _ => hload, fun j key _ hpos hj => ?_, fun hnone => ?_⟩
      · have hlater := Nat.mul_pos hpos hgap
        omega
      · have hfirst := hnone 0 (Nat.succ_pos _)
        omega
    | succ count =>
      obtain rfl : index = first + count := Nat.succ.inj hcount
      obtain ⟨typing, heffects, htyping⟩ :=
        typedAt_of_loadFrame_lt hsystem hextension hencode haccepts htime hindex
      rw [← keyGap_eq hdelay time] at htyping
      refine ⟨fun hfirst => by omega, fun j key hkey _ hj => ?_, fun hnone => ?_⟩
      · have hstroke : typing = stroke key :=
          htyping.stroke_eq j key hkey (Nat.add_left_cancel (hcount.symm.trans hj))
        rw [← hstroke]
        exact heffects
      · have hsilent : typing = [] := htyping.silent fun j hj hsame =>
          hnone j hj (hcount.trans (congrArg (first + ·) hsame))
        rw [← hsilent]
        exact heffects

/-- Frames of ten milliseconds: the tape is inserted in the second, and a key is pressed
in every third from then on, the last of them in the twentieth. -/
theorem effects_of_automatic_load_in_twenty_frames :
    let config : Config := ⟨.vg5000v11, 0, 1, some "A"⟩
    let file : File := ⟨"game.K7", List.replicate 32 0⟩
    let effects := ((start config (some file)).1.run
      ((List.replicate 20 ⟨true, false⟩).map (.frame 10000))).2
    ∃ tape, Tape.encode file.data = .ok tape ∧
      effects[0]? = some [] ∧
      effects[1]? = some (inserting config file tape 20000 ++ stroke 0x43) ∧
      effects[3]? = some [] ∧
      effects[4]? = some (stroke 0x4c) ∧
      effects[19]? = some (stroke 0x41) := by
  intro config file effects
  obtain ⟨tape, hencode⟩ : ∃ tape, Tape.encode file.data = .ok tape :=
    ⟨_, Tape.encode_of_fits (by decide) (by decide)⟩
  have haccepts : ∀ answer ∈ List.replicate 20 (⟨true, false⟩ : Answers),
      answer.takesTape = true := by
    decide
  obtain ⟨-, -, hframes⟩ := effects_of_automatic_load (show config.system = .vg5000 from rfl)
    (show config.keyDelay ≤ 257692 by decide)
    (show Path.extension file.name = "k7" by decide) hencode
    (show 1 ≤ 10000 by decide) haccepts
  have hload := (hframes 1 (by decide)).1 (by decide)
  rw [show loadFrame config 10000 = 2 by decide] at hload
  refine ⟨tape, hencode, (hframes 0 (by decide)).2.2 (by decide), hload,
    (hframes 3 (by decide)).2.2 (by decide),
    (hframes 4 (by decide)).2.1 1 _ (by decide) (by decide) (by decide),
    (hframes 19 (by decide)).2.1 6 _ (by decide) (by decide) (by decide)⟩

end Cassette.Frontend.Session
