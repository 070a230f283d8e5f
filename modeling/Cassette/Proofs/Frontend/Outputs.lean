import Cassette.Proofs.Frontend.Course

/-!
# What the steps of a session put out

Every effect serves one purpose, and what a step puts out is described by how many of
its effects serve which.  A load hands at most one tape or program to the machine and
puts out nothing else but records (`offersOnce_load`).  A step that tries no file
presses and releases keys only (`Session.purpose_of_no_trial`), and a frame that tries
one puts out what the attempt puts out and then such keys (`Session.frame_of_trial`).
-/

namespace Cassette.Frontend

open Keyboard

/-- What an effect is for. -/
inductive Purpose where
  | boot
  /-- A key of the machine is pressed or released. -/
  | key
  /-- A tape or a program is handed to the machine. -/
  | offer
  /-- The user is shown that a file was loaded. -/
  | success
  /-- The user is shown that a file was not loaded. -/
  | failure
  | record
  deriving DecidableEq

def Effect.purpose : Effect → Purpose
  | .call (.boot _) => .boot
  | .call (.keyDown _) | .call (.keyUp _) | .call .triangle => .key
  | .call (.insertTape _) | .call (.quickload _) => .offer
  | .flashSuccess => .success
  | .flashError => .failure
  | .log _ => .record

/-- How many of some effects serve a purpose. -/
def countOf (purpose : Purpose) (effects : List Effect) : Nat :=
  effects.countP fun effect => effect.purpose = purpose

@[simp]
theorem countOf_nil (purpose : Purpose) : countOf purpose [] = 0 := rfl

@[simp]
theorem countOf_append (purpose : Purpose) (effects others : List Effect) :
    countOf purpose (effects ++ others) = countOf purpose effects + countOf purpose others :=
  List.countP_append

/-- Effects that all serve one purpose serve no other. -/
theorem countOf_eq_zero {purpose only : Purpose} {effects : List Effect}
    (honly : ∀ effect ∈ effects, effect.purpose = only) (hne : purpose ≠ only) :
    countOf purpose effects = 0 := by
  refine List.countP_eq_zero.2 fun effect hmem => ?_
  rw [honly effect hmem, decide_eq_true_eq]
  exact hne.symm

theorem countOf_records {purpose : Purpose} (hne : purpose ≠ .record)
    (records : List Log.Record) : countOf purpose (records.map .log) = 0 := by
  refine countOf_eq_zero (fun effect hmem => ?_) hne
  obtain ⟨record, _, rfl⟩ := List.mem_map.1 hmem
  rfl

theorem purpose_of_mem_stroke {key : UInt8} {effect : Effect} (h : effect ∈ stroke key) :
    effect.purpose = .key := by
  simp only [stroke, List.mem_cons, List.not_mem_nil, or_false] at h
  rcases h with rfl | rfl <;> rfl

/-! ## What a load puts out -/

/-- Records, then one offer to the machine at most, then records. -/
def OffersOnce (effects : List Effect) : Prop :=
  ∃ (earlier : List Log.Record) (offers : List Effect) (later : List Log.Record),
    effects = earlier.map .log ++ offers ++ later.map .log ∧ offers.length ≤ 1 ∧
      ∀ effect ∈ offers, effect.purpose = .offer

theorem offersOnce_records (records : List Log.Record) : OffersOnce (records.map .log) :=
  ⟨records, [], [], by simp, by simp, fun _ hmem => absurd hmem List.not_mem_nil⟩

theorem offersOnce_offer {effect : Effect} (h : effect.purpose = .offer)
    (earlier later : List Log.Record) :
    OffersOnce (earlier.map .log ++ [effect] ++ later.map .log) :=
  ⟨earlier, [effect], later, rfl, Nat.le_refl 1,
    fun _ hmem => by rw [List.mem_singleton.1 hmem, h]⟩

namespace OffersOnce

variable {effects : List Effect}

theorem records_append (h : OffersOnce effects) (records : List Log.Record) :
    OffersOnce (records.map .log ++ effects) := by
  obtain ⟨earlier, offers, later, rfl, hlength, hoffers⟩ := h
  refine ⟨records ++ earlier, offers, later, ?_, hlength, hoffers⟩
  rw [List.map_append, List.append_assoc, List.append_assoc, List.append_assoc]

theorem countOf_offer_le (h : OffersOnce effects) : countOf .offer effects ≤ 1 := by
  obtain ⟨earlier, offers, later, rfl, hlength, -⟩ := h
  have hle : countOf .offer offers ≤ offers.length := List.countP_le_length
  rw [countOf_append, countOf_append, countOf_records (by decide),
    countOf_records (by decide)]
  omega

theorem countOf_eq_zero (h : OffersOnce effects) {purpose : Purpose}
    (hoffer : purpose ≠ .offer) (hrecord : purpose ≠ .record) :
    countOf purpose effects = 0 := by
  obtain ⟨earlier, offers, later, rfl, -, hoffers⟩ := h
  rw [countOf_append, countOf_append, countOf_records hrecord, countOf_records hrecord,
    Frontend.countOf_eq_zero hoffers hoffer]

end OffersOnce

/-- An image that has a tape is offered to the machine, and the tape is given back. -/
theorem insert_of_ok {image : List UInt8} {tape : Tape} (hencode : Tape.encode image = .ok tape)
    (answers : Answers) :
    insert answers image =
      ⟨[.log (.encoded image.length tape.capacity tape.pulses.size tape.usedPercent),
          .call (.insertTape tape), .log tape.release, .log (.inserting answers.takesTape)],
        if answers.takesTape then .ok (Text.bytes tapeCommand) else .error .tapeNotInserted⟩ := by
  simp only [insert, offer, Tape.encodeLogged_of_ok hencode]
  rfl

/-- An image without a tape is not offered. -/
theorem insert_of_error {image : List UInt8} {error : Signal.TapeError}
    (hencode : Tape.encode image = .error error) (answers : Answers) :
    insert answers image =
      ⟨[.log (.notEncoded error), .log (.inserting false)], .error .tapeNotInserted⟩ := by
  simp only [insert, offer, Tape.encodeLogged_of_error hencode]
  rfl

theorem offersOnce_insert (answers : Answers) (image : List UInt8) :
    OffersOnce (insert answers image).outputs := by
  cases hencode : Tape.encode image with
  | error error =>
    rw [insert_of_error hencode]
    exact offersOnce_records [.notEncoded error, .inserting false]
  | ok tape =>
    have hpurpose : Effect.purpose (.call (.insertTape tape)) = .offer := rfl
    rw [insert_of_ok hencode]
    exact offersOnce_offer hpurpose
      [.encoded image.length tape.capacity tape.pulses.size tape.usedPercent]
      [tape.release, .inserting answers.takesTape]

theorem offersOnce_load (system : System) (answers : Answers) (file : File) :
    OffersOnce (load system answers file).outputs := by
  unfold load
  cases file.kind system with
  | image => exact offersOnce_insert answers file.data
  | archive =>
    cases Archive.image file.data with
    | mk records result =>
      cases result with
      | error error => exact offersOnce_records records
      | ok image => exact (offersOnce_insert answers image).records_append records
  | listing => exact offersOnce_records []
  | program => exact offersOnce_offer rfl [] []

namespace Session

/-! ## What an attempt puts out -/

theorem countOf_success (session : Session) :
    countOf .success session.success =
      if session.config.loadDelay + graceFrames < session.frames then 1 else 0 := by
  unfold success
  split <;> rfl

theorem countOf_success_of_ne (session : Session) {purpose : Purpose}
    (hne : purpose ≠ .success) : countOf purpose session.success = 0 := by
  refine countOf_eq_zero (fun effect hmem => ?_) hne
  unfold success at hmem
  split at hmem
  · rw [List.mem_singleton.1 hmem]
    rfl
  · cases hmem

/-- A file that is loaded is shown as a success, if that comes late enough, and never
as a failure. -/
theorem countOf_attempt_of_ok {session : Session} {answers : Answers} {file : File}
    {outputs : List Effect} {text : List UInt8}
    (hload : load session.config.system answers file = ⟨outputs, .ok text⟩) :
    countOf .success (session.attempt answers file).2 =
        (if session.config.loadDelay + graceFrames < session.frames then 1 else 0) ∧
      countOf .failure (session.attempt answers file).2 = 0 := by
  have honce := offersOnce_load session.config.system answers file
  rw [hload] at honce
  rw [attempt_of_ok hload]
  constructor
  · rw [countOf_append, honce.countOf_eq_zero (by decide) (by decide), countOf_success,
      Nat.zero_add]
  · rw [countOf_append, honce.countOf_eq_zero (by decide) (by decide),
      countOf_success_of_ne session (by decide)]

/-- A file that is not loaded is shown as a failure and never as a success. -/
theorem countOf_attempt_of_error {session : Session} {answers : Answers} {file : File}
    {outputs : List Effect} {error : LoadError}
    (hload : load session.config.system answers file = ⟨outputs, .error error⟩) :
    countOf .success (session.attempt answers file).2 = 0 ∧
      countOf .failure (session.attempt answers file).2 = 1 := by
  have honce := offersOnce_load session.config.system answers file
  rw [hload] at honce
  rw [attempt_of_error hload]
  constructor
  · rw [countOf_append, honce.countOf_eq_zero (by decide) (by decide)]
    rfl
  · rw [countOf_append, honce.countOf_eq_zero (by decide) (by decide)]
    rfl

/-- An attempt makes one offer at most, shows its end once at most and presses no
key. -/
theorem countOf_attempt (session : Session) (answers : Answers) (file : File) :
    countOf .offer (session.attempt answers file).2 ≤ 1 ∧
      countOf .success (session.attempt answers file).2 +
        countOf .failure (session.attempt answers file).2 ≤ 1 ∧
      countOf .key (session.attempt answers file).2 = 0 := by
  have honce := offersOnce_load session.config.system answers file
  cases hload : load session.config.system answers file with
  | mk outputs result =>
    rw [hload] at honce
    cases result with
    | ok text =>
      obtain ⟨hsuccess, hfailure⟩ := countOf_attempt_of_ok hload
      have hle : (if session.config.loadDelay + graceFrames < session.frames
          then 1 else 0) ≤ 1 := by
        split <;> decide
      rw [hsuccess, hfailure, attempt_of_ok hload]
      refine ⟨?_, hle, ?_⟩
      · rw [countOf_append, countOf_success_of_ne session (by decide)]
        exact honce.countOf_offer_le
      · rw [countOf_append, countOf_success_of_ne session (by decide)]
        exact honce.countOf_eq_zero (by decide) (by decide)
    | error error =>
      obtain ⟨hsuccess, hfailure⟩ := countOf_attempt_of_error hload
      rw [hsuccess, hfailure, attempt_of_error hload]
      refine ⟨?_, Nat.le_refl 1, ?_⟩
      · rw [countOf_append]
        exact honce.countOf_offer_le
      · rw [countOf_append]
        exact honce.countOf_eq_zero (by decide) (by decide)

/-! ## What a step puts out -/

/-- Typing presses and releases keys, and puts out nothing else. -/
theorem purpose_of_mem_typeKey {session : Session} {time : Nat} {effect : Effect}
    (h : effect ∈ (session.typeKey time).2) : effect.purpose = .key := by
  unfold typeKey at h
  cases hget : session.keys.get time with
  | mk key keys =>
    rw [hget] at h
    cases key with
    | none => cases h
    | some key => exact purpose_of_mem_stroke h

/-- A frame without a trial lets its time pass and types. -/
theorem frame_of_no_trial {session : Session} {time : Nat} {answers : Answers}
    (h : session.trial? (.frame time answers) = none) :
    session.frame time answers = (session.later time).typeKey time := by
  have hdue : (session.later time).due = none := Option.map_eq_none_iff.1 h
  rw [frame_eq, loadPending, hdue]
  rfl

/-- In a session without a file a frame only types. -/
theorem frame_of_pending_none {session : Session} (h : session.pending = none) (time : Nat)
    (answers : Answers) :
    session.frame time answers = (session.later time).typeKey time := by
  refine frame_of_no_trial (Option.map_eq_none_iff.2 ?_)
  unfold due
  split
  · exact h
  · rfl

/-- A frame with a trial attempts its file and types. -/
theorem frame_of_trial {session : Session} {time : Nat} {answers : Answers} {trial : Trial}
    (h : session.trial? (.frame time answers) = some trial) :
    session.frame time answers =
      ((((session.later time).attempt answers trial.file).1.typeKey time).1,
        ((session.later time).attempt answers trial.file).2 ++
          (((session.later time).attempt answers trial.file).1.typeKey time).2) := by
  obtain ⟨file, hdue, rfl⟩ := Option.map_eq_some_iff.1 h
  rw [frame_eq, loadPending, hdue]

/-- A step without a trial presses and releases keys, and puts out nothing else. -/
theorem purpose_of_no_trial {session : Session} {step : Step}
    (h : session.trial? step = none) {effect : Effect}
    (hmem : effect ∈ (session.step step).2) : effect.purpose = .key := by
  cases step with
  | frame time answers =>
    rw [show session.step (.frame time answers) = session.frame time answers from rfl,
      frame_of_no_trial h] at hmem
    exact purpose_of_mem_typeKey hmem
  | drop file => cases hmem
  | charInput c =>
    change effect ∈ (charKey session.config.system c).elim [] stroke at hmem
    cases hkey : charKey session.config.system c with
    | none =>
      rw [hkey] at hmem
      cases hmem
    | some key =>
      rw [hkey] at hmem
      exact purpose_of_mem_stroke hmem
  | keyDown key =>
    change effect ∈ session.keyDown key at hmem
    unfold keyDown at hmem
    split at hmem
    · rw [List.mem_singleton.1 hmem]
      rfl
    · rw [List.mem_singleton.1 hmem]
      rfl
    · cases hmem
  | keyUp key =>
    change effect ∈ session.keyUp key at hmem
    unfold keyUp at hmem
    split at hmem
    · rw [List.mem_singleton.1 hmem]
      rfl
    · cases hmem
    · cases hmem

/-- A step with a trial puts out what the attempt does, and then presses and releases
keys. -/
theorem step_of_trial {session : Session} {step : Step} {trial : Trial}
    (h : session.trial? step = some trial) :
    ∃ time typing, step = .frame time trial.answers ∧
      (session.step step).2 =
        ((session.later time).attempt trial.answers trial.file).2 ++ typing ∧
      ∀ effect ∈ typing, effect.purpose = .key := by
  cases step with
  | frame time answers =>
    have hanswers : answers = trial.answers := by
      obtain ⟨file, -, rfl⟩ := Option.map_eq_some_iff.1 h
      rfl
    subst hanswers
    refine ⟨time, _, rfl, congrArg Prod.snd (frame_of_trial h), ?_⟩
    exact fun effect hmem => purpose_of_mem_typeKey hmem
  | drop file => cases h
  | charInput c => cases h
  | keyDown key => cases h
  | keyUp key => cases h

/-- No step makes two offers or shows the end of two attempts. -/
theorem countOf_step_le (session : Session) (step : Step) :
    countOf .offer (session.step step).2 ≤ 1 ∧
      countOf .success (session.step step).2 + countOf .failure (session.step step).2 ≤ 1 := by
  cases h : session.trial? step with
  | none =>
    have hkeys {purpose : Purpose} (hne : purpose ≠ .key) :
        countOf purpose (session.step step).2 = 0 :=
      countOf_eq_zero (fun _ hmem => purpose_of_no_trial h hmem) hne
    rw [hkeys (by decide), hkeys (by decide), hkeys (by decide)]
    exact ⟨Nat.zero_le 1, Nat.zero_le 1⟩
  | some trial =>
    obtain ⟨time, typing, -, heffects, htyping⟩ := step_of_trial h
    obtain ⟨hoffer, hshown, -⟩ := countOf_attempt (session.later time) trial.answers trial.file
    have hkeys {purpose : Purpose} (hne : purpose ≠ .key) : countOf purpose typing = 0 :=
      countOf_eq_zero htyping hne
    rw [heffects, countOf_append, countOf_append, countOf_append, hkeys (by decide),
      hkeys (by decide), hkeys (by decide)]
    exact ⟨hoffer, hshown⟩

end Session

end Cassette.Frontend
