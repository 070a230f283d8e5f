import Mathlib.Algebra.Ring.Nat
import Cassette.Proofs.Keyboard.History

/-!
# When a queue lets a key out

A queue keeps a single number for its pause, which stops at zero and stands still while no
key waits.  What it decides by that number can be told from its history alone
(`Queue.get_of_history`): the first key after a clearing comes at once, and any further one
as soon as the time that counts since the last key is the whole pause, no sooner and no
later.  Time counts if keys waited when it passed.

The pause is what `Queue.pauseFor` makes of the frames that were asked for, and this holds
of any number of them (`Queue.paced_after`).  It is as long as these frames where their
number leaves room for it in a word.
-/

namespace Cassette.Keyboard

/-- The time that an event counts against a pause: that of a question for a key, if keys
waited. -/
def Event.counted (event : Event) : Nat :=
  match event.action, event.waited with
  | .get time, true => time
  | _, _ => 0

/-- The time that events count against a pause. -/
def History.counted (past : History) : Nat :=
  (past.map Event.counted).sum

theorem History.counted_concat (past : History) (event : Event) :
    counted (past ++ [event]) = past.counted + event.counted := by
  simp [counted]

namespace Queue

/-- The pause of a queue is what its past asks for: none if no key was let out since the
last clearing, and otherwise what the time since the last key has left of a whole one. -/
structure Paced (queue : Queue) (delay : Nat) (past : History) : Prop where
  delay_eq : queue.delay = delay
  pause_eq_zero : past.sinceClear.letOut = [] → queue.pause = 0
  pause_eq : past.sinceClear.letOut ≠ [] → queue.pause = delay - past.sinceKey.counted

variable {queue : Queue} {delay : Nat} {past : History}

/-- An action that lets no key out and clears nothing takes its time off the pause. -/
theorem Paced.concat {event : Event} {after : Queue} (h : queue.Paced delay past)
    (hclear : event.action ≠ .clear) (hkey : event.key = none)
    (hdelay : after.delay = queue.delay) (hpause : after.pause = queue.pause - event.counted) :
    after.Paced delay (past ++ [event]) := by
  have hletOut : (History.sinceClear (past ++ [event])).letOut = past.sinceClear.letOut := by
    rw [History.sinceClear_concat past hclear, History.letOut_concat, hkey]
    exact List.append_nil _
  refine ⟨hdelay.trans h.delay_eq, fun hnone => ?_, fun hsome => ?_⟩
  · rw [hletOut] at hnone
    rw [hpause, h.pause_eq_zero hnone, Nat.zero_sub]
  · rw [hletOut] at hsome
    rw [hpause, h.pause_eq hsome, History.sinceKey_concat past hkey, History.counted_concat,
      Nat.sub_sub]

/-- A key that is let out begins a whole pause. -/
theorem Paced.concat_key {event : Event} {after : Queue} (h : queue.Paced delay past)
    (hclear : event.action ≠ .clear) (hkey : event.key ≠ none)
    (hdelay : after.delay = queue.delay) (hpause : after.pause = queue.delay) :
    after.Paced delay (past ++ [event]) := by
  refine ⟨hdelay.trans h.delay_eq, fun hnone => ?_, fun _ => ?_⟩
  · rw [History.sinceClear_concat past hclear, History.letOut_concat] at hnone
    have hletOut := (List.append_eq_nil_iff.1 hnone).2
    exact absurd (Option.toList_eq_nil_iff.1 hletOut) hkey
  · rw [hpause, h.delay_eq, History.sinceKey_concat_key past hkey]
    rfl

/-- Any action leaves the queue with the pause that its past, that action included, asks
for. -/
theorem Paced.act (h : queue.Paced delay past) (action : Action) :
    (queue.act action).2.Paced delay (past ++ [queue.event action]) := by
  cases action with
  | put text | putBytes bytes | putKey key => exact h.concat nofun rfl rfl rfl
  | clear =>
    refine ⟨h.delay_eq, fun _ => rfl, fun hsome => ?_⟩
    rw [History.sinceClear_concat_clear past rfl] at hsome
    exact absurd rfl hsome
  | get time =>
    cases hwaiting : queue.waiting with
    | nil =>
      have hget : queue.act (.get time) = (none, queue) := get_of_nil hwaiting time
      have hcounted : (queue.event (.get time)).counted = 0 := by
        simp [event, Event.counted, isEmpty, hwaiting]
      refine h.concat nofun (congrArg Prod.fst hget) ?_ ?_
      · rw [hget]
      · rw [hget, hcounted, Nat.sub_zero]
    | cons key rest =>
      have hcounted : (queue.event (.get time)).counted = time := by
        simp [event, Event.counted, isEmpty, hwaiting]
      rcases Nat.eq_zero_or_pos queue.pause with hzero | hpos
      · have hget : queue.act (.get time) = _ := get_of_zero hwaiting hzero time
        have hkey : (queue.event (.get time)).key = some key := congrArg Prod.fst hget
        refine h.concat_key nofun ?_ ?_ ?_
        · rw [hkey]
          exact Option.some_ne_none key
        · rw [hget]
        · rw [hget]
      · have hget : queue.act (.get time) = _ := get_of_pos hwaiting hpos time
        refine h.concat nofun (congrArg Prod.fst hget) ?_ ?_
        · rw [hget]
        · rw [hget, hcounted]

/-- A queue with keys lets one out if its past asks for no pause or if the time of a whole
pause has counted since the last key. -/
theorem Paced.exists_key_iff (h : queue.Paced delay past) (hkeys : queue.isEmpty = false)
    (time : Nat) :
    (∃ key, (queue.get time).1 = some key) ↔
      past.sinceClear.letOut = [] ∨ delay ≤ past.sinceKey.counted := by
  have hzero_iff : queue.pause = 0 ↔
      past.sinceClear.letOut = [] ∨ delay ≤ past.sinceKey.counted := by
    by_cases hnone : past.sinceClear.letOut = []
    · exact iff_of_true (h.pause_eq_zero hnone) (.inl hnone)
    · rw [h.pause_eq hnone, Nat.sub_eq_zero_iff_le, or_iff_right hnone]
  rw [← hzero_iff]
  cases hwaiting : queue.waiting with
  | nil => exact absurd ((isEmpty_iff queue).2 hwaiting) (Bool.eq_false_iff.1 hkeys)
  | cons key rest =>
    rcases Nat.eq_zero_or_pos queue.pause with hzero | hpos
    · rw [get_of_zero hwaiting hzero]
      exact iff_of_true ⟨key, rfl⟩ hzero
    · rw [get_of_pos hwaiting hpos]
      exact iff_of_false nofun (Nat.ne_of_gt hpos)

/-- A queue that was empty at first keeps to the pauses for its number of frames. -/
theorem paced_after (delayFrames : Nat) (actions : List Action) :
    ((empty delayFrames).after actions).Paced (pauseFor delayFrames)
      ((empty delayFrames).history actions) := by
  induction actions using List.reverseRecOn with
  | nil => exact ⟨rfl, fun _ => rfl, fun hsome => absurd rfl hsome⟩
  | append_singleton actions action ih =>
    rw [history_concat, after_concat]
    exact ih.act action

/-- When a queue lets a key out, told from its past, for any delay whose pauses last the
whole of their frames.  An empty queue lets none out and is not changed by the question.  A
queue with keys lets one out if none was let out since it was made or last cleared, or if
the times count up to a whole pause that passed since the last key while keys waited; and
it lets none out otherwise. -/
theorem get_of_history {delayFrames : Nat} (hdelay : delayFrames ≤ 257692)
    (actions : List Action) (time : Nat) :
    let queue := (empty delayFrames).after actions
    let past := (empty delayFrames).history actions
    (queue.isEmpty = true → queue.get time = (none, queue)) ∧
    (queue.isEmpty = false →
      ((∃ key, (queue.get time).1 = some key) ↔
        past.sinceClear.letOut = [] ∨ delayFrames * 16667 ≤ past.sinceKey.counted)) := by
  intro queue past
  have hpaced : queue.Paced (pauseFor delayFrames) past := paced_after delayFrames actions
  rw [pauseFor_eq_iff.2 hdelay] at hpaced
  exact ⟨fun hempty => get_of_nil ((isEmpty_iff queue).1 hempty) time,
    fun hkeys => hpaced.exists_key_iff hkeys time⟩

/-- A pause of two frames in which the queue was empty for a while: one microsecond short of
its end, at its end, behind the last key, and cut off by a clearing. -/
theorem get_of_history_of_three_keys :
    let actions : List Action :=
      [.put "A", .get 16667, .get 50000, .put "B", .get 16667, .get 16666]
    let queue (more : List Action) := (empty 2).after (actions ++ more)
    (¬∃ key, ((queue []).get 90000).1 = some key) ∧
    (∃ key, ((queue [.get 1]).get 0).1 = some key) ∧
    (queue [.get 1, .get 0]).get 7 = (none, queue [.get 1, .get 0]) ∧
    ∃ key, ((queue [.clear, .put "C"]).get 0).1 = some key := by
  intro actions queue
  have hdelay : 2 ≤ 257692 := by decide
  obtain ⟨-, hshort⟩ := get_of_history hdelay (actions ++ []) 90000
  obtain ⟨-, hwhole⟩ := get_of_history hdelay (actions ++ [.get 1]) 0
  obtain ⟨hempty, -⟩ := get_of_history hdelay (actions ++ [.get 1, .get 0]) 7
  obtain ⟨-, hcleared⟩ := get_of_history hdelay (actions ++ [.clear, .put "C"]) 0
  refine ⟨fun hkey => ?_, (hwhole (by decide)).2 (.inr (by decide)), hempty (by decide),
    (hcleared (by decide)).2 (.inl (by decide))⟩
  exact absurd ((hshort (by decide)).1 hkey) (by decide)

end Queue

end Cassette.Keyboard
