import Mathlib.Data.List.DropRight
import Cassette.Proofs.Keyboard.Keys

/-!
# The history of a queue

What a queue does next is told here from what was seen of it so far: the actions that
were taken, whether keys waited before each of them, and the keys that were let out.
`Queue.history` lists all this for a run, and whatever happened "since the last" clearing
or the last key is an end of that list.  The pause of the queue is no part of it.

The law of this module is that of custody (`Queue.letOut_append_waiting`): since the last
clearing, what was let out and what still waits are together what was put in.
-/

namespace Cassette.Keyboard

/-- The keys that an action puts into a queue. -/
def Queue.Action.keys : Queue.Action → List UInt8
  | .put text => keysOf (Text.bytes text)
  | .putBytes bytes => keysOf bytes
  | .putKey key => [key]
  | .clear | .get _ => []

/-- What is seen of an action: whether keys waited before it, and the key that it let out,
if any. -/
structure Event where
  action : Queue.Action
  waited : Bool
  key : Option UInt8

/-- What was seen of a queue, in order. -/
abbrev History := List Event

namespace History

/-- The events behind the last clearing, or all of them if there was none. -/
def sinceClear (past : History) : History :=
  past.rtakeWhile fun event => event.action ≠ .clear

/-- The events behind the last one that let a key out, or all of them if there was none. -/
def sinceKey (past : History) : History :=
  past.rtakeWhile fun event => event.key = none

/-- The keys that were let out, in order. -/
def letOut (past : History) : List UInt8 :=
  past.filterMap Event.key

/-- The keys that were put in, in order. -/
def putIn (past : History) : List UInt8 :=
  past.flatMap fun event => event.action.keys

theorem sinceClear_concat_clear (past : History) {event : Event} (h : event.action = .clear) :
    sinceClear (past ++ [event]) = [] :=
  List.rtakeWhile_concat_neg _ _ _ (by simpa using h)

theorem sinceClear_concat (past : History) {event : Event} (h : event.action ≠ .clear) :
    sinceClear (past ++ [event]) = past.sinceClear ++ [event] :=
  List.rtakeWhile_concat_pos _ _ _ (by simpa using h)

theorem sinceKey_concat_key (past : History) {event : Event} (h : event.key ≠ none) :
    sinceKey (past ++ [event]) = [] :=
  List.rtakeWhile_concat_neg _ _ _ (by simpa using h)

theorem sinceKey_concat (past : History) {event : Event} (h : event.key = none) :
    sinceKey (past ++ [event]) = past.sinceKey ++ [event] :=
  List.rtakeWhile_concat_pos _ _ _ (by simpa using h)

theorem letOut_concat (past : History) (event : Event) :
    letOut (past ++ [event]) = past.letOut ++ event.key.toList := by
  rw [letOut, letOut, List.filterMap_append]
  cases hkey : event.key <;> simp [hkey]

theorem putIn_concat (past : History) (event : Event) :
    putIn (past ++ [event]) = past.putIn ++ event.action.keys := by
  simp [putIn]

end History

namespace Queue

/-- What is seen of an action on a queue. -/
def event (queue : Queue) (action : Action) : Event :=
  ⟨action, !queue.isEmpty, (queue.act action).1⟩

/-- The queue after some actions. -/
def after (queue : Queue) (actions : List Action) : Queue :=
  actions.foldl (fun queue action => (queue.act action).2) queue

/-- What is seen of some actions on a queue, one after the other. -/
def history (queue : Queue) : List Action → History
  | [] => []
  | first :: rest => queue.event first :: (queue.act first).2.history rest

theorem after_concat (queue : Queue) (actions : List Action) (action : Action) :
    queue.after (actions ++ [action]) = ((queue.after actions).act action).2 := by
  simp [after]

theorem history_concat (queue : Queue) (actions : List Action) (action : Action) :
    queue.history (actions ++ [action]) =
      queue.history actions ++ [(queue.after actions).event action] := by
  induction actions generalizing queue with
  | nil => rfl
  | cons first rest ih => exact congrArg _ (ih (queue.act first).2)

/-- What was seen at some time is not changed by what is done later. -/
theorem take_history (queue : Queue) (actions : List Action) (count : Nat) :
    (queue.history actions).take count = queue.history (actions.take count) := by
  induction actions generalizing queue count with
  | nil => simp [history]
  | cons first rest ih =>
    cases count with
    | zero => rfl
    | succ count => exact congrArg _ (ih (queue.act first).2 count)

theorem isEmpty_iff (queue : Queue) : queue.isEmpty = true ↔ queue.waiting = [] :=
  List.isEmpty_iff

/-! ## Custody -/

/-- An action that does not clear the queue puts its keys behind those that wait, and what
is let out was the first of them. -/
theorem act_append_waiting (queue : Queue) {action : Action} (h : action ≠ .clear) :
    (queue.act action).1.toList ++ (queue.act action).2.waiting =
      queue.waiting ++ action.keys := by
  cases action with
  | put text => exact put_waiting queue text
  | putBytes bytes => exact putBytes_waiting queue bytes
  | putKey key => rfl
  | clear => exact absurd rfl h
  | get time => exact (get_append_waiting queue time).trans (List.append_nil _).symm

/-- What was let out since the last clearing and what still waits is what was put in since
then. -/
theorem letOut_append_waiting {queue : Queue} (hempty : queue.waiting = [])
    (actions : List Action) :
    (queue.history actions).sinceClear.letOut ++ (queue.after actions).waiting =
      (queue.history actions).sinceClear.putIn := by
  induction actions using List.reverseRecOn with
  | nil => exact hempty
  | append_singleton actions action ih =>
    rw [history_concat, after_concat]
    by_cases hclear : action = .clear
    · rw [History.sinceClear_concat_clear _ hclear, hclear]
      rfl
    · rw [History.sinceClear_concat _ hclear, History.letOut_concat, History.putIn_concat,
        ← ih, List.append_assoc, List.append_assoc]
      exact congrArg _ (act_append_waiting (queue.after actions) hclear)

/-- Nothing is lost in a queue, nothing comes out twice, and nothing overtakes.  What was
let out since the queue was made or last cleared, and behind it what still waits, is what
was put in since then; of what was put in before a clearing, the first keys were let out;
and the queue is empty when all that was put in since the last clearing was let out, and
at no other time. -/
theorem custody_of_history (delayFrames : Nat) (actions : List Action) :
    let queue := (empty delayFrames).after actions
    let past := (empty delayFrames).history actions
    past.sinceClear.letOut ++ queue.waiting = past.sinceClear.putIn ∧
    (∀ (earlier later : History) (cleared : Event), past = earlier ++ cleared :: later →
      cleared.action = .clear → earlier.sinceClear.letOut <+: earlier.sinceClear.putIn) ∧
    (queue.isEmpty = true ↔ past.sinceClear.letOut = past.sinceClear.putIn) := by
  intro queue past
  have hcustody : past.sinceClear.letOut ++ queue.waiting = past.sinceClear.putIn :=
    letOut_append_waiting rfl actions
  refine ⟨hcustody, fun earlier later cleared hpast _ => ?_, ?_⟩
  · have hearlier : earlier = (empty delayFrames).history (actions.take earlier.length) := by
      rw [← take_history, show (empty delayFrames).history actions = _ from hpast,
        List.take_left]
    rw [hearlier]
    exact ⟨_, letOut_append_waiting rfl _⟩
  · rw [isEmpty_iff, ← hcustody]
    exact List.self_eq_append_right.symm

/-- Text that is cleared behind its first key, and more of it that is not let out to its
end. -/
theorem custody_of_history_of_two_stretches :
    let actions : List Action :=
      [.put "AB", .get 0, .putKey 0x0a, .clear, .putBytes [0x43, 0x0d, 0x0a], .get 0]
    let queue := (empty 2).after actions
    let past := (empty 2).history actions
    [0x43] ++ queue.waiting = [0x43, 0x0d] ∧
    History.letOut (past.take 3) <+: [0x41, 0x42, 0x0a] ∧ queue.isEmpty = false := by
  intro actions queue past
  obtain ⟨hkeys, hcleared, hend⟩ := custody_of_history 2 actions
  refine ⟨hkeys, ?_, Bool.eq_false_iff.2 fun hempty => absurd (hend.1 hempty) (by decide)⟩
  exact hcleared (past.take 3) (past.drop 4) ⟨.clear, true, none⟩ rfl rfl

end Queue

end Cassette.Keyboard
