import Cassette.Proofs.Keyboard.Keys

/-!
# How long a queue pauses

After a key the time counts that passes while keys wait, and the next key is let out
when the queue is asked again after the whole pause.  `Queue.Rests` says of a queue
which keys wait and how much of its pause has passed; the two lemmas after it say
what asking does to such a queue.
-/

namespace Cassette.Keyboard.Queue

/-- The keys that wait, the pause after each of them, and the time that counts against
the pause that runs.  A queue that is empty does not count. -/
structure Rests (queue : Queue) (keys : List UInt8) (delay passed : Nat) : Prop where
  waiting_eq : queue.waiting = keys
  delay_eq : queue.delay = delay
  pause_eq : queue.waiting ≠ [] → queue.pause = delay - passed

variable {queue : Queue} {keys : List UInt8} {delay passed : Nat}

/-- Before the end of the pause nothing is let out, and the time counts. -/
theorem Rests.get_of_lt (h : queue.Rests keys delay passed) (hlt : passed < delay)
    (time : Nat) :
    (queue.get time).1 = none ∧ (queue.get time).2.Rests keys delay (passed + time) := by
  cases keys with
  | nil =>
    rw [get_of_nil h.waiting_eq]
    exact ⟨rfl, h.waiting_eq, h.delay_eq, fun hne => absurd h.waiting_eq hne⟩
  | cons key rest =>
    have hpause : queue.pause = delay - passed := h.pause_eq (by rw [h.waiting_eq]; simp)
    rw [get_of_pos h.waiting_eq (by omega)]
    refine ⟨rfl, h.waiting_eq, h.delay_eq, fun _ => ?_⟩
    show queue.pause - time = delay - (passed + time)
    omega

/-- Once the pause is over the first key is let out, if there is one, and the next pause
begins. -/
theorem Rests.get_of_le (h : queue.Rests keys delay passed) (hle : delay ≤ passed)
    (time : Nat) :
    (queue.get time).1 = keys.head? ∧ (queue.get time).2.Rests keys.tail delay 0 := by
  cases keys with
  | nil =>
    rw [get_of_nil h.waiting_eq]
    exact ⟨rfl, h.waiting_eq, h.delay_eq, fun hne => absurd h.waiting_eq hne⟩
  | cons key rest =>
    have hpause : queue.pause = delay - passed := h.pause_eq (by rw [h.waiting_eq]; simp)
    rw [get_of_zero h.waiting_eq (by omega)]
    exact ⟨rfl, rfl, h.delay_eq, fun _ => h.delay_eq⟩

end Cassette.Keyboard.Queue
