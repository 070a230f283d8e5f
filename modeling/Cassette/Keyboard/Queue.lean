import Cassette.Clock
import Cassette.Text

/-!
# Typing for the user

Text waits in a queue and is let out one key at a time, as if someone sat at the
keyboard.  After a key the queue pauses, so that the machine sees every press;
only time that passes while keys are waiting counts against the pause.  A pause is
given in frames but counted in microseconds, by a word of 32 bits (`Queue.pauseFor`).
-/

namespace Cassette.Keyboard

/-- The keys that type some bytes: a line feed is the return key, a carriage
return is left out and every other byte stands for itself. -/
def typed (bytes : List UInt8) : List UInt8 :=
  (bytes.filter (· ≠ 0x0d)).map fun byte => if byte = 0x0a then 0x0d else byte

/-- The keys that wait, the pause that follows a key and what is left of the
pause that runs, both in microseconds. -/
structure Queue where
  waiting : List UInt8
  delay : Nat
  pause : Nat
  deriving DecidableEq

namespace Queue

/-- The pause for a number of frames, in microseconds.  It is the unchecked product of two
words of 32 bits, which wraps if it is too large for one. -/
def pauseFor (delayFrames : Nat) : Nat :=
  delayFrames * Clock.frame % UInt32.size

/-- A pause lasts the whole of its frames up to 257692 of them, and for no greater number. -/
theorem pauseFor_eq_iff {delayFrames : Nat} :
    pauseFor delayFrames = delayFrames * Clock.frame ↔ delayFrames ≤ 257692 := by
  rw [pauseFor, Nat.mod_eq_iff_lt (by decide), Clock.frame, UInt32.size]
  omega

/-- One frame more leaves less than an eighth of a frame. -/
example : pauseFor 257693 = 1935 := by decide

/-- An empty queue whose pauses are those for the given number of frames. -/
def empty (delayFrames : Nat) : Queue :=
  ⟨[], pauseFor delayFrames, 0⟩

/-- Queues the keys that type some bytes. -/
def putBytes (queue : Queue) (bytes : List UInt8) : Queue :=
  { queue with waiting := queue.waiting ++ typed bytes }

def put (queue : Queue) (text : String) : Queue :=
  queue.putBytes (Text.bytes text)

/-- Queues one key as it is. -/
def putKey (queue : Queue) (key : UInt8) : Queue :=
  { queue with waiting := queue.waiting ++ [key] }

/-- Forgets the keys that wait and ends the pause. -/
def clear (queue : Queue) : Queue :=
  { queue with waiting := [], pause := 0 }

/-- Whether no key waits. -/
def isEmpty (queue : Queue) : Bool :=
  queue.waiting.isEmpty

/-- Asks for the key to press after some time, once per frame of the display. -/
def get (queue : Queue) (time : Nat) : Option UInt8 × Queue :=
  match queue.waiting with
  | [] => (none, queue)
  | key :: rest =>
      if 0 < queue.pause then (none, { queue with pause := queue.pause - time })
      else (some key, { queue with waiting := rest, pause := queue.delay })

inductive Action where
  | put (text : String)
  | putBytes (bytes : List UInt8)
  | putKey (key : UInt8)
  | clear
  | get (time : Nat)
  deriving DecidableEq

/-- One action: the key that is let out, if any, and the queue afterwards. -/
def act (queue : Queue) : Action → Option UInt8 × Queue
  | .put text => (none, queue.put text)
  | .putBytes bytes => (none, queue.putBytes bytes)
  | .putKey key => (none, queue.putKey key)
  | .clear => (none, queue.clear)
  | .get time => queue.get time

end Queue

end Cassette.Keyboard
