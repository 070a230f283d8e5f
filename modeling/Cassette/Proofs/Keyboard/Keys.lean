import Cassette.Keyboard.Queue

/-!
# The keys that a queue lets out

A queue only ever lets out its first key, so the key that is let out and the keys
that still wait are together the keys that waited before (`Queue.get_append_waiting`).
What a text puts into the queue is spelled out byte by byte as `keysOf`.
-/

namespace Cassette.Keyboard

/-- The keys that type some bytes, byte by byte: none for a carriage return, the
return key for a line feed and the byte itself for any other. -/
def keysOf : List UInt8 → List UInt8
  | [] => []
  | byte :: rest =>
      (if byte = 0x0d then [] else if byte = 0x0a then [0x0d] else [byte]) ++ keysOf rest

theorem typed_eq_keysOf (bytes : List UInt8) : typed bytes = keysOf bytes := by
  induction bytes with
  | nil => rfl
  | cons byte rest ih =>
    rw [keysOf, ← ih]
    by_cases hreturn : byte = 0x0d
    · simp [typed, hreturn]
    · by_cases hfeed : byte = 0x0a <;> simp [typed, hreturn, hfeed]

namespace Queue

@[simp]
theorem putBytes_waiting (queue : Queue) (bytes : List UInt8) :
    (queue.putBytes bytes).waiting = queue.waiting ++ keysOf bytes := by
  rw [putBytes, typed_eq_keysOf]

@[simp]
theorem put_waiting (queue : Queue) (text : String) :
    (queue.put text).waiting = queue.waiting ++ keysOf (Text.bytes text) :=
  putBytes_waiting queue (Text.bytes text)

/-- An empty queue does not even count the time. -/
theorem get_of_nil {queue : Queue} (h : queue.waiting = []) (time : Nat) :
    queue.get time = (none, queue) := by
  rw [get, h]

/-- While the pause runs, its time is all that changes. -/
theorem get_of_pos {queue : Queue} {key : UInt8} {rest : List UInt8}
    (h : queue.waiting = key :: rest) (hpause : 0 < queue.pause) (time : Nat) :
    queue.get time = (none, { queue with pause := queue.pause - time }) := by
  simp only [get, h, if_pos hpause]

theorem get_of_zero {queue : Queue} {key : UInt8} {rest : List UInt8}
    (h : queue.waiting = key :: rest) (hpause : queue.pause = 0) (time : Nat) :
    queue.get time = (some key, { queue with waiting := rest, pause := queue.delay }) := by
  simp only [get, h, hpause, Nat.lt_irrefl, if_false]

/-- Asking for a key loses none, whether one is let out or not. -/
theorem get_append_waiting (queue : Queue) (time : Nat) :
    (queue.get time).1.toList ++ (queue.get time).2.waiting = queue.waiting := by
  cases h : queue.waiting with
  | nil => rw [get_of_nil h, h, Option.toList_none, List.append_nil]
  | cons key rest =>
    rcases Nat.eq_zero_or_pos queue.pause with hzero | hpos
    · rw [get_of_zero h hzero]
      rfl
    · rw [get_of_pos h hpos, Option.toList_none, List.nil_append, h]

end Queue

end Cassette.Keyboard
