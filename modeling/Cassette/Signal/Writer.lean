import Cassette.Signal.Error
import Cassette.Signal.Impulse

/-!
# Writing a train

A writer appends to a train that may never grow past a limit.  A step fails as
soon as a half-period or an impulse does not fit; what it wrote before stays,
and later steps go on from there.  Each step answers with the number of values
that it wrote.
-/

namespace Cassette.Signal

/-- A train and the number of values it may hold. -/
structure Writer where
  train : Array UInt16
  limit : Nat

/-- A writer whose train is still empty. -/
def Writer.empty (limit : Nat) : Writer :=
  ⟨#[], limit⟩

/-- A step of a writer.  The train is kept when the step fails. -/
abbrev Writes := EStateM TapeError Writer

namespace Writes

/-- A single half-period of any length. -/
def silence (length : UInt16) : Writes Nat := fun ⟨train, limit⟩ =>
  if train.size < limit then .ok 1 ⟨train.push length, limit⟩
  else .error (.capacityExceeded limit) ⟨train, limit⟩

/-- One impulse, both half-periods or none. -/
def impulse (kind : Impulse) : Writes Nat := fun ⟨train, limit⟩ =>
  if train.size + 2 ≤ limit then
    .ok 2 ⟨(train.push kind.halfPeriod).push kind.halfPeriod, limit⟩
  else .error (.capacityExceeded limit) ⟨train, limit⟩

/-- The given impulses; their values are counted on top of `written`. -/
def impulses (written : Nat) : List Impulse → Writes Nat
  | [] => pure written
  | first :: rest => do
      let values ← impulse first
      impulses (written + values) rest

/-- A run of short impulses; their values are counted on top of `written`. -/
def shorts (written : Nat) : Nat → Writes Nat
  | 0 => pure written
  | count + 1 => do
      let values ← impulse .short
      shorts (written + values) count

/-- A synchronization run, without the marker that closes it. -/
def sync (count : Nat) : Writes Nat :=
  shorts 0 count

/-- The marker that closes a byte or a synchronization run. -/
def endOfByte : Writes Nat :=
  impulses 0 Impulse.endOfByte

/-- The bits of a byte, without the marker that closes it. -/
def byte (value : UInt8) : Writes Nat :=
  impulses 0 (Impulse.ofByte value)

def framedByte (value : UInt8) : Writes Nat := do
  let bits ← byte value
  let marker ← endOfByte
  pure (bits + marker)

/-- A run of short impulses is written like any other impulses. -/
theorem shorts_eq_impulses (written count : Nat) :
    shorts written count = impulses written (List.replicate count .short) := by
  induction count generalizing written with
  | zero => rfl
  | succ count ih => simp [shorts, impulses, List.replicate_succ, ih]

end Writes

inductive Write where
  | silence (length : UInt16)
  | impulse (kind : Impulse)
  | sync (count : Nat)
  | endOfByte
  | byte (value : UInt8)
  | framedByte (value : UInt8)
  deriving DecidableEq

namespace Write

def run : Write → Writes Nat
  | .silence length => Writes.silence length
  | .impulse kind => Writes.impulse kind
  | .sync count => Writes.sync count
  | .endOfByte => Writes.endOfByte
  | .byte value => Writes.byte value
  | .framedByte value => Writes.framedByte value

/-- Several steps in a row, up to the first that fails; the values written are
counted on top of `written`. -/
def runAll (written : Nat) : List Write → Writes Nat
  | [] => pure written
  | first :: rest => do
      let values ← first.run
      runAll (written + values) rest

end Write

/-- One step of a writer: its answer, and the writer afterwards. -/
def Writer.write (writer : Writer) (step : Write) : Except TapeError Nat × Writer :=
  match step.run writer with
  | .ok written writer => (.ok written, writer)
  | .error error writer => (.error error, writer)

end Cassette.Signal
