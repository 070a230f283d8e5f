import Cassette.Log
import Cassette.Signal.Writer
import Cassette.Traced

/-!
# The tape of an image

An image is a header of 32 bytes and any number of data bytes.  Its tape is a
leading silence, a long synchronization, the framed header, a shorter
synchronization and the framed data.  The room for the signal is set aside
before writing, by the length of the image alone.
-/

namespace Cassette

open Signal

/-- The number of bytes in the header of an image. -/
def headerLength : Nat := 32

/-- An encoded signal and the number of values that were set aside for it. -/
structure Tape where
  pulses : Array UInt16
  capacity : Nat
  deriving DecidableEq

namespace Tape

/-- The one half-period before the first synchronization, in ticks. -/
def leadingSilence : UInt16 := 17400

/-- The short impulses of the synchronization before the header. -/
def headerSync : Nat := 30000

/-- The short impulses of the synchronization before the data. -/
def dataSync : Nat := 7200

/-- The values set aside for the signal of an image of the given length. -/
def capacityFor (length : Nat) : Nat :=
  (length + 30000) * 40

/-- A synchronization run and the marker that closes it. -/
def opening (count : Nat) : List Write :=
  [.sync count, .endOfByte]

/-- All that is written for an image, in order. -/
def program (image : List UInt8) : List Write :=
  .silence leadingSilence ::
    (opening headerSync ++ (image.take headerLength).map .framedByte ++
      opening dataSync ++ (image.drop headerLength).map .framedByte)

/-- The tape of an image, if the image holds a header and its signal fits. -/
def encode (image : List UInt8) : Except TapeError Tape :=
  if image.length < headerLength then .error (.imageTooShort image.length headerLength)
  else
    let capacity := capacityFor image.length
    match Write.runAll 0 (program image) (.empty capacity) with
    | .ok _ writer => .ok ⟨writer.train, capacity⟩
    | .error error _ => .error error

/-- The number of bytes in the signal, two to a value. -/
def byteLength (tape : Tape) : Nat :=
  tape.pulses.size * 2

/-- The number of bytes that were set aside, two to a value. -/
def capacityBytes (tape : Tape) : Nat :=
  tape.capacity * 2

/-- How much of the room was used, in whole percent. -/
def usedPercent (tape : Tape) : Nat :=
  tape.pulses.size * 100 / tape.capacity

/-- Encodes an image and logs how much room the signal took. -/
def encodeLogged (image : List UInt8) : Traced Log.Record TapeError Tape := do
  let tape ← .ofExcept (encode image)
  .emit (.encoded image.length tape.capacity tape.pulses.size tape.usedPercent)
  pure tape

theorem encodeLogged_of_ok {image : List UInt8} {tape : Tape} (h : encode image = .ok tape) :
    encodeLogged image =
      ⟨[.encoded image.length tape.capacity tape.pulses.size tape.usedPercent], .ok tape⟩ := by
  rw [encodeLogged, h]
  rfl

theorem encodeLogged_of_error {image : List UInt8} {error : TapeError}
    (h : encode image = .error error) : encodeLogged image = ⟨[], .error error⟩ := by
  rw [encodeLogged, h]
  rfl

/-- The record of giving back the room set aside for a tape. -/
def release (tape : Tape) : Log.Record :=
  .released tape.capacityBytes

/-- A value as two bytes, the low one first. -/
def valueBytes (value : UInt16) : List UInt8 :=
  [value.toUInt8, (value >>> 8).toUInt8]

def bytes (tape : Tape) : List UInt8 :=
  tape.pulses.toList.flatMap valueBytes

end Tape

end Cassette
