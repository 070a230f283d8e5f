/-!
# What can go wrong with a tape

An image may be too short to hold a header, a train may outgrow the room set
aside for it, and a train that is read back may be malformed at a place.
-/

namespace Cassette.Signal

/-- What is wrong with a train at the place where reading stopped. -/
inductive Defect where
  | missingSilence
  | truncatedImpulse
  | unknownImpulse
  | halfBit
  | badEndOfByte
  | shortSynchronization
  deriving DecidableEq

def Defect.message : Defect → String
  | missingSilence => "missing leading silence"
  | truncatedImpulse => "truncated impulse"
  | unknownImpulse => "unknown impulse"
  | halfBit => "half a bit 1"
  | badEndOfByte => "bad end-of-byte marker"
  | shortSynchronization => "synchronization too short"

/-- Why an image does not become a tape or a train does not become an image. -/
inductive TapeError where
  /-- The image has fewer bytes than a header needs. -/
  | imageTooShort (length least : Nat)
  /-- The train would need more values than were set aside. -/
  | capacityExceeded (capacity : Nat)
  /-- The train is not a tape; `position` counts the values before the place. -/
  | malformed (position : Nat) (defect : Defect)
  deriving DecidableEq

def TapeError.message : TapeError → String
  | imageTooShort length least =>
      s!"k7 image too short: {length} bytes, at least {least} needed"
  | capacityExceeded capacity => s!"tape buffer capacity exceeded ({capacity} values)"
  | malformed position defect =>
      s!"malformed tape signal at value {position}: {defect.message}"

end Cassette.Signal
