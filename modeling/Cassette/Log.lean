import Cassette.Frontend.Error
import Cassette.Signal.Error

/-!
# The log

Every record that is ever logged, with its level and its wording.
-/

namespace Cassette.Log

/-- How much a record matters. -/
inductive Level where
  | debug
  | info
  | warn
  deriving DecidableEq

def Level.name : Level → String
  | debug => "DEBUG"
  | info => "INFO"
  | warn => "WARN"

/-- What is worth a record. -/
inductive Record where
  /-- An image was encoded; `used` values of the `capacity` were written. -/
  | encoded (length capacity used percent : Nat)
  /-- The room set aside for a tape was given back. -/
  | released (bytes : Nat)
  /-- The named entry of an archive is the tape. -/
  | unzipping (name : String)
  /-- An image to be inserted gives no tape. -/
  | notEncoded (error : Signal.TapeError)
  /-- Whether an image became a tape that the machine took. -/
  | inserting (success : Bool)
  | loadFailed (name : String) (error : Frontend.LoadError)
  | written (path : String) (bytes capacityBytes : Nat)
  | header (bytes : List UInt8)
  /-- A tape reads back as the image in the file. -/
  | verified (path : String) (headerSync dataSync dataLength : Nat)
  deriving DecidableEq

/-- A byte as two lower-case hexadecimal digits. -/
def hexByte (byte : UInt8) : String :=
  String.ofList [Nat.digitChar (byte.toNat / 16), Nat.digitChar (byte.toNat % 16)]

namespace Record

def level : Record → Level
  | encoded .. | released .. => .debug
  | unzipping .. | inserting .. | written .. | header .. | verified .. => .info
  | notEncoded .. | loadFailed .. => .warn

def text : Record → String
  | encoded length capacity used percent =>
      s!"k7: {length} bytes in, {capacity} values allocated, {used} used ({percent}%)"
  | released bytes => s!"releasing tape buffer of {bytes} bytes"
  | unzipping name => s!"unzipping K7 {name}"
  | notEncoded error => error.message
  | inserting success =>
      "Inserting tape: " ++ if success then "success" else "failure"
  | loadFailed name error => s!"loading {name}: {error.message}"
  | written path bytes capacityBytes =>
      s!"{path}: {bytes} bytes of signal ({capacityBytes} allocated)"
  | header bytes => "header: " ++ " ".intercalate (bytes.map hexByte)
  | verified path headerSync dataSync dataLength =>
      s!"{path}: ok, sync {headerSync}/{dataSync}, {dataLength} data bytes"

end Record

end Cassette.Log
