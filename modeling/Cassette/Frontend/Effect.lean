import Cassette.Log
import Cassette.Machine
import Cassette.Tape

/-!
# What the front-end does

The front-end calls the machine, shows the user whether a file was loaded, and
logs.  Two of the calls have an answer.
-/

namespace Cassette.Frontend

inductive Call where
  | boot (model : Model)
  | keyDown (key : UInt8)
  | keyUp (key : UInt8)
  | triangle
  | insertTape (tape : Tape)
  | quickload (data : List UInt8)
  deriving DecidableEq

/-- Anything that is seen outside the front-end. -/
inductive Effect where
  | call (call : Call)
  | flashSuccess
  | flashError
  | log (record : Log.Record)

/-- What the machine answers if it is called with a tape or with data. -/
structure Answers where
  takesTape : Bool
  takesQuickload : Bool
  deriving DecidableEq

/-- A key that is pressed and released at once. -/
def stroke (key : UInt8) : List Effect :=
  [.call (.keyDown key), .call (.keyUp key)]

end Cassette.Frontend
