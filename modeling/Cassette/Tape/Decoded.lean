import Cassette.Signal.Reader
import Cassette.Tape

/-!
# Reading a tape back

Reading follows the layout of a tape and takes nothing from outside the train:
the lengths of both synchronization runs are found, the header is 32 framed
bytes, and the data goes on to the end of the train.
-/

namespace Cassette

open Signal

/-- What a train says when it is read as a tape. -/
structure DecodedTape where
  header : List UInt8
  data : List UInt8
  headerSync : Nat
  dataSync : Nat
  deriving DecidableEq

namespace DecodedTape

def image (tape : DecodedTape) : List UInt8 :=
  tape.header ++ tape.data

def read : Reads DecodedTape := do
  let _ ← Reads.silence
  let headerSync ← Reads.sync
  let header ← Reads.framedBytes headerLength
  let dataSync ← Reads.sync
  let data ← Reads.framedBytesToEnd []
  pure ⟨header, data, headerSync, dataSync⟩

/-- The tape that a train holds. -/
def ofTrain (train : List UInt16) : Except TapeError DecodedTape :=
  match read (.ofTrain train) with
  | .ok tape _ => .ok tape
  | .error error _ => .error error

end DecodedTape

end Cassette
