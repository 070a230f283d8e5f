/-!
# Time in frames

Times are microseconds.  Delays are given in frames of a sixtieth of a second,
whatever the rate at which the display really runs.
-/

namespace Cassette.Clock

/-- The length of a frame, in microseconds. -/
def frame : Nat := 16667

/-- The whole frames in a time. -/
def frames (time : Nat) : Nat :=
  time / frame

end Cassette.Clock
