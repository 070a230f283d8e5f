import Cassette.Machine

/-!
# Keyboard layouts

What a character typed on the host, or a host key that gives no character, is on
the keyboard of a machine.
-/

namespace Cassette.Keyboard

/-- The host keys that are not delivered as characters. -/
inductive HostKey where
  | space
  | enter
  | escape
  | tab
  | backspace
  | home
  | endKey
  | left
  | right
  | up
  | down
  | leftAlt
  | rightAlt
  | leftControl
  | other
  deriving DecidableEq

inductive MachineKey where
  /-- A key of the keyboard matrix. -/
  | code (value : UInt8)
  /-- The triangle key, which interrupts the machine and is never released. -/
  | triangle
  deriving DecidableEq

/-- A letter of the other case; all else unchanged. -/
def swapCase (c : Char) : Char :=
  if c.isUpper then c.toLower else c.toUpper

/-- The key that types a character.  The VG5000 has capitals only and takes the
space from its own key; on the Z1013 an unshifted letter is a capital and a
shifted one is not.  Nothing beyond the printable ASCII characters has a key. -/
def charKey (system : System) (c : Char) : Option UInt8 :=
  match system with
  | .vg5000 => if '!' ≤ c ∧ c ≤ '~' then some c.toUpper.toUInt8 else none
  | .z1013 => if ' ' ≤ c ∧ c ≤ '~' then some (swapCase c).toUInt8 else none

/-- The machine key that a host key stands for. -/
def hostKey : System → HostKey → Option MachineKey
  | .vg5000, .space => some (.code 0x20)
  | .vg5000, .leftAlt => some (.code 0x01)
  | .vg5000, .home => some (.code 0x02)
  | .vg5000, .tab => some (.code 0x06)
  | .vg5000, .escape => some (.code 0x07)
  | .vg5000, .left => some (.code 0x08)
  | .vg5000, .right => some (.code 0x09)
  | .vg5000, .down => some (.code 0x0a)
  | .vg5000, .up => some (.code 0x0b)
  | .vg5000, .backspace => some (.code 0x0c)
  | .vg5000, .enter => some (.code 0x0d)
  | .vg5000, .rightAlt => some (.code 0x0e)
  | .vg5000, .leftControl => some (.code 0x0f)
  | .vg5000, .endKey => some .triangle
  | .vg5000, .other => none
  | .z1013, .enter => some (.code 0x0d)
  | .z1013, .right => some (.code 0x09)
  | .z1013, .left => some (.code 0x08)
  | .z1013, .down => some (.code 0x0a)
  | .z1013, .up => some (.code 0x0b)
  | .z1013, .escape => some (.code 0x03)
  | .z1013, _ => none

end Cassette.Keyboard
