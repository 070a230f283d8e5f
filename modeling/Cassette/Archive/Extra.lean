import Cassette.Archive.Checksum
import Cassette.Archive.Fields
import Cassette.Text

/-!
# The extra fields of an entry

An entry may say more of itself in extra fields, each with a kind and a length in
front: values too large for its record, its name and its comment in UTF-8, times,
and how it is encrypted.  When the bytes end within a field, what was read up to
there counts and the rest does not.  A field that is not as its kind should be, or
that speaks of another name or comment than the entry has, spoils the entry.
-/

namespace Cassette.Archive

/-- What the extra fields of an entry can change. -/
structure Details where
  /-- The name as it is written. -/
  nameBytes : List UInt8
  name : String
  comment : String
  method : Nat
  plainSize : Nat
  size : Nat
  headerOffset : Nat
  /-- Whether a field says how the entry is encrypted. -/
  hasCipher : Bool
  deriving DecidableEq

namespace Extra

/-- Why a field was not read to its end. -/
inductive Stop where
  /-- The bytes end within the field. -/
  | cut
  /-- The field is not as it should be. -/
  | broken
  deriving DecidableEq

/-- What is known of the entry, and the bytes that are still to be read. -/
structure Scan where
  details : Details
  rest : List UInt8

/-- Reads a part of a field.  What it brought in before it stopped is kept. -/
abbrev Reads := EStateM Stop Scan

namespace Reads

def bytes (count : Nat) : Reads (List UInt8) := fun ⟨details, rest⟩ =>
  match Fields.bytes count rest with
  | some (found, rest) => .ok found ⟨details, rest⟩
  | none => .error .cut ⟨details, rest⟩

/-- A number in the given count of bytes. -/
def natural (width : Nat) : Reads Nat := do
  pure (number (← bytes width))

/-- Goes on only if a condition holds. -/
def require (condition : Bool) : Reads Unit := fun scan =>
  if condition then .ok () scan else .error .broken scan

/-- What is known of the entry. -/
def known : Reads Details := fun scan =>
  .ok scan.details scan

/-- Brings something in. -/
def change (f : Details → Details) : Reads Unit := fun ⟨details, rest⟩ =>
  .ok () ⟨f details, rest⟩

/-- Brings in a value of eight bytes if the field keeps it, and answers with the
bytes that it took.  The field keeps what is full in the entry's record; when it is
long enough for all three values, it keeps them all. -/
def largeValue (length value : Nat) (put : Nat → Details → Details) : Reads Nat :=
  if 24 ≤ length || value = 0xffffffff then do
    change (put (← natural 8))
    pure 8
  else pure 0

/-- Values that are too large for the entry's record. -/
def large (length : Nat) : Reads Unit := do
  let given ← known
  let first ← largeValue length given.plainSize fun value details =>
    { details with plainSize := value }
  let second ← largeValue length given.size fun value details =>
    { details with size := value }
  let third ← largeValue length given.headerOffset fun value details =>
    { details with headerOffset := value }
  let taken := first + second + third
  require (taken ≤ length)
  let _unused ← bytes (length - taken)

/-- A text in UTF-8, for one that the entry has already.  The field names that one
by its checksum, so that it does not outlive a change of it. -/
def unicode (length : Nat) (present : List UInt8) : Reads (List UInt8 × String) := do
  let _version ← bytes 1
  let sum ← natural 4
  require (5 ≤ length)
  let content ← bytes (length - 5)
  require (UInt32.ofNat sum = checksum present)
  match Text.ofBytes? content with
  | some text => pure (content, text)
  | none => fun scan => .error .broken scan

def name (length : Nat) : Reads Unit := do
  let (content, text) ← unicode length (← known).nameBytes
  change fun details => { details with nameBytes := content, name := text }

def comment (length : Nat) : Reads Unit := do
  let (_, text) ← unicode length (Text.bytes (← known).comment)
  change fun details => { details with comment := text }

/-- Three times of eight bytes each. -/
def longTimes (length : Nat) : Reads Unit := do
  require (length = 32)
  let _reserved ← bytes 4
  let tag ← natural 2
  require (tag = 1)
  let size ← natural 2
  require (size = 24)
  let _times ← bytes 24

/-- Up to three times of four bytes each, of which three bits say which there are.
A field with room for one time is accepted whatever the bits say. -/
def shortTimes (length : Nat) : Reads Unit := do
  let present ← natural 1
  let times := (List.range 3).countP present.testBit
  require (present < 8 && (length = 5 || length = 1 + 4 * times))
  let _times ← bytes (length - 1)

/-- How the entry is encrypted, and its method before that. -/
def cipher (length : Nat) : Reads Unit := do
  require (length = 7)
  let version ← natural 2
  let vendor ← natural 2
  let strength ← natural 1
  let method ← natural 2
  require (vendor = 0x4541 && (version = 1 || version = 2) && 1 ≤ strength && strength ≤ 3)
  change fun details => { details with method := method, hasCipher := true }

/-- A field of a kind that says nothing of interest. -/
def skip (length : Nat) : Reads Unit := do
  let _content ← bytes length

/-- A field of the given kind and length, after both. -/
def field (kind length : Nat) : Reads Unit :=
  match kind with
  | 0x0001 => large length
  | 0x000a => longTimes length
  | 0x5455 => shortTimes length
  | 0x6375 => comment length
  | 0x7075 => name length
  | 0x9901 => cipher length
  | _ => skip length

end Reads

end Extra

/-- Brings in what the extra fields of an entry say, unless one of them spoils it. -/
def Details.withExtra (details : Details) : List UInt8 → Option Details
  | kind :: kind' :: length :: length' :: rest =>
      let length := number [length, length']
      match Extra.Reads.field (number [kind, kind']) length ⟨details, rest⟩ with
      | .ok () after => after.details.withExtra (rest.drop length)
      | .error .cut after => some after.details
      | .error .broken _ => none
  | _ => some details
termination_by extra => extra.length
decreasing_by
  simp
  omega

/-- An entry without extra fields is as its record says. -/
theorem Details.withExtra_nil (details : Details) : details.withExtra [] = some details := by
  rw [Details.withExtra]
  intros
  contradiction

end Cassette.Archive
