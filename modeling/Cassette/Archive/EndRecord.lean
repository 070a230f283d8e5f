import Cassette.Archive.Fields

/-!
# The records that end a directory

An archive ends with a record that says where its directory is.  A larger record
and a locator that leads to it stand before that record when its fields are too
small for the archive.
-/

namespace Cassette.Archive

/-- Where a signature is found in bytes that start at a position. -/
def positionsFrom (signature : List UInt8) (position : Nat) : List UInt8 → List Nat
  | [] => []
  | byte :: rest =>
      if signature.isPrefixOf (byte :: rest) then
        position :: positionsFrom signature (position + 1) rest
      else positionsFrom signature (position + 1) rest

/-- Where a signature is found between two positions of an archive, in order. -/
def positions (signature archive : List UInt8) (start stop : Nat) : List Nat :=
  positionsFrom signature start ((archive.take stop).drop start)

/-- The record at the end of every archive. -/
structure EndRecord where
  disk : Nat
  directoryDisk : Nat
  entriesHere : Nat
  entries : Nat
  directorySize : Nat
  directoryOffset : Nat
  comment : List UInt8

namespace EndRecord

/-- What the record begins with. -/
def signature : List UInt8 := [0x50, 0x4b, 5, 6]

/-- Reads the record, comment included. -/
def fields : Fields EndRecord := do
  Fields.signature signature
  let disk ← .natural 2
  let directoryDisk ← .natural 2
  let entriesHere ← .natural 2
  let entries ← .natural 2
  let directorySize ← .natural 4
  let directoryOffset ← .natural 4
  let commentLength ← .natural 2
  let comment ← .bytes commentLength
  pure ⟨disk, directoryDisk, entriesHere, entries, directorySize, directoryOffset, comment⟩

/-- Whether a field is too small for its value, so that a larger record may
stand before this one. -/
def isFull (record : EndRecord) : Bool :=
  record.entries = 0xffff || record.directoryOffset = 0xffffffff

end EndRecord

/-- The record that leads to the larger end record. -/
structure Locator where
  directoryDisk : Nat
  recordOffset : Nat
  disks : Nat

namespace Locator

/-- What the record begins with. -/
def signature : List UInt8 := [0x50, 0x4b, 6, 7]

/-- The number of bytes in the record. -/
def size : Nat := 20

def fields : Fields Locator := do
  Fields.signature signature
  let directoryDisk ← .natural 4
  let recordOffset ← .natural 8
  let disks ← .natural 4
  pure ⟨directoryDisk, recordOffset, disks⟩

end Locator

/-- The end record with larger fields. -/
structure LargeEndRecord where
  size : Nat
  versionMadeBy : Nat
  versionNeeded : Nat
  disk : Nat
  directoryDisk : Nat
  entriesHere : Nat
  entries : Nat
  directorySize : Nat
  directoryOffset : Nat

namespace LargeEndRecord

/-- What the record begins with. -/
def signature : List UInt8 := [0x50, 0x4b, 6, 6]

/-- Reads the record, without the data that may follow its fields. -/
def fields : Fields LargeEndRecord := do
  Fields.signature signature
  let size ← .natural 8
  let versionMadeBy ← .natural 2
  let versionNeeded ← .natural 2
  let disk ← .natural 4
  let directoryDisk ← .natural 4
  let entriesHere ← .natural 8
  let entries ← .natural 8
  let directorySize ← .natural 8
  let directoryOffset ← .natural 8
  pure ⟨size, versionMadeBy, versionNeeded, disk, directoryDisk, entriesHere, entries,
    directorySize, directoryOffset⟩

end LargeEndRecord

end Cassette.Archive
