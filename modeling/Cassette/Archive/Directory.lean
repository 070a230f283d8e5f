import Cassette.Archive.EndRecord
import Cassette.Archive.Error
import Cassette.Archive.Extra
import Cassette.Archive.Name

/-!
# The directory of an archive

The end record is looked for from the end of the bytes backwards, so that bytes
after an archive do no harm; the directory is looked for from the place that the
record gives onwards, so that bytes before an archive do none either.  A record
that leads to no sound directory is passed over for the one before it.
-/

namespace Cassette.Archive

/-- Where the entries of a directory begin, how many there are, and how far
everything stands behind the place that the archive gives for it. -/
structure Directory where
  start : Nat
  shift : Nat
  count : Nat

/-- What a directory says of an entry. -/
structure Entry where
  name : String
  encrypted : Bool
  /-- Whether the entry says how it is encrypted. -/
  hasCipher : Bool
  method : Nat
  checksum : UInt32
  size : Nat
  /-- Where the entry's own header is in the bytes. -/
  headerStart : Nat
  deriving DecidableEq

/-- What an entry's own header begins with. -/
def localSignature : List UInt8 := [0x50, 0x4b, 3, 4]

/-- What the directory's record of an entry begins with. -/
def entrySignature : List UInt8 := [0x50, 0x4b, 1, 2]

/-- The number of bytes in the record of an entry, before its variable part. -/
def entryRecordSize : Nat := 46

namespace Directory

/-- The directory to which an end record at a position leads by itself. -/
def ofEndRecord? (archive : List UInt8) (position : Nat) (record : EndRecord) :
    Option Directory := do
  let start ←
    if record.entries = 0 then pure (max position record.directoryOffset)
    else (positions entrySignature archive record.directoryOffset position).head?
  guard (record.disk = record.directoryDisk)
  pure ⟨start, start - record.directoryOffset, record.entriesHere⟩

/-- The larger end record at a position before its locator, if it fits there and
agrees with the locator. -/
def largeRecord? (archive : List UInt8) (locator : Locator) (locatorPosition position : Nat) :
    Option LargeEndRecord := do
  let record ← LargeEndRecord.fields.of? (archive.drop position)
  guard (44 ≤ record.size ∧ position + record.size + 12 = locatorPosition)
  guard (record.directoryDisk = locator.directoryDisk)
  guard (record.entries * entryRecordSize + record.directoryOffset ≤ position)
  pure record

/-- The directory to which a locator leads. -/
def ofLocator? (archive : List UInt8) (position : Nat) (locator : Locator) :
    Option Directory := do
  guard (locator.recordOffset < position ∧ locator.disks ≤ 1)
  let found := positions LargeEndRecord.signature archive locator.recordOffset position
  let (recordPosition, record) ← found.findSome? fun recordPosition =>
    (largeRecord? archive locator position recordPosition).map (recordPosition, ·)
  guard (record.entriesHere ≤ record.entries ∧ record.versionNeeded ≤ record.versionMadeBy)
  guard (record.disk = record.directoryDisk)
  let shift := recordPosition - locator.recordOffset
  pure ⟨record.directoryOffset + shift, shift, record.entries⟩

/-- The locator right before an end record at a position. -/
def locator? (archive : List UInt8) (position : Nat) : Option Locator := do
  guard (Locator.size ≤ position)
  Locator.fields.of? (archive.drop (position - Locator.size))

/-- The directory to which the end record at a position leads. -/
def at? (archive : List UInt8) (position : Nat) : Option Directory := do
  let record ← EndRecord.fields.of? (archive.drop position)
  match if record.isFull then locator? archive position else none with
  | some locator => ofLocator? archive (position - Locator.size) locator
  | none => ofEndRecord? archive position record

end Directory

namespace Entry

/-- The method of an entry whose real method is given with the way it is encrypted. -/
def cipherMethod : Nat := 99

/-- Reads the record of an entry in a directory that stands behind its place by
`shift`. -/
def fields (shift : Nat) : Fields Entry := do
  Fields.signature entrySignature
  let _versionMadeBy ← .natural 2
  let _versionNeeded ← .natural 2
  let flags ← .natural 2
  let method ← .natural 2
  let _time ← .natural 2
  let _date ← .natural 2
  let checksum ← .natural 4
  let size ← .natural 4
  let plainSize ← .natural 4
  let nameLength ← .natural 2
  let extraLength ← .natural 2
  let commentLength ← .natural 2
  let _disk ← .natural 2
  let _attributes ← .natural 2
  let _hostAttributes ← .natural 4
  let headerOffset ← .natural 4
  let name ← .bytes nameLength
  let extra ← .bytes extraLength
  let comment ← .bytes commentLength
  let utf8 := flags.testBit 11
  let written : Details := ⟨name, Name.ofBytes utf8 name, Name.ofBytes utf8 comment, method,
    plainSize, size, headerOffset, false⟩
  let details ← StateT.lift (written.withExtra extra)
  guard (details.method ≠ cipherMethod ∨ details.hasCipher)
  pure ⟨details.name, flags.testBit 0, details.hasCipher, details.method,
    UInt32.ofNat checksum, details.size, details.headerOffset + shift⟩

end Entry

namespace Directory

/-- The given number of entries; each must start before the directory does. -/
def entriesFrom (directory : Directory) : Nat → Fields (List Entry)
  | 0 => pure []
  | count + 1 => do
      let first ← Entry.fields directory.shift
      guard (first.headerStart < directory.start)
      let rest ← directory.entriesFrom count
      pure (first :: rest)

/-- Adds an entry at the end, or in place of the one that has its name. -/
def addEntry (entries : List Entry) (entry : Entry) : List Entry :=
  if entries.any fun other => other.name = entry.name then
    entries.map fun other => if other.name = entry.name then entry else other
  else entries ++ [entry]

/-- The entries of a directory, each name once. -/
def entries? (directory : Directory) (archive : List UInt8) : Option (List Entry) := do
  let entries ← (directory.entriesFrom directory.count).of? (archive.drop directory.start)
  pure (entries.foldl addEntry [])

/-- The entries of an archive, by the last end record that leads to a sound
directory. -/
def entriesOf (archive : List UInt8) : Except ArchiveError (List Entry) :=
  match (positions EndRecord.signature archive 0 archive.length).reverse with
  | [] => .error .noEndRecord
  | found =>
      match found.findSome? fun position => do (← at? archive position).entries? archive with
      | some entries => .ok entries
      | none => .error .badDirectory

end Directory

end Cassette.Archive
