import Cassette.Archive.Checksum
import Cassette.Archive.Directory
import Cassette.Archive.Inflate

/-!
# The members of an archive

An archive is seen as a list of members in the order of its directory.  A member
has a name, may or may not open, and may or may not give its content.
-/

namespace Cassette.Archive

/-- What an archive shows of an entry.  The content is only looked at when it is
asked for. -/
structure Member where
  name : String
  opening : Except ArchiveError Unit
  content : Thunk (Except ArchiveError (List UInt8))

namespace Entry

/-- Reads an entry's own header.  Only the lengths of its variable part count, and
what they say is skipped, as far as there is anything to skip. -/
def localHeader : Fields Unit := do
  Fields.signature localSignature
  let _fixed ← .bytes 22
  let nameLength ← .natural 2
  let extraLength ← .natural 2
  modify fun rest => rest.drop (nameLength + extraLength)

/-- The bytes from the end of an entry's own header on. -/
def afterHeader? (archive : List UInt8) (entry : Entry) : Option (List UInt8) :=
  (localHeader (archive.drop entry.headerStart)).map Prod.snd

def opening (archive : List UInt8) (entry : Entry) : Except ArchiveError Unit :=
  if entry.encrypted then .error .passwordRequired
  else if (entry.afterHeader? archive).isNone then .error .badLocalHeader
  else if entry.method ≠ 0 ∧ entry.method ≠ 8 then .error .unsupportedMethod
  else if entry.hasCipher then .error .wrongPassword
  else .ok ()

/-- The content of an entry that can be opened: its bytes as they are or inflated,
if they have the checksum. -/
def content (archive : List UInt8) (entry : Entry) : Except ArchiveError (List UInt8) := do
  let bytes := ((entry.afterHeader? archive).getD []).take entry.size
  let plain ←
    if entry.method = 0 then pure bytes
    else (inflate bytes).elim (.error .corruptStream) .ok
  if Archive.checksum plain = entry.checksum then pure plain else .error .checksumMismatch

/-- What the archive shows of an entry. -/
def member (archive : List UInt8) (entry : Entry) : Member :=
  ⟨entry.name, entry.opening archive, .mk fun _ => entry.content archive⟩

end Entry

/-- The members of an archive, unless its structure is broken. -/
def membersOf (archive : List UInt8) : Except ArchiveError (List Member) := do
  let entries ← Directory.entriesOf archive
  pure (entries.map fun entry => entry.member archive)

end Cassette.Archive
