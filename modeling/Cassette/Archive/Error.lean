/-!
# What can go wrong with an archive

The structure of an archive may be broken, an entry may be one that cannot be
opened, its content may be damaged, and there may be no tape in it.
-/

namespace Cassette.Archive

/-- Why no image comes out of an archive. -/
inductive ArchiveError where
  /-- Nothing in the bytes ends a directory. -/
  | noEndRecord
  /-- Every end record found is broken or leads to a broken directory. -/
  | badDirectory
  /-- An entry does not start where the directory says. -/
  | badLocalHeader
  | passwordRequired
  /-- The entry is encrypted in a way that its flags do not tell. -/
  | wrongPassword
  | unsupportedMethod
  | corruptStream
  | checksumMismatch
  | noTape
  deriving DecidableEq

def ArchiveError.message : ArchiveError → String
  | noEndRecord => "invalid Zip archive: Could not find EOCD"
  | badDirectory => "invalid Zip archive: Invalid central directory"
  | badLocalHeader => "invalid Zip archive: Invalid local file header"
  | passwordRequired =>
      "unsupported Zip archive: Password required to decrypt file"
  | wrongPassword => "provided password is incorrect"
  | unsupportedMethod =>
      "unsupported Zip archive: Compression method not supported"
  | corruptStream => "corrupt deflate stream"
  | checksumMismatch => "Invalid checksum"
  | noTape => "no .k7 file in the archive"

end Cassette.Archive
