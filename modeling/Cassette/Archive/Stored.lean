import Cassette.Archive.Checksum
import Cassette.Archive.Directory

/-!
# Plain archives

The simplest archive of some files: their contents as they are, each behind a
header of its own, then the directory, then an end record without a comment.
-/

namespace Cassette.Archive

/-- A file that is put into an archive. -/
structure StoredFile where
  name : List UInt8
  content : List UInt8

namespace StoredFile

/-- The version that is needed to read a plain archive. -/
def version : Nat := 10

/-- The fields that a file's own header and its record in the directory share. -/
def sharedFields (file : StoredFile) : List UInt8 :=
  numberBytes 2 version ++ numberBytes 2 0 ++ numberBytes 2 0 ++
    numberBytes 2 0 ++ numberBytes 2 0 ++
    numberBytes 4 (checksum file.content).toNat ++
    numberBytes 4 file.content.length ++ numberBytes 4 file.content.length ++
    numberBytes 2 file.name.length ++ numberBytes 2 0

/-- A file behind its own header. -/
def localRecord (file : StoredFile) : List UInt8 :=
  localSignature ++ file.sharedFields ++ file.name ++ file.content

/-- The record in the directory of a file whose own header is at an offset. -/
def directoryRecord (offset : Nat) (file : StoredFile) : List UInt8 :=
  entrySignature ++ numberBytes 2 version ++ file.sharedFields ++ numberBytes 2 0 ++
    numberBytes 2 0 ++ numberBytes 2 0 ++ numberBytes 4 0 ++ numberBytes 4 offset ++
    file.name

/-- The directory of files that stand one after the other from an offset on. -/
def directory (offset : Nat) : List StoredFile → List UInt8
  | [] => []
  | file :: rest =>
      file.directoryRecord offset ++ directory (offset + file.localRecord.length) rest

def archive (files : List StoredFile) : List UInt8 :=
  let contents := files.flatMap localRecord
  let directory := directory 0 files
  contents ++ directory ++ EndRecord.signature ++ numberBytes 2 0 ++ numberBytes 2 0 ++
    numberBytes 2 files.length ++ numberBytes 2 files.length ++
    numberBytes 4 directory.length ++ numberBytes 4 contents.length ++ numberBytes 2 0

end StoredFile

end Cassette.Archive
