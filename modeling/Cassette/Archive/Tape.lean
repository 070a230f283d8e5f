import Cassette.Archive.Member
import Cassette.Log
import Cassette.Traced

/-!
# The tape in an archive

The tape is the first member with the right name.  Members are opened one after
the other up to it, so one that does not open hides what comes after it, whatever
its name; what comes after the tape is not looked at.
-/

namespace Cassette.Archive

/-- Whether a name ends in `.k7`, in capitals or not. -/
def isTapeName (name : String) : Bool :=
  ['.', 'k', '7'].isSuffixOf (name.toList.map Char.toLower)

/-- The content of the tape among some members. -/
def tapeAmong : List Member → Traced Log.Record ArchiveError (List UInt8)
  | [] => .fail .noTape
  | member :: rest =>
      match member.opening with
      | .error error => .fail error
      | .ok () =>
          if isTapeName member.name then do
            .emit (.unzipping member.name)
            .ofExcept member.content.get
          else tapeAmong rest

def image (archive : List UInt8) : Traced Log.Record ArchiveError (List UInt8) := do
  tapeAmong (← .ofExcept (membersOf archive))

end Cassette.Archive
