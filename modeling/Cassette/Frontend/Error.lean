import Cassette.Archive.Error

/-!
# Why a file was not loaded
-/

namespace Cassette.Frontend

/-- Why a file that was tried did not reach the machine. -/
inductive LoadError where
  | archive (error : Archive.ArchiveError)
  /-- The image gives no tape, or the machine refused it. -/
  | tapeNotInserted
  | quickloadFailed
  deriving DecidableEq

def LoadError.message : LoadError → String
  | archive error => error.message
  | tapeNotInserted => "tape not inserted"
  | quickloadFailed => "quickload failed"

end Cassette.Frontend
