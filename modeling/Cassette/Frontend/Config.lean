import Cassette.Machine

/-!
# How the front-end is set up
-/

namespace Cassette.Frontend

/-- The choices made before the machine is booted. -/
structure Config where
  model : Model
  /-- The frames that pass before a file is loaded, so that the machine can start. -/
  loadDelay : Nat
  /-- The frames between two keys that are typed for the user.  The pause is what
  `Keyboard.Queue.pauseFor` makes of them. -/
  keyDelay : Nat
  /-- What is typed once a file is loaded, or at once if there is no file. -/
  input : Option String
  deriving DecidableEq

namespace Config

/-- The usual choices for a family of machines. -/
def default : System → Config
  | .vg5000 => ⟨.vg5000v11, 120, 5, none⟩
  | .z1013 => ⟨.z1013v64, 20, 6, none⟩

def system (config : Config) : System :=
  config.model.system

end Config

end Cassette.Frontend
