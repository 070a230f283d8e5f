/-!
# The machines

Two families of machine, and the models of each that can be booted.
-/

namespace Cassette

inductive System where
  | vg5000
  | z1013
  deriving DecidableEq

/-- The models that can be booted. -/
inductive Model where
  | vg5000v10
  | vg5000v11
  | z1013v01
  | z1013v16
  | z1013v64
  deriving DecidableEq

namespace Model

def system : Model → System
  | vg5000v10 | vg5000v11 => .vg5000
  | z1013v01 | z1013v16 | z1013v64 => .z1013

/-- The name by which a model is chosen. -/
def name : Model → String
  | vg5000v10 => "vg5000_10"
  | vg5000v11 => "vg5000_11"
  | z1013v01 => "z1013_01"
  | z1013v16 => "z1013_16"
  | z1013v64 => "z1013_64"

def all : List Model :=
  [vg5000v10, vg5000v11, z1013v01, z1013v16, z1013v64]

def ofName? (name : String) : Option Model :=
  all.find? fun model => model.name = name

theorem ofName?_name (model : Model) : ofName? model.name = some model := by
  cases model <;> decide

end Model

end Cassette
