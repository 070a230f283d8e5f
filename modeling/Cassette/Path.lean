/-!
# Paths

A path is a sequence of components between slashes.  Empty components and those
that say "here" do not count.
-/

namespace Cassette.Path

/-- The pieces of a text between separators; there is always at least one. -/
def pieces (separator : Char) : List Char → List (List Char)
  | [] => [[]]
  | c :: rest =>
      if c = separator then [] :: pieces separator rest
      else
        match pieces separator rest with
        | [] => [[c]]
        | first :: others => (c :: first) :: others

def components (path : String) : List (List Char) :=
  (pieces '/' path.toList).filter fun piece => piece ≠ [] ∧ piece ≠ ['.']

/-- The last component of a path, unless it says "up". -/
def fileName (path : String) : Option (List Char) :=
  (components path).getLast?.filter (· ≠ ['.', '.'])

/-- The extension of a path in small letters: what follows the last dot of its last
component.  A component with no dot but one in front has none. -/
def extension (path : String) : String :=
  match (fileName path).map fun name => (pieces '.' name).reverse with
  | some (last :: before :: others) =>
      if before = [] ∧ others = [] then "" else String.ofList (last.map Char.toLower)
  | _ => ""

end Cassette.Path
