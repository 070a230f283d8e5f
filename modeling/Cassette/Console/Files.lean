import Cassette.Path

/-!
# Files

The files below a directory, each with its content.  A directory is there as long
as a file lies below it, and nothing is known of what lies outside.  Reading and
writing fail for the same reasons as on a disk.
-/

namespace Cassette.Console

/-- Why a file could not be read or written. -/
inductive FileError where
  | missing
  | isDirectory
  | notDirectory
  | nameTooLong
  | other (description : String) (code : Nat)
  deriving DecidableEq

def FileError.message : FileError → String
  | missing => "No such file or directory (os error 2)"
  | isDirectory => "Is a directory (os error 21)"
  | notDirectory => "Not a directory (os error 20)"
  | nameTooLong => "File name too long (os error 36)"
  | other description code => s!"{description} (os error {code})"

/-- A name in a directory. -/
abbrev Name := List Char

/-- The names on the way from the directory to a file. -/
abbrev Place := List Name

/-- The greatest number of bytes in a name. -/
def longestName : Nat := 255

/-- The greatest number of bytes in a path. -/
def longestPath : Nat := 4095

/-- Whether a name is too long for any directory. -/
def Name.isTooLong (name : Name) : Bool :=
  longestName < (String.ofList name).utf8ByteSize

/-- Files, each at its own place. -/
structure Files where
  entries : List (Place × List UInt8)
  deriving DecidableEq

namespace Files

def get? (files : Files) (place : Place) : Option (List UInt8) :=
  files.entries.lookup place

/-- The files after one is written, in place of the one that was there. -/
def put (files : Files) (place : Place) (content : List UInt8) : Files :=
  if (files.get? place).isSome then
    ⟨files.entries.map fun entry =>
      if entry.1 = place then (place, content) else entry⟩
  else ⟨files.entries ++ [(place, content)]⟩

def isDirectory (files : Files) (place : Place) : Bool :=
  place.isEmpty ||
    files.entries.any fun entry => place.isPrefixOf entry.1 && entry.1 ≠ place

/-- A directory on the way along a path. -/
inductive Position where
  | inside (place : Place)
  | outside

/-- Where the next component of a path leads, which must be a directory. -/
def enter (files : Files) (position : Position) (name : Name) :
    Except FileError Position :=
  if name = ['.'] then .ok position
  else if name.isTooLong then .error .nameTooLong
  else
    match position, decide (name = ['.', '.']) with
    | .outside, true => .ok .outside
    | .outside, false => .error .missing
    | .inside place, true =>
        .ok (if place.isEmpty then .outside else .inside place.dropLast)
    | .inside place, false =>
        let next := place ++ [name]
        if files.isDirectory next then .ok (.inside next)
        else if (files.get? next).isSome then .error .notDirectory
        else .error .missing

/-- What a path leads to. -/
inductive Target where
  /-- A directory, named by the path as one. -/
  | directory
  /-- A name in a directory, whatever is there. -/
  | entry (parent : Position) (name : Name)

/-- What a path leads to, if all directories on the way are there. -/
def target (files : Files) (path : String) : Except FileError Target :=
  if longestPath < path.utf8ByteSize then .error .nameTooLong
  else
    let names := (Path.pieces '/' path.toList).filter (· ≠ [])
    let start := if ['/'].isPrefixOf path.toList then .outside else .inside []
    match names.getLast? with
    | none => if path.isEmpty then .error .missing else .ok .directory
    | some last => do
        let position ← names.dropLast.foldlM files.enter start
        if last = ['.'] ∨ last = ['.', '.'] then .ok .directory
        else .ok (.entry position last)

/-- Whether a path must lead to a directory because of a slash at its end. -/
def endsInSlash (path : String) : Bool :=
  path.toList.getLast? = some '/'

/-- Reads the file to which a path leads. -/
def read (files : Files) (path : String) : Except FileError (List UInt8) := do
  match ← files.target path with
  | .directory => .error .isDirectory
  | .entry parent name =>
      if name.isTooLong then .error .nameTooLong
      else
        match parent with
        | .outside => .error .missing
        | .inside parent =>
            let place := parent ++ [name]
            if files.isDirectory place then .error .isDirectory
            else
              match files.get? place with
              | none => .error .missing
              | some content =>
                  if endsInSlash path then .error .notDirectory else .ok content

/-- Writes the file to which a path leads; nothing changes if that fails. -/
def write (files : Files) (path : String) (content : List UInt8) :
    Except FileError Files := do
  match ← files.target path with
  | .directory => .error .isDirectory
  | .entry parent name =>
      if endsInSlash path then .error .isDirectory
      else if name.isTooLong then .error .nameTooLong
      else
        match parent with
        | .outside => .error .missing
        | .inside parent =>
            let place := parent ++ [name]
            if files.isDirectory place then .error .isDirectory
            else .ok (files.put place content)

def ofList (given : List (String × List UInt8)) : Files :=
  given.foldl (fun files entry => files.put (Path.components entry.1) entry.2) ⟨[]⟩

def pathOf (place : Place) : String :=
  "/".intercalate (place.map String.ofList)

end Files

end Cassette.Console
