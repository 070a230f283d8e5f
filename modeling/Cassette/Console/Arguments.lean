/-!
# The command line

The arguments are read from left to right, and the first one that settles the
matter does: a request for help, or a mistake.  The switch for the debug log may
stand before the command and after it, once on each side.
-/

namespace Cassette.Console

/-- What the program is asked to do. -/
inductive Command where
  /-- Write the signal of the image in a file to another file. -/
  | encode (input output : String)
  /-- Check that the signal of the image in a file reads back. -/
  | verify (input : String)
  deriving DecidableEq

/-- What the arguments come to. -/
inductive Invocation where
  | run (debug : Bool) (command : Command)
  | help
  | misuse
  deriving DecidableEq

namespace Arguments

def debugSwitch : String := "--debug"

/-- Whether an argument asks for help; what follows the short form in the same
argument does not matter. -/
def asksHelp (argument : String) : Bool :=
  argument = "--help" || ['-', 'h'].isPrefixOf argument.toList

/-- Whether an argument is a switch, known or not.  A lone dash is a file name. -/
def isSwitch (argument : String) : Bool :=
  argument ≠ "-" && ['-'].isPrefixOf argument.toList

/-- Why the rest of the arguments is not looked at. -/
inductive Stop where
  | help
  | misuse
  deriving DecidableEq

/-- File names to the end of the arguments, after those already found. -/
def plainPaths (wanted : Nat) (found : List String) (rest : List String) :
    Except Stop (List String) :=
  let paths := found ++ rest
  if paths.length = wanted ∧ "" ∉ rest then .ok paths else .error .misuse

/-- What follows a command: whether the debug log is switched on there, and as
many file names as are wanted. -/
def paths (wanted : Nat) (debug : Bool) (found : List String) :
    List String → Except Stop (Bool × List String)
  | [] => (plainPaths wanted found []).map (debug, ·)
  | argument :: rest =>
      if argument = "--" then (plainPaths wanted found rest).map (debug, ·)
      else if argument = debugSwitch then
        if debug then .error .misuse else paths wanted true found rest
      else if asksHelp argument then .error .help
      else if isSwitch argument ∨ argument = "" ∨ wanted ≤ found.length then .error .misuse
      else paths wanted debug (found ++ [argument]) rest

/-- What a command comes to with the arguments that follow it. -/
def command (debug : Bool) (wanted : Nat) (make : List String → Option Command)
    (rest : List String) : Invocation :=
  match paths wanted false [] rest with
  | .error .help => .help
  | .error .misuse => .misuse
  | .ok (debugAfter, found) =>
      (make found).elim .misuse fun command => .run (debug || debugAfter) command

/-- The commands that help can be asked for. -/
def helpTopics : List String := ["encode", "verify", "help"]

/-- What a request for help comes to with the arguments that follow it. -/
def help : List String → Invocation
  | [] => .help
  | [topic] => if topic ∈ helpTopics then .help else .misuse
  | _ => .misuse

/-- What the arguments come to, the debug log being switched on already or not. -/
def parseFrom (debug : Bool) : List String → Invocation
  | [] => .misuse
  | argument :: rest =>
      if argument = debugSwitch then if debug then .misuse else parseFrom true rest
      else if asksHelp argument then .help
      else if argument = "encode" then
        command debug 2 (fun
          | [input, output] => some (.encode input output)
          | _ => none) rest
      else if argument = "verify" then
        command debug 1 (fun
          | [input] => some (.verify input)
          | _ => none) rest
      else if argument = "help" then help rest
      else .misuse

/-- What the arguments come to. -/
def parse (arguments : List String) : Invocation :=
  parseFrom false arguments

end Arguments

end Cassette.Console
