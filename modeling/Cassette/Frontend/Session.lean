import Cassette.Frontend.Config
import Cassette.Frontend.Loading
import Cassette.Keyboard.Layout

/-!
# A session

A session starts when the machine is booted and goes on frame by frame.  A file
waits until the machine had time to start and is then tried once.  Text is typed
key by key, one key a frame at most; keys of the user go to the machine at once.
Every step answers with its effects, in order.
-/

namespace Cassette.Frontend

open Keyboard

/-- The state of the front-end between two steps. -/
structure Session where
  config : Config
  keys : Queue
  pending : Option File
  /-- The time since the start, in microseconds.  A program that keeps it in a word of 64
  bits wraps at `2 ^ 64`, after more than four thousand million frames of the greatest
  length; this number has no bound. -/
  elapsed : Nat
  deriving DecidableEq

namespace Session

/-- Frames after the delay before loading, for which a success is not shown. -/
def graceFrames : Nat := 10

/-- The frames since the start, whatever the rate of the display. -/
def frames (session : Session) : Nat :=
  Clock.frames session.elapsed

/-- Types the text that the user asked for, if there is any. -/
def typeInput (session : Session) : Session :=
  { session with keys := session.config.input.elim session.keys session.keys.put }

/-- Boots the machine, with a file or without one. -/
def start (config : Config) (file : Option File) : Session × List Effect :=
  let session : Session := ⟨config, .empty config.keyDelay, file, 0⟩
  (if file.isNone then session.typeInput else session, [.call (.boot config.model)])

/-- Queues a file, in place of one that still waits. -/
def drop (session : Session) (file : File) : Session :=
  { session with pending := some file }

/-- The file to be tried in this frame, if the time has come and there is one. -/
def due (session : Session) : Option File :=
  if session.config.loadDelay < session.frames then session.pending else none

/-- Shows a success that comes late enough to be a surprise. -/
def success (session : Session) : List Effect :=
  if session.config.loadDelay + graceFrames < session.frames then [.flashSuccess] else []

/-- Tries a file, which does not wait any more. -/
def attempt (session : Session) (answers : Answers) (file : File) :
    Session × List Effect :=
  let session := { session with pending := none }
  match load session.config.system answers file with
  | ⟨effects, .ok text⟩ =>
      ({ session with keys := session.keys.putBytes text }.typeInput,
        effects ++ session.success)
  | ⟨effects, .error error⟩ =>
      (session, effects ++ [.log (.loadFailed file.name error), .flashError])

/-- Tries the file that is due. -/
def loadPending (session : Session) (answers : Answers) : Session × List Effect :=
  match session.due with
  | some file => session.attempt answers file
  | none => (session, [])

/-- Presses the key that is next, if it is time for one. -/
def typeKey (session : Session) (time : Nat) : Session × List Effect :=
  let (key, keys) := session.keys.get time
  ({ session with keys }, key.elim [] stroke)

/-- One frame of the display, which took some time. -/
def frame (session : Session) (time : Nat) (answers : Answers) : Session × List Effect :=
  let session := { session with elapsed := session.elapsed + time }
  let (session, loading) := session.loadPending answers
  let (session, typing) := session.typeKey time
  (session, loading ++ typing)

/-- A character of the user, pressed and released at once. -/
def charInput (session : Session) (c : Char) : List Effect :=
  (charKey session.config.system c).elim [] stroke

/-- The user presses a key that gives no character. -/
def keyDown (session : Session) (key : HostKey) : List Effect :=
  match hostKey session.config.system key with
  | some (.code code) => [.call (.keyDown code)]
  | some .triangle => [.call .triangle]
  | none => []

/-- The user releases a key that gives no character. -/
def keyUp (session : Session) (key : HostKey) : List Effect :=
  match hostKey session.config.system key with
  | some (.code code) => [.call (.keyUp code)]
  | some .triangle | none => []

/-- What can happen in a session.  A frame comes with the answers that the machine
gives in it. -/
inductive Step where
  | frame (time : Nat) (answers : Answers)
  | drop (file : File)
  | charInput (c : Char)
  | keyDown (key : HostKey)
  | keyUp (key : HostKey)
  deriving DecidableEq

/-- One step: the session afterwards and the effects. -/
def step (session : Session) : Step → Session × List Effect
  | .frame time answers => session.frame time answers
  | .drop file => (session.drop file, [])
  | .charInput c => (session, session.charInput c)
  | .keyDown key => (session, session.keyDown key)
  | .keyUp key => (session, session.keyUp key)

/-- Several steps: the session afterwards and the effects of each step. -/
def run (session : Session) : List Step → Session × List (List Effect)
  | [] => (session, [])
  | first :: rest =>
      let (session, effects) := session.step first
      let (session, others) := session.run rest
      (session, effects :: others)

end Session

end Cassette.Frontend
