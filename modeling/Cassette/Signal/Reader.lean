import Cassette.Signal.Error
import Cassette.Signal.Impulse

/-!
# Reading a train

A reader walks a train impulse by impulse.  Every error carries the position of
the reader when the step gave up: before a pair that is no impulse at all, after
a pair that is the wrong impulse for its place.  What a failing step has
consumed stays consumed, and later steps go on from there.
-/

namespace Cassette.Signal

/-- The values that are still to be read, and how many were read before them. -/
structure Reader where
  position : Nat
  rest : List UInt16
  deriving DecidableEq

namespace Reader

def ofTrain (train : List UInt16) : Reader :=
  ⟨0, train⟩

def atEnd (reader : Reader) : Bool :=
  reader.rest.isEmpty

end Reader

/-- A step of a reader.  The reader stays where it is when the step fails. -/
abbrev Reads := EStateM TapeError Reader

namespace Reads

/-- Gives up at the reader's position. -/
def malformed {α : Type} (defect : Defect) : Reads α := fun reader =>
  .error (.malformed reader.position defect) reader

/-- A single half-period of any length. -/
def silence : Reads UInt16 := fun reader =>
  match reader.rest with
  | [] => malformed .missingSilence reader
  | length :: rest => .ok length ⟨reader.position + 1, rest⟩

/-- The impulse ahead, which is not consumed. -/
def peek : Reads Impulse := fun reader =>
  match reader.rest with
  | first :: second :: _ =>
      match Impulse.ofPair? first second with
      | some impulse => .ok impulse reader
      | none => malformed .unknownImpulse reader
  | _ => malformed .truncatedImpulse reader

/-- The impulse ahead, which is consumed. -/
def impulse : Reads Impulse := fun reader =>
  match peek reader with
  | .ok ahead _ => .ok ahead ⟨reader.position + 2, reader.rest.drop 2⟩
  | .error error _ => .error error reader

/-- An impulse is read where the train goes on with its two half-periods. -/
theorem impulse_eq_ok_iff {reader after : Reader} {ahead : Impulse} :
    impulse reader = .ok ahead after ↔
      reader.rest = ahead.halfPeriod :: ahead.halfPeriod :: after.rest ∧
        after.position = reader.position + 2 := by
  obtain ⟨position, rest⟩ := reader
  obtain ⟨position', rest'⟩ := after
  match rest with
  | [] => simp [impulse, peek, malformed]
  | [_] => simp [impulse, peek, malformed]
  | first :: second :: rest =>
    match hp : Impulse.ofPair? first second with
    | none =>
      have hn : ¬(first = ahead.halfPeriod ∧ second = ahead.halfPeriod) := fun h => by
        rw [Impulse.ofPair?_eq_some_iff.2 h] at hp
        cases hp
      simp only [impulse, peek, malformed, hp, List.cons.injEq]
      constructor
      · intro h
        cases h
      · rintro ⟨⟨h₁, h₂, _⟩, _⟩
        exact absurd ⟨h₁, h₂⟩ hn
    | some found =>
      obtain ⟨rfl, rfl⟩ := Impulse.ofPair?_eq_some_iff.1 hp
      simp only [impulse, peek, Impulse.ofPair?_halfPeriod, List.drop_succ_cons,
        List.drop_zero, EStateM.Result.ok.injEq, Reader.mk.injEq, List.cons.injEq]
      constructor
      · rintro ⟨rfl, rfl, rfl⟩
        exact ⟨⟨rfl, rfl, rfl⟩, rfl⟩
      · rintro ⟨⟨h, _, rfl⟩, rfl⟩
        exact ⟨Impulse.halfPeriod_inj h, rfl, rfl⟩

theorem length_rest_of_impulse {reader after : Reader} {ahead : Impulse}
    (h : impulse reader = .ok ahead after) :
    after.rest.length + 2 = reader.rest.length := by
  simp [(impulse_eq_ok_iff.1 h).1]

/-- Consumes impulses up to and including the first long one; the short ones
are counted on top of `shorts`. -/
def shortRun (shorts : Nat) : Reads Nat := fun reader =>
  match h : impulse reader with
  | .ok .short after => shortRun (shorts + 1) after
  | .ok .long after => .ok shorts after
  | .error error after => .error error after
termination_by reader => reader.rest.length
decreasing_by
  have := length_rest_of_impulse h
  omega

/-- Consumes a synchronization run and the marker that closes it, and answers
with the number of short impulses in the run proper: the last four belong to
the marker. -/
def sync : Reads Nat := do
  let shorts ← shortRun 0
  if shorts < 4 then malformed .shortSynchronization else pure (shorts - 4)

/-- One bit: two short impulses or a long one. -/
def bit : Reads Bool := do
  match ← impulse with
  | .long => pure false
  | .short =>
      match ← impulse with
      | .short => pure true
      | .long => malformed .halfBit

def bits : Nat → Reads (List Bool)
  | 0 => pure []
  | count + 1 => do
      let first ← bit
      let rest ← bits count
      pure (first :: rest)

/-- The bits of a byte, without the marker that closes it. -/
def byte : Reads UInt8 := do
  pure (Bits.toByte (← bits 8))

/-- Consumes the given impulses, which are those of a marker. -/
def marker : List Impulse → Reads Unit
  | [] => pure ()
  | expected :: rest => do
      let found ← impulse
      if found = expected then marker rest else malformed .badEndOfByte

/-- The marker that closes a byte or a synchronization run. -/
def endOfByte : Reads Unit :=
  marker Impulse.endOfByte

def framedByte : Reads UInt8 := do
  let value ← byte
  endOfByte
  pure value

def framedBytes : Nat → Reads (List UInt8)
  | 0 => pure []
  | count + 1 => do
      let first ← framedByte
      let rest ← framedBytes count
      pure (first :: rest)

/-- A sequence of two steps succeeds when both do, one after the other. -/
theorem bind_eq_ok_iff {α β : Type} {step : Reads α} {next : α → Reads β}
    {reader after : Reader} {answer : β} :
    (step >>= next) reader = .ok answer after ↔
      ∃ found between, step reader = .ok found between ∧
        next found between = .ok answer after := by
  change EStateM.bind step next reader = _ ↔ _
  unfold EStateM.bind
  cases step reader <;> simp [and_assoc]

theorem length_rest_of_bit {reader after : Reader} {value : Bool}
    (h : bit reader = .ok value after) : after.rest.length < reader.rest.length := by
  obtain ⟨first, between, h₁, h₂⟩ := bind_eq_ok_iff.1 h
  have l₁ := length_rest_of_impulse h₁
  cases first with
  | long =>
    cases h₂
    omega
  | short =>
    obtain ⟨second, last, h₃, h₄⟩ := bind_eq_ok_iff.1 h₂
    have l₂ := length_rest_of_impulse h₃
    cases second <;> cases h₄
    omega

theorem length_rest_of_bits {count : Nat} {reader after : Reader} {values : List Bool}
    (h : bits count reader = .ok values after) :
    after.rest.length + count ≤ reader.rest.length := by
  induction count generalizing reader after values with
  | zero =>
    cases h
    omega
  | succ count ih =>
    obtain ⟨first, between, h₁, h₂⟩ := bind_eq_ok_iff.1 h
    obtain ⟨rest, last, h₃, h₄⟩ := bind_eq_ok_iff.1 h₂
    have l₁ := length_rest_of_bit h₁
    have l₂ := ih h₃
    cases h₄
    omega

theorem length_rest_of_marker {expected : List Impulse} {reader after : Reader}
    (h : marker expected reader = .ok () after) :
    after.rest.length ≤ reader.rest.length := by
  induction expected generalizing reader after with
  | nil =>
    cases h
    exact Nat.le_refl _
  | cons first rest ih =>
    obtain ⟨found, between, h₁, h₂⟩ := bind_eq_ok_iff.1 h
    have l₁ := length_rest_of_impulse h₁
    split at h₂
    · have l₂ := ih h₂
      omega
    · cases h₂

/-- A framed byte takes something off the train, so reading one after the other
comes to an end. -/
theorem length_rest_of_framedByte {reader after : Reader} {value : UInt8}
    (h : framedByte reader = .ok value after) :
    after.rest.length < reader.rest.length := by
  obtain ⟨value, between, h₁, h₂⟩ := bind_eq_ok_iff.1 h
  obtain ⟨digits, _, h₃, h₄⟩ := bind_eq_ok_iff.1 h₁
  obtain ⟨_, last, h₅, h₆⟩ := bind_eq_ok_iff.1 h₂
  have l₁ := length_rest_of_bits h₃
  have l₂ := length_rest_of_marker h₅
  cases h₄
  cases h₆
  omega

/-- Framed bytes up to the end of the train, after those in `read`, which are
listed the last one first. -/
def framedBytesToEnd (read : List UInt8) : Reads (List UInt8) := fun reader =>
  if reader.atEnd then .ok read.reverse reader
  else
    match _ : framedByte reader with
    | .ok value after => framedBytesToEnd (value :: read) after
    | .error error after => .error error after
termination_by reader => reader.rest.length
decreasing_by exact length_rest_of_framedByte ‹_›

end Reads

inductive Read where
  | silence
  | peek
  | impulse
  | sync
  | byte
  | endOfByte
  | framedByte
  deriving DecidableEq

/-- What a step found. -/
inductive Finding where
  | halfPeriod (length : UInt16)
  | impulse (kind : Impulse)
  | count (shorts : Nat)
  | byte (value : UInt8)
  | marker
  deriving DecidableEq

def Read.run : Read → Reads Finding
  | .silence => Finding.halfPeriod <$> Reads.silence
  | .peek => Finding.impulse <$> Reads.peek
  | .impulse => Finding.impulse <$> Reads.impulse
  | .sync => Finding.count <$> Reads.sync
  | .byte => Finding.byte <$> Reads.byte
  | .endOfByte => (fun _ => Finding.marker) <$> Reads.endOfByte
  | .framedByte => Finding.byte <$> Reads.framedByte

/-- One step of a reader: its answer, and the reader afterwards. -/
def Reader.read (reader : Reader) (step : Read) : Except TapeError Finding × Reader :=
  match step.run reader with
  | .ok found after => (.ok found, after)
  | .error error after => (.error error, after)

end Cassette.Signal
