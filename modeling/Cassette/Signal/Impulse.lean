import Cassette.Bits

/-!
# Impulses

The signal on a cassette is a train of half-periods, given by their lengths in
ticks.  Two equal half-periods in a row form an impulse, short or long.  A bit 1
is two short impulses and a bit 0 is a long one; a byte is its eight bits, the
least significant first, and is closed by a marker of its own.
-/

namespace Cassette.Signal

/-- The two kinds of impulse. -/
inductive Impulse where
  | short
  | long
  deriving DecidableEq

namespace Impulse

/-- The length of each of the two half-periods of an impulse, in ticks. -/
def halfPeriod : Impulse → UInt16
  | short => 833
  | long => 1666

/-- The impulse that two half-periods in a row form, if they form one. -/
def ofPair? (first second : UInt16) : Option Impulse :=
  if first = short.halfPeriod ∧ second = short.halfPeriod then some short
  else if first = long.halfPeriod ∧ second = long.halfPeriod then some long
  else none

/-- The half-periods of a list of impulses, two to an impulse. -/
def train (impulses : List Impulse) : List UInt16 :=
  impulses.flatMap fun impulse => [impulse.halfPeriod, impulse.halfPeriod]

/-- The marker that closes a byte or a synchronization run. -/
def endOfByte : List Impulse :=
  [short, short, short, short, long]

/-- A bit 1 is two short impulses, a bit 0 a long one. -/
def ofBit : Bool → List Impulse
  | true => [short, short]
  | false => [long]

/-- The impulses of a byte, without the marker that closes it. -/
def ofByte (byte : UInt8) : List Impulse :=
  (Bits.ofByte byte).flatMap ofBit

/-- A byte and the marker that closes it. -/
def frame (byte : UInt8) : List Impulse :=
  ofByte byte ++ endOfByte

theorem halfPeriod_inj {first second : Impulse}
    (h : first.halfPeriod = second.halfPeriod) : first = second := by
  cases first <;> cases second <;> first | rfl | exact absurd h (by decide)

theorem ofPair?_eq_some_iff {first second : UInt16} {impulse : Impulse} :
    ofPair? first second = some impulse ↔
      first = impulse.halfPeriod ∧ second = impulse.halfPeriod := by
  cases impulse <;> simp only [ofPair?, halfPeriod] <;> grind

@[simp]
theorem ofPair?_halfPeriod (impulse : Impulse) :
    ofPair? impulse.halfPeriod impulse.halfPeriod = some impulse :=
  ofPair?_eq_some_iff.2 ⟨rfl, rfl⟩

@[simp]
theorem train_nil : train [] = [] := rfl

@[simp]
theorem train_cons (impulse : Impulse) (rest : List Impulse) :
    train (impulse :: rest) = impulse.halfPeriod :: impulse.halfPeriod :: train rest := rfl

@[simp]
theorem train_append (front back : List Impulse) :
    train (front ++ back) = train front ++ train back := by
  simp [train]

theorem length_train (impulses : List Impulse) :
    (train impulses).length = 2 * impulses.length := by
  induction impulses with
  | nil => rfl
  | cons impulse rest ih => simp [ih]; omega

end Impulse

end Cassette.Signal
