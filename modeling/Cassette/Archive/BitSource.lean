import Cassette.Bits

/-!
# Bits from bytes

A deflate stream is read bit by bit, the least significant bit of a byte first,
and sometimes byte by byte from the next whole byte on.
-/

namespace Cassette.Archive

/-- What is left of the byte being read, and the bytes after it. -/
structure BitSource where
  ahead : List Bool
  bytes : List UInt8

/-- Reads bits, or fails when they run out or are not as they should be. -/
abbrev BitReader := StateT BitSource Option

namespace BitSource

/-- A source at the start of some bytes. -/
def ofBytes (bytes : List UInt8) : BitSource :=
  ⟨[], bytes⟩

def size (source : BitSource) : Nat :=
  source.ahead.length + 8 * source.bytes.length

def next : BitReader Bool
  | ⟨bit :: ahead, bytes⟩ => some (bit, ⟨ahead, bytes⟩)
  | ⟨[], []⟩ => none
  | ⟨[], byte :: bytes⟩ =>
      match Bits.ofByte byte with
      | bit :: ahead => some (bit, ⟨ahead, bytes⟩)
      | [] => none

def bits : Nat → BitReader (List Bool)
  | 0 => pure []
  | count + 1 => do
      let first ← next
      let rest ← bits count
      pure (first :: rest)

/-- A number in the given count of bits, the least significant first. -/
def natural (count : Nat) : BitReader Nat := do
  pure (Bits.value (← bits count))

/-- Whole bytes, after what is left of the byte being read. -/
def wholeBytes (count : Nat) : BitReader (List UInt8)
  | ⟨_, bytes⟩ =>
      let front := bytes.take count
      if front.length = count then some (front, ⟨[], bytes.drop count⟩) else none

/-- A reader that never gives bits back. -/
def Consumes {α : Type} (reader : BitReader α) : Prop :=
  ∀ {source after : BitSource} {answer : α},
    reader source = some (answer, after) → after.size ≤ source.size

theorem size_next {source after : BitSource} {bit : Bool}
    (h : next source = some (bit, after)) : after.size + 1 = source.size := by
  match source with
  | ⟨_ :: _, _⟩ =>
    simp only [next, Option.some.injEq, Prod.mk.injEq] at h
    obtain ⟨_, rfl⟩ := h
    simp [size]
    omega
  | ⟨[], []⟩ => simp [next] at h
  | ⟨[], byte :: bytes⟩ =>
    have hl := Bits.length_ofByte byte
    match hb : Bits.ofByte byte with
    | [] => simp [hb] at hl
    | first :: ahead =>
      simp only [next, hb, Option.some.injEq, Prod.mk.injEq] at h
      obtain ⟨_, rfl⟩ := h
      simp only [hb, List.length_cons] at hl
      simp [size]
      omega

theorem consumes_next : Consumes next := fun h => by
  have := size_next h
  omega

theorem consumes_pure {α : Type} (value : α) : Consumes (pure value : BitReader α) :=
  fun h => by
    cases h
    exact Nat.le_refl _

theorem consumes_lift {α : Type} (value : Option α) :
    Consumes (StateT.lift value : BitReader α) := fun {source after answer} h => by
  obtain ⟨_, _, h⟩ := Option.bind_eq_some_iff.1 h
  cases h
  exact Nat.le_refl _

theorem consumes_failure {α : Type} : Consumes (failure : BitReader α) :=
  fun h => nomatch h

theorem bind_eq_some_iff {α β : Type} {reader : BitReader α} {then_ : α → BitReader β}
    {source after : BitSource} {answer : β} :
    (reader >>= then_) source = some (answer, after) ↔
      ∃ found between, reader source = some (found, between) ∧
        then_ found between = some (answer, after) := by
  change StateT.bind reader then_ source = _ ↔ _
  simp [StateT.bind, Option.bind_eq_some_iff]

theorem consumes_bind {α β : Type} {reader : BitReader α} {then_ : α → BitReader β}
    (first : Consumes reader) (second : ∀ value, Consumes (then_ value)) :
    Consumes (reader >>= then_) := fun h => by
  obtain ⟨_, _, h₁, h₂⟩ := bind_eq_some_iff.1 h
  exact Nat.le_trans (second _ h₂) (first h₁)

theorem consumes_bits (count : Nat) : Consumes (bits count) := by
  induction count with
  | zero => exact consumes_pure []
  | succ count ih =>
    exact consumes_bind consumes_next fun _ =>
      consumes_bind ih fun _ => consumes_pure _

theorem consumes_natural (count : Nat) : Consumes (natural count) :=
  consumes_bind (consumes_bits count) fun _ => consumes_pure _

theorem consumes_wholeBytes (count : Nat) : Consumes (wholeBytes count) := by
  rintro ⟨ahead, bytes⟩ after answer h
  simp only [wholeBytes] at h
  split at h
  · cases h
    simp [size]
    omega
  · cases h

end BitSource

end Cassette.Archive
