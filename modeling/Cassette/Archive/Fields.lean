/-!
# Fields of a record

The records of an archive are sequences of little-endian numbers and byte
strings.  A field is read off the front of some bytes; `natural_append` says that
reading takes back exactly what `numberBytes` wrote.
-/

namespace Cassette.Archive

/-- The number that bytes stand for, the least significant first. -/
def number : List UInt8 → Nat
  | [] => 0
  | byte :: rest => byte.toNat + 256 * number rest

/-- A number in the given count of bytes, the least significant first. -/
def numberBytes : Nat → Nat → List UInt8
  | 0, _ => []
  | width + 1, value => UInt8.ofNat value :: numberBytes width (value / 256)

@[simp]
theorem length_numberBytes (width value : Nat) :
    (numberBytes width value).length = width := by
  induction width generalizing value with
  | zero => rfl
  | succ width ih => simp [numberBytes, ih]

/-- The first number that does not fit into the given count of bytes. -/
def numberBound : Nat → Nat
  | 0 => 1
  | width + 1 => 256 * numberBound width

theorem number_numberBytes {width value : Nat} (h : value < numberBound width) :
    number (numberBytes width value) = value := by
  induction width generalizing value with
  | zero =>
    simp only [numberBound] at h
    simp only [numberBytes, number]
    omega
  | succ width ih =>
    simp only [numberBound] at h
    have hd : value / 256 < numberBound width := by omega
    simp only [numberBytes, number, ih hd, UInt8.toNat_ofNat']
    omega

/-- Reads the front of some bytes, or fails if they are not as they should be. -/
abbrev Fields := StateT (List UInt8) Option

namespace Fields

def bytes (count : Nat) : Fields (List UInt8) := fun input =>
  let front := input.take count
  if front.length = count then some (front, input.drop count) else none

/-- A number in the given count of bytes. -/
def natural (width : Nat) : Fields Nat := fun input =>
  (bytes width input).map fun (found, rest) => (number found, rest)

/-- Fails unless the next bytes are those expected. -/
def signature (expected : List UInt8) : Fields Unit := fun input =>
  if expected.isPrefixOf input then some ((), input.drop expected.length) else none

/-- The answer of reading a whole record off the front of some bytes. -/
def of? {α : Type} (fields : Fields α) (input : List UInt8) : Option α :=
  (fields input).map Prod.fst

theorem bytes_append (front rest : List UInt8) :
    bytes front.length (front ++ rest) = some (front, rest) := by
  simp [bytes]

theorem natural_append {width value : Nat} (h : value < numberBound width)
    (rest : List UInt8) :
    natural width (numberBytes width value ++ rest) = some (value, rest) := by
  have hb := bytes_append (numberBytes width value) rest
  rw [length_numberBytes] at hb
  simp [natural, hb, number_numberBytes h]

theorem signature_append (expected rest : List UInt8) :
    signature expected (expected ++ rest) = some ((), rest) := by
  simp [signature]

end Fields

end Cassette.Archive
