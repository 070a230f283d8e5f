import Cassette.Archive.BitSource

/-!
# Prefix codes

A code of a deflate stream is given by the length of each symbol's code word, or
zero for a symbol that is not used.  The words are then fixed: shorter words
come first, and words of one length follow the order of the symbols.  Decoding
needs no more than the number of words of each length and the symbols in the
order of their words.
-/

namespace Cassette.Archive

/-- The number of words of each length from one on, and the symbols in the order
of their words. -/
structure PrefixCode where
  counts : List Nat
  symbols : Array Nat

namespace PrefixCode

/-- The longest word of a code, in bits. -/
def longest : Nat := 15

/-- How many symbols have words of each length from one on. -/
def countsOf (lengths : List Nat) : List Nat :=
  (List.range longest).map fun i => lengths.count (i + 1)

/-- The room that is left for longer words, when there is room for some words of
a length already and the counts of the words of each greater length are given.
There is none when the words take more room than there is. -/
def roomAfter (room : Nat) : List Nat → Option Nat
  | [] => some room
  | count :: rest =>
      if count ≤ 2 * room then roomAfter (2 * room - count) rest else none

/-- The symbols with words of a length, in order. -/
def symbolsOf (lengths : List Nat) (length : Nat) : List Nat :=
  (lengths.zipIdx.filter fun (found, _) => found = length).map Prod.snd

def ofLengths (lengths : List Nat) : PrefixCode :=
  ⟨countsOf lengths,
    ((List.range longest).flatMap fun i => symbolsOf lengths (i + 1)).toArray⟩

/-- The words take up all the room there is, neither less nor more, unless there
is no word or a single one of one bit. -/
def wellFormed (code : PrefixCode) : Bool :=
  match roomAfter 1 code.counts with
  | some 0 => true
  | _ => code.symbols.size ≤ 1 && code.counts.head? = some code.symbols.size

/-- The code with the given lengths, if they make one. -/
def ofLengths? (lengths : List Nat) : Option PrefixCode :=
  (some (ofLengths lengths)).filter wellFormed

/-- Reads on from a word that is not complete: `code` is the word so far with a
zero added, `first` is the first word of that length, and `index` words are
shorter. -/
def symbolFrom (symbols : Array Nat) :
    (counts : List Nat) → (code first index : Nat) → BitReader Nat
  | [], _, _, _ => failure
  | count :: counts, code, first, index => do
      let bit ← BitSource.next
      if code + bit.toNat < first + count then
        StateT.lift symbols[index + (code + bit.toNat - first)]?
      else
        symbolFrom symbols counts (2 * (code + bit.toNat)) (2 * (first + count))
          (index + count)

/-- Reads a word and answers with its symbol. -/
def symbol (code : PrefixCode) : BitReader Nat :=
  symbolFrom code.symbols code.counts 0 0 0

theorem consumes_symbolFrom (symbols : Array Nat) (counts : List Nat)
    (code first index : Nat) :
    BitSource.Consumes (symbolFrom symbols counts code first index) := by
  induction counts generalizing code first index with
  | nil => exact BitSource.consumes_failure
  | cons count counts ih =>
    refine BitSource.consumes_bind BitSource.consumes_next fun bit => ?_
    split
    · exact BitSource.consumes_lift _
    · exact ih _ _ _

/-- A word has at least one bit. -/
theorem size_symbol {code : PrefixCode} {source after : BitSource} {value : Nat}
    (h : code.symbol source = some (value, after)) : after.size < source.size := by
  obtain ⟨counts, symbols⟩ := code
  cases counts with
  | nil => cases h
  | cons count counts =>
    obtain ⟨bit, between, h₁, h₂⟩ := BitSource.bind_eq_some_iff.1 h
    have hs := BitSource.size_next h₁
    have : after.size ≤ between.size := by
      split at h₂
      · exact BitSource.consumes_lift _ h₂
      · exact consumes_symbolFrom _ _ _ _ _ h₂
    omega

end PrefixCode

end Cassette.Archive
