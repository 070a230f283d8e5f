import Cassette.Archive.Fields
import Cassette.Archive.PrefixCode

/-!
# Inflating

A deflate stream is a sequence of blocks, the last one marked.  A block holds
bytes as they are, or literals and references to what was put out before, coded
with fixed prefix codes or with codes given at its start.  A reference may reach
before the first byte, where there are zeros.  What follows the last block is not
looked at.
-/

namespace Cassette.Archive.Inflate

open BitSource

/-- The shortest length that a length symbol stands for, and the number of bits
that say how much is added to it. -/
def lengthTable : Array (Nat × Nat) :=
  #[(3, 0), (4, 0), (5, 0), (6, 0), (7, 0), (8, 0), (9, 0), (10, 0),
    (11, 1), (13, 1), (15, 1), (17, 1), (19, 2), (23, 2), (27, 2), (31, 2),
    (35, 3), (43, 3), (51, 3), (59, 3), (67, 4), (83, 4), (99, 4), (115, 4),
    (131, 5), (163, 5), (195, 5), (227, 5), (258, 0)]

/-- The shortest distance that a distance symbol stands for, and the number of
bits that say how much is added to it. -/
def distanceTable : Array (Nat × Nat) :=
  #[(1, 0), (2, 0), (3, 0), (4, 0), (5, 1), (7, 1), (9, 2), (13, 2),
    (17, 3), (25, 3), (33, 4), (49, 4), (65, 5), (97, 5), (129, 6), (193, 6),
    (257, 7), (385, 7), (513, 8), (769, 8), (1025, 9), (1537, 9),
    (2049, 10), (3073, 10), (4097, 11), (6145, 11), (8193, 12), (12289, 12),
    (16385, 13), (24577, 13)]

/-- The code of literals and lengths in a block with fixed codes. -/
def fixedLiterals : PrefixCode :=
  .ofLengths (List.replicate 144 8 ++ List.replicate 112 9 ++ List.replicate 24 7 ++
    List.replicate 8 8)

/-- The code of distances in a block with fixed codes. -/
def fixedDistances : PrefixCode :=
  .ofLengths (List.replicate 32 5)

/-- The value that a row of a table and the bits that follow stand for. -/
def tableValue (table : Array (Nat × Nat)) (row : Nat) : BitReader Nat := do
  let (least, extra) ← StateT.lift table[row]?
  pure (least + (← natural extra))

/-- What a symbol of the code of literals and lengths says. -/
inductive Token where
  | literal (byte : UInt8)
  | endOfBlock
  /-- A reference follows, whose length is in a row of the table. -/
  | length (row : Nat)

/-- The bytes come first, then the end of the block, then the lengths. -/
def Token.ofSymbol (symbol : Nat) : Token :=
  if symbol < 256 then .literal (UInt8.ofNat symbol)
  else if symbol = 256 then .endOfBlock
  else .length (symbol - 257)

/-- The length and the distance of a reference, after its length symbol. -/
def reference (distances : PrefixCode) (row : Nat) : BitReader (Nat × Nat) := do
  let length ← tableValue lengthTable row
  let distance ← tableValue distanceTable (← distances.symbol)
  pure (length, distance)

/-- The byte that was put out at a distance, or zero before the first one. -/
def behind (out : Array UInt8) (distance : Nat) : UInt8 :=
  if distance ≤ out.size then out.getD (out.size - distance) 0 else 0

/-- Puts out again, byte by byte, what is found at a distance. -/
def copy (distance : Nat) : Nat → Array UInt8 → Array UInt8
  | 0, out => out
  | length + 1, out => copy distance length (out.push (behind out distance))

theorem consumes_tableValue (table : Array (Nat × Nat)) (row : Nat) :
    Consumes (tableValue table row) :=
  consumes_bind (consumes_lift _) fun _ =>
    consumes_bind (consumes_natural _) fun _ => consumes_pure _

theorem consumes_symbol (code : PrefixCode) : Consumes code.symbol :=
  fun h => Nat.le_of_lt (PrefixCode.size_symbol h)

theorem consumes_reference (distances : PrefixCode) (row : Nat) :
    Consumes (reference distances row) :=
  consumes_bind (consumes_tableValue _ _) fun _ =>
    consumes_bind (consumes_symbol _) fun _ =>
      consumes_bind (consumes_tableValue _ _) fun _ => consumes_pure _

/-- Literals and references up to the symbol that ends the block, put out after
what was put out before. -/
def coded (literals distances : PrefixCode) (out : Array UInt8) :
    BitReader (Array UInt8) := fun source =>
  match _hs : literals.symbol source with
  | none => none
  | some (symbol, rest) =>
      match Token.ofSymbol symbol with
      | .literal byte => coded literals distances (out.push byte) rest
      | .endOfBlock => some (out, rest)
      | .length row =>
          match _hr : reference distances row rest with
          | none => none
          | some ((length, distance), rest) =>
              coded literals distances (copy distance length out) rest
termination_by source => source.size
decreasing_by
  · exact PrefixCode.size_symbol _hs
  · exact Nat.lt_of_le_of_lt (consumes_reference _ _ _hr) (PrefixCode.size_symbol _hs)

/-- The bytes of a block that holds them as they are; their number is given
twice, the second time with all bits turned over. -/
def stored (out : Array UInt8) : BitReader (Array UInt8) := do
  let header ← wholeBytes 4
  let length := number (header.take 2)
  if number (header.drop 2) + length = 0xffff then
    let bytes ← wholeBytes length
    pure (bytes.foldl Array.push out)
  else failure

/-- The order in which the lengths of the code for code lengths are given. -/
def lengthOrder : List Nat :=
  [16, 17, 18, 0, 8, 7, 9, 6, 10, 5, 11, 4, 12, 3, 13, 2, 14, 1, 15]

/-- Several numbers of the same count of bits. -/
def naturals (bits : Nat) : Nat → BitReader (List Nat)
  | 0 => pure []
  | count + 1 => do
      let first ← natural bits
      let rest ← naturals bits count
      pure (first :: rest)

/-- The length that a symbol of the code for code lengths stands for, given the
one before, and how often it is repeated. -/
def codeLength (previous : Option Nat) : Nat → BitReader (Nat × Nat)
  | 16 => do
      let length ← StateT.lift previous
      pure (length, 3 + (← natural 2))
  | 17 => do pure (0, 3 + (← natural 3))
  | 18 => do pure (0, 11 + (← natural 7))
  | length => pure (length, 1)

/-- As many code lengths as are missing, after those in `read`, which are listed
the last one first. -/
def codeLengths (code : PrefixCode) (read : List Nat) (missing : Nat) :
    BitReader (List Nat) :=
  if missing = 0 then pure read.reverse
  else do
    let symbol ← code.symbol
    let (length, times) ← codeLength read.head? symbol
    if _ : 0 < times ∧ times ≤ missing then
      codeLengths code (List.replicate times length ++ read) (missing - times)
    else failure
termination_by missing
decreasing_by omega

/-- The codes given at the start of a block. -/
def givenCodes : BitReader (PrefixCode × PrefixCode) := do
  let literals := 257 + (← natural 5)
  let distances := 1 + (← natural 5)
  let given := 4 + (← natural 4)
  if literals ≤ 286 ∧ distances ≤ 30 then
    let lengths ← naturals 3 given
    let ordered := (List.range 19).map fun symbol =>
      lengths.getD (lengthOrder.idxOf symbol) 0
    let code ← StateT.lift (PrefixCode.ofLengths? ordered)
    let all ← codeLengths code [] (literals + distances)
    let literalCode ← StateT.lift (PrefixCode.ofLengths? (all.take literals))
    let distanceCode ← StateT.lift (PrefixCode.ofLengths? (all.drop literals))
    pure (literalCode, distanceCode)
  else failure

/-- A block after the bit that says whether it is the last. -/
def block (out : Array UInt8) : BitReader (Array UInt8) := do
  match ← natural 2 with
  | 0 => stored out
  | 1 => coded fixedLiterals fixedDistances out
  | 2 => do
      let (literals, distances) ← givenCodes
      coded literals distances out
  | _ => failure

theorem consumes_coded (literals distances : PrefixCode) (out : Array UInt8) :
    Consumes (coded literals distances out) := by
  intro source after answer h
  fun_induction coded literals distances out source with
  | case1 => cases h
  | case2 _ _ _ _ hs _ _ ih => exact Nat.le_trans (ih h) (consumes_symbol _ hs)
  | case3 _ _ _ _ hs =>
    cases h
    exact consumes_symbol _ hs
  | case4 => cases h
  | case5 _ _ _ _ hs _ _ _ _ _ hr ih =>
    exact Nat.le_trans (ih h)
      (Nat.le_trans (consumes_reference _ _ hr) (consumes_symbol _ hs))

theorem consumes_stored (out : Array UInt8) : Consumes (stored out) :=
  consumes_bind (consumes_wholeBytes _) fun _ => by
    dsimp only
    split
    · exact consumes_bind (consumes_wholeBytes _) fun _ => consumes_pure _
    · exact consumes_failure

theorem consumes_naturals (bits count : Nat) : Consumes (naturals bits count) := by
  induction count with
  | zero => exact consumes_pure []
  | succ count ih =>
    exact consumes_bind (consumes_natural _) fun _ =>
      consumes_bind ih fun _ => consumes_pure _

theorem consumes_codeLength (previous : Option Nat) (symbol : Nat) :
    Consumes (codeLength previous symbol) := by
  unfold codeLength
  split
  · exact consumes_bind (consumes_lift _) fun _ =>
      consumes_bind (consumes_natural _) fun _ => consumes_pure _
  · exact consumes_bind (consumes_natural _) fun _ => consumes_pure _
  · exact consumes_bind (consumes_natural _) fun _ => consumes_pure _
  · exact consumes_pure _

theorem consumes_codeLengths (code : PrefixCode) (read : List Nat) (missing : Nat) :
    Consumes (codeLengths code read missing) := by
  fun_induction codeLengths code read missing with
  | case1 => exact consumes_pure _
  | case2 read missing _ ih =>
    refine consumes_bind (consumes_symbol _) fun _ =>
      consumes_bind (consumes_codeLength _ _) fun answer => ?_
    dsimp only
    split
    · exact ih _ _ ‹_›
    · exact consumes_failure

theorem consumes_givenCodes : Consumes givenCodes := by
  refine consumes_bind (consumes_natural _) fun _ =>
    consumes_bind (consumes_natural _) fun _ =>
      consumes_bind (consumes_natural _) fun _ => ?_
  split
  · exact consumes_bind (consumes_naturals _ _) fun _ =>
      consumes_bind (consumes_lift _) fun _ =>
        consumes_bind (consumes_codeLengths _ _ _) fun _ =>
          consumes_bind (consumes_lift _) fun _ =>
            consumes_bind (consumes_lift _) fun _ => consumes_pure _
  · exact consumes_failure

theorem consumes_block (out : Array UInt8) : Consumes (block out) := by
  refine consumes_bind (consumes_natural _) fun kind => ?_
  split
  · exact consumes_stored _
  · exact consumes_coded _ _ _
  · exact consumes_bind consumes_givenCodes fun _ => consumes_coded _ _ _
  · exact consumes_failure

/-- Blocks up to the last one, put out after what was put out before. -/
def blocks (out : Array UInt8) : BitReader (Array UInt8) := fun source =>
  match _hn : next source with
  | none => none
  | some (last, rest) =>
      match _hb : block out rest with
      | none => none
      | some (out, rest) => if last then some (out, rest) else blocks out rest
termination_by source => source.size
decreasing_by
  have := size_next _hn
  have := consumes_block _ _hb
  omega

end Inflate

/-- What a deflate stream stands for, unless it is broken or cut. -/
def inflate (stream : List UInt8) : Option (List UInt8) :=
  (Inflate.blocks #[] (.ofBytes stream)).map fun (out, _) => out.toList

end Cassette.Archive
