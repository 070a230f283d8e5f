/-!
# The names of entries

A name is written in UTF-8 when its entry says so, and in code page 437
otherwise.  Bytes that are no UTF-8 become replacement characters: one for each
longest piece that could begin a character, and one for each byte that could not.
-/

namespace Cassette.Archive.Name

/-- The characters of code page 437 from 128 on; below, it is ASCII. -/
def codePage437 : String :=
  "ÇüéâäàåçêëèïîìÄÅ" ++
  "ÉæÆôöòûùÿÖÜ¢£¥₧ƒ" ++
  "áíóúñÑªº¿⌐¬½¼¡«»" ++
  "░▒▓│┤╡╢╖╕╣║╗╝╜╛┐" ++
  "└┴┬├─┼╞╟╚╔╩╦╠═╬╧" ++
  "╨╤╥╙╘╒╓╫╪┘┌█▄▌▐▀" ++
  "αßΓπΣσµτΦΘΩδ∞φε∩" ++
  "≡±≥≤⌠⌡÷≈°∙·√ⁿ²■\u00a0"

/-- The character of a byte in code page 437. -/
def charOfByte (byte : UInt8) : Char :=
  if byte < 128 then Char.ofUInt8 byte
  else codePage437.toList.getD (byte.toNat - 128) ' '

/-- A range of bytes, both ends included. -/
structure ByteRange where
  least : UInt8
  greatest : UInt8

def ByteRange.contains (range : ByteRange) (byte : UInt8) : Bool :=
  range.least ≤ byte && byte ≤ range.greatest

/-- The bytes that continue a character in UTF-8. -/
def anyTail : ByteRange := ⟨0x80, 0xbf⟩

/-- What a first byte says of its character: the leading bits of the code point
and the ranges of the bytes that must follow.  The ranges leave out overlong
forms, surrogates and what lies beyond the last code point. -/
def ofLead (byte : UInt8) : Option (Nat × List ByteRange) :=
  if byte < 0x80 then some (byte.toNat, [])
  else if byte < 0xc2 then none
  else if byte < 0xe0 then some (byte.toNat % 32, [anyTail])
  else if byte < 0xf0 then
    let second :=
      if byte = 0xe0 then ⟨0xa0, 0xbf⟩ else if byte = 0xed then ⟨0x80, 0x9f⟩ else anyTail
    some (byte.toNat % 16, [second, anyTail])
  else if byte < 0xf5 then
    let second :=
      if byte = 0xf0 then ⟨0x90, 0xbf⟩ else if byte = 0xf4 then ⟨0x80, 0x8f⟩ else anyTail
    some (byte.toNat % 8, [second, anyTail, anyTail])
  else none

/-- What stands for bytes that are no character. -/
def replacement : Char := Char.ofNat 0xfffd

/-- A character whose first bytes were read: the bits so far and the ranges of the
bytes that are missing. -/
structure Unfinished where
  bits : Nat
  missing : List ByteRange

/-- A byte where a character may begin: what it completes, and what it begins. -/
def start (byte : UInt8) : List Char × Option Unfinished :=
  match ofLead byte with
  | none => ([replacement], none)
  | some (bits, []) => ([Char.ofNat bits], none)
  | some (bits, missing) => ([], some ⟨bits, missing⟩)

/-- A byte after an unfinished character, or where a character may begin. -/
def step (unfinished : Option Unfinished) (byte : UInt8) : List Char × Option Unfinished :=
  match unfinished with
  | none | some ⟨_, []⟩ => start byte
  | some ⟨bits, range :: missing⟩ =>
      if range.contains byte then
        let bits := bits * 64 + byte.toNat % 64
        if missing.isEmpty then ([Char.ofNat bits], none) else ([], some ⟨bits, missing⟩)
      else
        let (chars, unfinished) := start byte
        (replacement :: chars, unfinished)

/-- The characters of bytes in UTF-8, after an unfinished character if there is
one. -/
def utf8Chars (unfinished : Option Unfinished) : List UInt8 → List Char
  | [] => if unfinished.isSome then [replacement] else []
  | byte :: rest =>
      let (chars, unfinished) := step unfinished byte
      chars ++ utf8Chars unfinished rest

/-- The name that some bytes write. -/
def ofBytes (utf8 : Bool) (bytes : List UInt8) : String :=
  String.ofList (if utf8 then utf8Chars none bytes else bytes.map charOfByte)

end Cassette.Archive.Name
