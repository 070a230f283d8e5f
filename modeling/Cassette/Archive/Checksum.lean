/-!
# The checksum of an entry

The content of an entry is kept with its cyclic redundancy check of 32 bits: the
remainder of the content as a polynomial over two elements, the least
significant bit of a byte first, begun and ended with all bits turned over.
-/

namespace Cassette.Archive

/-- One step of the division: the remainder moves down a bit, and what falls off
takes the divisor away. -/
def remainderStep (remainder : UInt32) : UInt32 :=
  if remainder &&& 1 = 1 then (remainder >>> 1) ^^^ 0xedb88320 else remainder >>> 1

/-- Brings one byte into the remainder. -/
def remainderByte (remainder : UInt32) (byte : UInt8) : UInt32 :=
  Nat.repeat remainderStep 8 (remainder ^^^ byte.toUInt32)

def checksum (bytes : List UInt8) : UInt32 :=
  bytes.foldl remainderByte 0xffffffff ^^^ 0xffffffff

end Cassette.Archive
