/-!
# The bits of a byte

A byte is eight bits, the least significant first.  The tape carries bytes in
this order and a deflate stream is read in it.  `toByte_ofByte` and
`ofByte_toByte` say that nothing is lost either way.
-/

namespace Cassette.Bits

/-- The eight bits of a byte, least significant first. -/
def ofByte (byte : UInt8) : List Bool :=
  (List.range 8).map byte.toNat.testBit

/-- The number written by binary digits, least significant first. -/
def value : List Bool → Nat
  | [] => 0
  | bit :: rest => bit.toNat + 2 * value rest

/-- The byte written by binary digits, least significant first. -/
def toByte (bits : List Bool) : UInt8 :=
  UInt8.ofNat (value bits)

@[simp]
theorem length_ofByte (byte : UInt8) : (ofByte byte).length = 8 := by
  simp [ofByte]

theorem testBit_value (bits : List Bool) (i : Nat) :
    (value bits).testBit i = bits.getD i false := by
  induction bits generalizing i with
  | nil => simp [value]
  | cons bit rest ih =>
    cases i with
    | zero =>
      have h : (bit.toNat + 2 * value rest) % 2 = bit.toNat := by
        have : bit.toNat ≤ 1 := Bool.toNat_le bit
        omega
      rw [value, Nat.testBit_zero, h, List.getD_cons_zero]
      cases bit <;> rfl
    | succ i =>
      have h : (bit.toNat + 2 * value rest) / 2 = value rest := by
        have : bit.toNat ≤ 1 := Bool.toNat_le bit
        omega
      simp [value, Nat.testBit_succ, h, ih]

theorem value_ofByte (byte : UInt8) : value (ofByte byte) = byte.toNat := by
  refine Nat.eq_of_testBit_eq fun i => ?_
  rw [testBit_value]
  by_cases h : i < 8
  · simp [ofByte, List.getD_eq_getElem?_getD, h]
  · have hb : byte.toNat < 2 ^ i :=
      Nat.lt_of_lt_of_le byte.toNat_lt (Nat.pow_le_pow_right (by decide) (by omega))
    simp [ofByte, List.getD_eq_getElem?_getD, h, Nat.testBit_lt_two_pow hb]

@[simp]
theorem toByte_ofByte (byte : UInt8) : toByte (ofByte byte) = byte := by
  simp [toByte, value_ofByte]

theorem ofByte_toByte {bits : List Bool} (h : bits.length = 8) :
    ofByte (toByte bits) = bits := by
  have bound (bits : List Bool) : value bits < 2 ^ bits.length := by
    induction bits with
    | nil => simp [value]
    | cons bit rest ih =>
      have : bit.toNat ≤ 1 := Bool.toNat_le bit
      simp only [value, List.length_cons, Nat.pow_succ]
      omega
  have hv : value bits < 2 ^ 8 := h ▸ bound bits
  have hn : (toByte bits).toNat = value bits := by
    rw [toByte, UInt8.toNat_ofNat', Nat.mod_eq_of_lt hv]
  refine List.ext_getElem (by simp [h]) fun i h₁ h₂ => ?_
  simp [ofByte, hn, testBit_value, List.getD_eq_getElem?_getD, h₂]

end Cassette.Bits
