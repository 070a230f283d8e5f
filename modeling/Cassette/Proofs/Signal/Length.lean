import Cassette.Proofs.Signal.Passage

/-!
# The length of what is written

A bit 1 takes one impulse more than a bit 0, so the number of impulses depends
on the number of bytes and on the number of bits that are set, and on nothing
else.
-/

namespace Cassette

/-- The number of bits of a byte that are set. -/
def Bits.ones (byte : UInt8) : Nat :=
  (Bits.ofByte byte).count true

/-- The number of bits that are set in all bytes together. -/
def Bits.onesIn : List UInt8 → Nat
  | [] => 0
  | byte :: bytes => Bits.ones byte + Bits.onesIn bytes

namespace Bits

@[simp]
theorem onesIn_nil : onesIn [] = 0 := rfl

@[simp]
theorem onesIn_cons (byte : UInt8) (bytes : List UInt8) :
    onesIn (byte :: bytes) = ones byte + onesIn bytes := rfl

@[simp]
theorem onesIn_append (front back : List UInt8) :
    onesIn (front ++ back) = onesIn front + onesIn back := by
  induction front with
  | nil => simp
  | cons byte front ih =>
      rw [List.cons_append, onesIn_cons, onesIn_cons, ih, Nat.add_assoc]

theorem onesIn_replicate (count : Nat) (byte : UInt8) :
    onesIn (List.replicate count byte) = count * ones byte := by
  induction count with
  | zero => simp
  | succ count ih =>
      rw [List.replicate_succ, onesIn_cons, ih, Nat.succ_mul]
      omega

theorem ones_le (byte : UInt8) : ones byte ≤ 8 := by
  have h := @List.count_le_length _ _ true (ofByte byte)
  rw [length_ofByte] at h
  exact h

theorem onesIn_le (bytes : List UInt8) : onesIn bytes ≤ 8 * bytes.length := by
  induction bytes with
  | nil => exact Nat.le_refl 0
  | cons byte bytes ih =>
      have hbyte := ones_le byte
      rw [onesIn_cons, List.length_cons]
      omega

/-- Only one byte has all of its bits set. -/
theorem eq_of_ones_eq_eight {byte : UInt8} (h : ones byte = 8) : byte = 0xff := by
  have hall : ∀ bit ∈ ofByte byte, true = bit :=
    List.count_eq_length.1 (h.trans (length_ofByte byte).symm)
  have hbits : ofByte byte = List.replicate 8 true :=
    List.eq_replicate_iff.2 ⟨length_ofByte byte, fun bit hbit => (hall bit hbit).symm⟩
  rw [← toByte_ofByte byte, hbits]
  rfl

theorem eq_replicate_of_onesIn {bytes : List UInt8} (h : onesIn bytes = 8 * bytes.length) :
    bytes = List.replicate bytes.length 0xff := by
  induction bytes with
  | nil => rfl
  | cons byte bytes ih =>
      have hbyte := ones_le byte
      have hrest := onesIn_le bytes
      rw [onesIn_cons, List.length_cons] at h
      have hfirst : byte = 0xff := eq_of_ones_eq_eight (by omega)
      have hbytes := ih (by omega)
      rw [List.length_cons, List.replicate_succ, ← hbytes, hfirst]

end Bits

namespace Signal.Impulse

theorem length_flatMap_ofBit (bits : List Bool) :
    (bits.flatMap ofBit).length = bits.length + bits.count true := by
  induction bits with
  | nil => rfl
  | cons bit bits ih =>
      cases bit with
      | false =>
          rw [List.flatMap_cons, List.length_append, ih, List.length_cons,
            List.count_cons_of_ne Bool.false_ne_true]
          show 1 + (bits.length + bits.count true) = _
          omega
      | true =>
          rw [List.flatMap_cons, List.length_append, ih, List.length_cons, List.count_cons_self]
          show 2 + (bits.length + bits.count true) = _
          omega

theorem length_ofByte (byte : UInt8) : (ofByte byte).length = 8 + Bits.ones byte := by
  rw [ofByte, length_flatMap_ofBit, Bits.length_ofByte]
  rfl

theorem length_frame (byte : UInt8) : (frame byte).length = 13 + Bits.ones byte := by
  rw [frame, List.length_append, length_ofByte]
  show 8 + Bits.ones byte + 5 = _
  omega

theorem length_frames (bytes : List UInt8) :
    (frames bytes).length = 13 * bytes.length + Bits.onesIn bytes := by
  induction bytes with
  | nil => rfl
  | cons byte bytes ih =>
      rw [frames_cons, List.length_append, ih, length_frame, List.length_cons, Bits.onesIn_cons]
      omega

theorem length_synchronization (count : Nat) : (synchronization count).length = count + 5 := by
  rw [synchronization, List.length_append, List.length_replicate]
  rfl

end Signal.Impulse

end Cassette
