import Mathlib.Algebra.Ring.Nat
import Cassette.Proofs.Signal.Length
import Cassette.Proofs.Tape.Impulses

/-!
# When the signal of an image fits

The room for a signal grows by 40 values for each byte of the image, and the
signal by 26 to 42 values, two more for each bit that is set.  Which images fit
thus depends on their length and on their set bits.  The first image that does
not fit has more than half a megabyte, all of it set.

A signal that fits never fills its room to the last value, and it takes more than a
twentieth of it even where no bit is set.  The percentage that is logged with it stays
within these bounds (`Tape.percent_of_encodeLogged`).
-/

namespace Cassette

open Signal

/-- Five impulses for each marker and at least 13 for each byte. -/
theorem DecodedTape.length_impulses (tape : DecodedTape) :
    tape.impulses.length = tape.headerSync + tape.dataSync + 10 +
      13 * tape.image.length + Bits.onesIn tape.image := by
  simp only [impulses, image, List.length_append, Impulse.length_synchronization,
    Impulse.length_frames, Bits.onesIn_append]
  omega

namespace Tape

theorem length_trainOf (image : List UInt8) :
    (trainOf image).length = 74421 + 26 * image.length + 2 * Bits.onesIn image := by
  have hheader : (DecodedTape.ofImage image).headerSync = 30000 := rfl
  have hdata : (DecodedTape.ofImage image).dataSync = 7200 := rfl
  rw [trainOf, List.length_cons, Impulse.length_train, DecodedTape.length_impulses, hheader,
    hdata, DecodedTape.image_ofImage]
  omega

theorem length_trainOf_le_iff (image : List UInt8) :
    (trainOf image).length ≤ capacityFor image.length ↔
      Bits.onesIn image < 7 * image.length + 562790 := by
  rw [length_trainOf, capacityFor]
  omega

theorem encode_of_fits {image : List UInt8} (hlength : headerLength ≤ image.length)
    (hones : Bits.onesIn image < 7 * image.length + 562790) :
    encode image = .ok ⟨(trainOf image).toArray, capacityFor image.length⟩ := by
  rw [encode_eq hlength, if_pos ((length_trainOf_le_iff image).2 hones)]

theorem encode_of_not_fits {image : List UInt8} (hlength : headerLength ≤ image.length)
    (hones : 7 * image.length + 562790 ≤ Bits.onesIn image) :
    encode image = .error (.capacityExceeded (capacityFor image.length)) := by
  rw [encode_eq hlength, if_neg]
  rw [length_trainOf_le_iff]
  omega

/-- The bytes set aside for a tape go by the length of its image alone. -/
theorem capacityBytes_of_encode {image : List UInt8} {tape : Tape} (h : encode image = .ok tape) :
    tape.capacityBytes = 80 * (image.length + 30000) := by
  obtain ⟨-, rfl⟩ := eq_of_encode h
  simp only [capacityBytes, capacityFor]
  omega

/-- An image is too short, or its signal fits, or it does not. -/
theorem encode_cases (image : List UInt8) :
    (image.length < headerLength ∧
        encode image = .error (.imageTooShort image.length headerLength)) ∨
      (headerLength ≤ image.length ∧ 7 * image.length + 562790 ≤ Bits.onesIn image ∧
        encode image = .error (.capacityExceeded (capacityFor image.length))) ∨
      (headerLength ≤ image.length ∧ Bits.onesIn image < 7 * image.length + 562790 ∧
        encode image = .ok ⟨(trainOf image).toArray, capacityFor image.length⟩) := by
  by_cases hlength : headerLength ≤ image.length
  · by_cases hones : Bits.onesIn image < 7 * image.length + 562790
    · exact .inr (.inr ⟨hlength, hones, encode_of_fits hlength hones⟩)
    · exact .inr (.inl ⟨hlength, by omega, encode_of_not_fits hlength (by omega)⟩)
  · exact .inl ⟨by omega, encode_of_short (by omega)⟩

/-- Up to 562790 bytes only the image of that many full bytes has too many bits
set. -/
theorem fits_of_length_le {image : List UInt8} (hlength : image.length ≤ 562790)
    (hfull : image ≠ List.replicate 562790 0xff) :
    Bits.onesIn image < 7 * image.length + 562790 := by
  have hle := Bits.onesIn_le image
  -- At most eight bits to a byte leave no other way to reach the bound.
  refine Nat.lt_of_not_le fun hones => ?_
  have hall : Bits.onesIn image = 8 * image.length := by omega
  have hexact : image.length = 562790 := by omega
  have hreplicate := Bits.eq_replicate_of_onesIn hall
  rw [hexact] at hreplicate
  exact hfull hreplicate

theorem encode_eq_imageTooShort_iff (image : List UInt8) :
    encode image = .error (.imageTooShort image.length 32) ↔ image.length < 32 := by
  constructor
  · intro h
    rcases encode_cases image with ⟨hlength, _⟩ | ⟨_, _, hencode⟩ | ⟨_, _, hencode⟩
    · exact hlength
    · rw [hencode] at h
      cases h
    · rw [hencode] at h
      cases h
  · exact encode_of_short

theorem encode_eq_capacityExceeded_iff (image : List UInt8) :
    encode image = .error (.capacityExceeded ((image.length + 30000) * 40)) ↔
      32 ≤ image.length ∧ 7 * image.length + 562790 ≤ Bits.onesIn image := by
  constructor
  · intro h
    rcases encode_cases image with ⟨_, hencode⟩ | ⟨hlength, hones, _⟩ | ⟨_, _, hencode⟩
    · rw [hencode] at h
      cases h
    · exact ⟨hlength, hones⟩
    · rw [hencode] at h
      cases h
  · rintro ⟨hlength, hones⟩
    exact encode_of_not_fits hlength hones

theorem error_of_encode {image : List UInt8} {error : TapeError}
    (h : encode image = .error error) :
    error = .imageTooShort image.length 32 ∨
      error = .capacityExceeded ((image.length + 30000) * 40) := by
  rcases encode_cases image with ⟨_, hencode⟩ | ⟨_, _, hencode⟩ | ⟨_, _, hencode⟩
  · rw [hencode] at h
    cases h
    exact .inl rfl
  · rw [hencode] at h
    cases h
    exact .inr rfl
  · rw [hencode] at h
    cases h

theorem encode_replicate_full :
    encode (List.replicate 562790 0xff) =
      .error (.capacityExceeded ((562790 + 30000) * 40)) := by
  have hlength := @List.length_replicate _ 562790 (0xff : UInt8)
  have hones := Bits.onesIn_replicate 562790 0xff
  have height : Bits.ones 0xff = 8 := by decide
  have h := (encode_eq_capacityExceeded_iff (List.replicate 562790 0xff)).2
    ⟨by omega, by omega⟩
  rw [hlength] at h
  exact h

/-- What comes of an image, exactly: an image without a full header is too
short, an image with too many set bits for its length does not fit, and any
other becomes a tape of known length.  The last three parts say where the second
case begins. -/
theorem encode_outcome (image : List UInt8) :
    (encode image = .error (.imageTooShort image.length 32) ↔ image.length < 32) ∧
    (encode image = .error (.capacityExceeded ((image.length + 30000) * 40)) ↔
      32 ≤ image.length ∧ 7 * image.length + 562790 ≤ Bits.onesIn image) ∧
    (32 ≤ image.length → Bits.onesIn image < 7 * image.length + 562790 →
      ∃ tape, encode image = .ok tape ∧
        tape.pulses.size = 74421 + 26 * image.length + 2 * Bits.onesIn image ∧
        tape.capacity = (image.length + 30000) * 40 ∧ tape.pulses.size < tape.capacity) ∧
    (∀ error, encode image = .error error →
      error = .imageTooShort image.length 32 ∨
        error = .capacityExceeded ((image.length + 30000) * 40)) ∧
    (32 ≤ image.length → image.length ≤ 562789 → ∃ tape, encode image = .ok tape) ∧
    (image.length = 562790 → image ≠ List.replicate 562790 0xff →
      ∃ tape, encode image = .ok tape) ∧
    encode (List.replicate 562790 0xff) = .error (.capacityExceeded ((562790 + 30000) * 40)) := by
  refine ⟨encode_eq_imageTooShort_iff image, encode_eq_capacityExceeded_iff image, ?_,
    fun _ => error_of_encode, ?_, ?_, encode_replicate_full⟩
  · intro hlength hones
    refine ⟨_, encode_of_fits hlength hones, length_trainOf image, rfl, ?_⟩
    -- The train has an odd number of values and the room an even one.
    show (trainOf image).length < capacityFor image.length
    rw [length_trainOf, capacityFor]
    omega
  · intro hlength hle
    have hfull : image ≠ List.replicate 562790 0xff := by
      rintro rfl
      rw [List.length_replicate] at hle
      omega
    exact ⟨_, encode_of_fits hlength (fits_of_length_le (by omega) hfull)⟩
  · intro hlength hfull
    have hheader : headerLength ≤ image.length := by
      rw [hlength, headerLength]
      omega
    exact ⟨_, encode_of_fits hheader (fits_of_length_le (by omega) hfull)⟩

/-- One byte of data with all of its bits set, an image without a full header,
and the longest image without a set bit that is no longer than the first one
that does not fit. -/
theorem encode_outcome_of_three_images :
    (∃ tape, encode (List.replicate 32 0 ++ [0xff]) = .ok tape ∧
      tape.pulses.size = 75295 ∧ tape.capacity = 1201320) ∧
    (∃ tape, encode (List.replicate 32 0 ++ [0xff]) = .ok tape) ∧
    (∃ error, encode (List.replicate 31 0) = .error error ∧
      (error = .imageTooShort 31 32 ∨ error = .capacityExceeded 1201240)) ∧
    ∃ tape, encode (List.replicate 562790 0) = .ok tape := by
  obtain ⟨_, _, hfits, _, hshort, _, _⟩ := encode_outcome (List.replicate 32 0 ++ [0xff])
  obtain ⟨tape, hencode, hsize, hcapacity, _⟩ := hfits (by decide) (by decide)
  obtain ⟨_, _, _, herror, _, _, _⟩ := encode_outcome (List.replicate 31 0)
  obtain ⟨_, _, _, _, _, hsameLength, _⟩ := encode_outcome (List.replicate 562790 0)
  have htooShort : encode (List.replicate 31 0) = .error (.imageTooShort 31 32) :=
    encode_of_short (by decide)
  refine ⟨⟨tape, hencode, hsize, hcapacity⟩, hshort (by decide) (by decide),
    ⟨_, htooShort, herror _ htooShort⟩, ?_⟩
  · refine hsameLength List.length_replicate fun h => ?_
    have hmem : (0 : UInt8) ∈ List.replicate 562790 (0xff : UInt8) := by
      rw [← h]
      exact List.mem_replicate.2 ⟨by omega, rfl⟩
    exact absurd (List.eq_of_mem_replicate hmem) (by decide)

/-! ## How much of the room is used -/

/-- A signal that fits, its room, and that one value at least is left of it. -/
theorem size_of_encode {image : List UInt8} {tape : Tape} (h : encode image = .ok tape) :
    tape.pulses.size = 74421 + 26 * image.length + 2 * Bits.onesIn image ∧
      tape.capacity = 40 * image.length + 1200000 ∧ tape.pulses.size < tape.capacity := by
  rcases encode_cases image with ⟨_, hencode⟩ | ⟨_, _, hencode⟩ | ⟨_, hones, hencode⟩
  · rw [hencode] at h
    cases h
  · rw [hencode] at h
    cases h
  · rw [hencode] at h
    cases h
    have hsize := length_trainOf image
    have hcapacity : capacityFor image.length = 40 * image.length + 1200000 := by
      rw [capacityFor]
      omega
    refine ⟨hsize, hcapacity, ?_⟩
    show (trainOf image).length < capacityFor image.length
    omega

/-- Without a set bit the signal still takes six hundredths of the room. -/
theorem six_le_usedPercent {image : List UInt8} {tape : Tape} (h : encode image = .ok tape) :
    6 ≤ tape.usedPercent := by
  obtain ⟨hsize, hcapacity, hlt⟩ := size_of_encode h
  rw [usedPercent, Nat.le_div_iff_mul_le (Nat.zero_lt_of_lt hlt)]
  omega

theorem usedPercent_le {image : List UInt8} {tape : Tape} (h : encode image = .ok tape) :
    tape.usedPercent ≤ 99 := by
  obtain ⟨-, -, hlt⟩ := size_of_encode h
  rw [usedPercent, ← Nat.lt_succ_iff, Nat.div_lt_iff_lt_mul (Nat.zero_lt_of_lt hlt)]
  omega

section Words

variable {image : List UInt8} {tape : Tape} (h : encode image = .ok tape)
  (hwide : tape.pulses.size * 100 < 2 ^ 64)

include h hwide

/-- If a word of 64 bits holds a hundred times the size of the signal, it holds the room. -/
theorem toNat_capacity : (UInt64.ofNat tape.capacity).toNat = tape.capacity := by
  obtain ⟨hsize, hcapacity, -⟩ := size_of_encode h
  have hroom : tape.capacity < 2 ^ 64 := by omega
  exact UInt64.toNat_ofNat_of_lt' hroom

/-- Words of 64 bits then come to the percentage. -/
theorem toNat_percent :
    (UInt64.ofNat tape.pulses.size * 100 / UInt64.ofNat tape.capacity).toNat =
      tape.usedPercent := by
  have hused : tape.pulses.size < 2 ^ 64 := by omega
  have hproduct : (UInt64.ofNat tape.pulses.size * 100).toNat = tape.pulses.size * 100 := by
    rw [UInt64.toNat_mul, UInt64.toNat_ofNat_of_lt' hused]
    exact Nat.mod_eq_of_lt hwide
  rw [UInt64.toNat_div, hproduct, toNat_capacity h hwide, usedPercent]

end Words

/-- What encoding an image logs.  An image that becomes a tape gives one record.  The
percentage in it is that of the room which the signal takes, rounded down, and is neither
below 6 nor above 99; the room is not empty, and words of 64 bits come to the same
percentage as long as they hold a hundred times the size.  An image that does not become a
tape gives no record. -/
theorem percent_of_encodeLogged (image : List UInt8) :
    (∀ tape, encode image = .ok tape →
      let percent := 100 * tape.pulses.size / tape.capacity
      encodeLogged image =
          ⟨[.encoded image.length tape.capacity tape.pulses.size percent], .ok tape⟩ ∧
        tape.capacity ≠ 0 ∧ 6 ≤ percent ∧ percent ≤ 99 ∧
        (100 * tape.pulses.size < 2 ^ 64 →
          UInt64.ofNat tape.capacity ≠ 0 ∧
            (UInt64.ofNat tape.pulses.size * 100 / UInt64.ofNat tape.capacity).toNat = percent)) ∧
    ∀ error, encode image = .error error → encodeLogged image = ⟨[], .error error⟩ := by
  refine ⟨fun tape h => ?_, fun error => encodeLogged_of_error⟩
  intro percent
  have hpercent : percent = tape.usedPercent := by
    simp only [percent, usedPercent, Nat.mul_comm]
  obtain ⟨-, -, hlt⟩ := size_of_encode h
  have hroom : tape.capacity ≠ 0 := Nat.ne_zero_of_lt hlt
  rw [hpercent]
  refine ⟨encodeLogged_of_ok h, hroom, six_le_usedPercent h, usedPercent_le h, fun hwide => ?_⟩
  rw [Nat.mul_comm] at hwide
  refine ⟨fun hzero => hroom ?_, toNat_percent h hwide⟩
  rw [← toNat_capacity h hwide, hzero]
  rfl

/-- An image of equal bytes that has a header fits by the set bits of its byte. -/
theorem exists_encode_replicate (count : Nat) (byte : UInt8) (hlength : 32 ≤ count)
    (hones : count * Bits.ones byte < 7 * count + 562790) :
    ∃ tape, encode (List.replicate count byte) = .ok tape ∧
      tape.pulses.size = 74421 + 26 * count + 2 * (count * Bits.ones byte) ∧
      tape.capacity = 40 * count + 1200000 := by
  have hcount : (List.replicate count byte).length = count := List.length_replicate
  have hbits := Bits.onesIn_replicate count byte
  obtain ⟨tape, htape⟩ : ∃ tape, encode (List.replicate count byte) = .ok tape :=
    ⟨_, encode_of_fits (by rw [hcount]; exact hlength) (by rw [hcount, hbits]; exact hones)⟩
  obtain ⟨hsize, hcapacity, -⟩ := size_of_encode htape
  rw [hcount] at hsize hcapacity
  rw [hbits] at hsize
  exact ⟨tape, htape, hsize, hcapacity⟩

/-- The shortest image without a set bit and the longest one of full bytes that fits are at
the two ends.  A byte less than a header leaves no record. -/
theorem percent_of_encodeLogged_of_three_images :
    (∃ tape, encode (List.replicate 32 0) = .ok tape ∧
      encodeLogged (List.replicate 32 0) = ⟨[.encoded 32 1201280 75253 6], .ok tape⟩) ∧
    (∃ tape, encode (List.replicate 562789 0xff) = .ok tape ∧
      encodeLogged (List.replicate 562789 0xff) =
        ⟨[.encoded 562789 23711560 23711559 99], .ok tape⟩ ∧
      (UInt64.ofNat 23711559 * 100 / UInt64.ofNat 23711560).toNat = 99) ∧
    encodeLogged (List.replicate 31 0) = ⟨[], .error (.imageTooShort 31 32)⟩ := by
  have hzero : Bits.ones 0 = 0 := by decide
  have height : Bits.ones 0xff = 8 := by decide
  obtain ⟨zeros, hzeros, hsize, hcapacity⟩ :=
    exists_encode_replicate 32 0 (by decide) (by decide)
  obtain ⟨full, hfull, hsizeFull, hcapacityFull⟩ :=
    exists_encode_replicate 562789 0xff (by decide) (by rw [height]; decide)
  obtain ⟨hloggedZeros, -⟩ := percent_of_encodeLogged (List.replicate 32 0)
  obtain ⟨hloggedFull, -⟩ := percent_of_encodeLogged (List.replicate 562789 0xff)
  obtain ⟨-, hloggedShort⟩ := percent_of_encodeLogged (List.replicate 31 0)
  refine ⟨⟨zeros, hzeros, ?_⟩, ⟨full, hfull, ?_⟩, hloggedShort _ (encode_of_short (by decide))⟩
  · obtain ⟨hlogged, -⟩ := hloggedZeros zeros hzeros
    simp only [hsize, hcapacity, hzero, List.length_replicate] at hlogged
    exact hlogged
  · obtain ⟨hlogged, -, -, -, hwords⟩ := hloggedFull full hfull
    simp only [hsizeFull, hcapacityFull, height, List.length_replicate] at hlogged hwords
    exact ⟨hlogged, (hwords (by decide)).2⟩

end Tape

end Cassette
