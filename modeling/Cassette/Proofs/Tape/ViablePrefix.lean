import Cassette.Proofs.Signal.Orderly
import Cassette.Proofs.Tape.Impulses

/-!
# Errors at the earliest place

Reading a tape gives up at the first place where no tape can be reached any
more: the values before that place are the beginning of some tape
(`Extendable`), and what stands there is all that the error depends on.

The place is counted in two ways.  Where no impulse is ahead the error stands in
front of it, and where an impulse is out of place the error stands behind it.
The constructors of `Flaw` keep the two ways apart.
-/

namespace Cassette

open Signal Reads

/-- The wording tells the defects apart. -/
theorem Signal.Defect.message_inj {first second : Defect}
    (h : first.message = second.message) : first = second := by
  cases first <;> cases second <;> first | rfl | exact absurd h (by decide)

namespace DecodedTape

/-- Some train that starts with these values holds a tape. -/
def Extendable (front : List UInt16) : Prop :=
  ∃ more tape, ofTrain (front ++ more) = .ok tape

theorem orderly_readImpulses : Orderly AtEnd readImpulses :=
  orderly_sync.bind fun headerSync => (orderly_framedBytes headerLength).bind fun header =>
    orderly_sync.bind fun dataSync => (orderly_framedBytesToEnd []).map fun data =>
      DecodedTape.mk header data headerSync dataSync

/-- What is wrong behind the leading silence, and where. -/
inductive Flaw (train : List UInt16) : Nat → Defect → Prop where
  /-- The train ends where an impulse is wanted. -/
  | cut (heard : List Impulse) (tail : List UInt16)
      (split : train = Impulse.train heard ++ tail) (short : tail.length ≤ 1)
      (wanted : Open AtEnd readImpulses heard) :
      Flaw train (1 + 2 * heard.length) .truncatedImpulse
  /-- Two values that are no impulse stand where one is wanted. -/
  | garbled (heard : List Impulse) (first second : UInt16) (more : List UInt16)
      (split : train = Impulse.train heard ++ first :: second :: more)
      (noPair : Impulse.ofPair? first second = none)
      (wanted : Open AtEnd readImpulses heard) :
      Flaw train (1 + 2 * heard.length) .unknownImpulse
  /-- An impulse of the other kind is wanted. -/
  | misplaced (heard : List Impulse) (kind : Impulse) (tail : List UInt16) (defect : Defect)
      (split : train = Impulse.train (heard ++ [kind]) ++ tail)
      (misplacement : defect.IsMisplacement)
      (refuses : Refuses readImpulses (heard ++ [kind]) defect)
      (wanted : Open AtEnd readImpulses heard) :
      Flaw train (1 + 2 * (heard ++ [kind]).length) defect

theorem flaw_of_readImpulses {train : List UInt16} {position : Nat} {defect : Defect}
    {after : Reader} (h : readImpulses ⟨1, train⟩ = .error (.malformed position defect) after) :
    Flaw train position defect := by
  cases orderly_readImpulses ⟨1, train⟩ with
  | answered passes stopped answers =>
      rw [answers passes stopped] at h
      cases h
  | @jammed heard _ _ passes peeks fails wanted =>
      rw [fails] at h
      cases h
      obtain ⟨hrest, hposition⟩ := passes
      rcases peek_eq_error_iff.1 peeks with ⟨hshort, herror⟩ | ⟨first, second, more, htail,
        hpair, herror⟩
      · cases herror
        rw [hposition]
        exact .cut heard after.rest hrest hshort wanted
      · cases herror
        rw [hposition]
        rw [htail] at hrest
        exact .garbled heard first second more hrest hpair wanted
  | @refused heard kind _ _ passes misplaced refuses wanted =>
      rw [refuses passes] at h
      cases h
      rw [passes.2]
      exact .misplaced heard kind after.rest defect passes.1 misplaced refuses wanted

theorem flaw_of_ofTrain {silence : UInt16} {train : List UInt16} {position : Nat}
    {defect : Defect} (h : ofTrain (silence :: train) = .error (.malformed position defect)) :
    Flaw train position defect := by
  cases hread : readImpulses ⟨1, train⟩ with
  | ok tape after =>
      rw [ofTrain_cons_of_ok hread] at h
      cases h
  | error error after =>
      rw [ofTrain_cons_of_error hread] at h
      cases h
      exact flaw_of_readImpulses hread

/-- Impulses that may still lead to a tape do so behind any silence. -/
theorem extendable_of_open {heard : List Impulse} (h : Open AtEnd readImpulses heard)
    (silence : UInt16) : Extendable (silence :: Impulse.train heard) := by
  obtain ⟨more, tape, answers⟩ := h.viable
  refine ⟨Impulse.train more, tape, ?_⟩
  have hpasses := Reader.passes_train 1 (heard ++ more) []
  rw [Impulse.train_append, List.append_nil] at hpasses
  exact ofTrain_cons_of_ok (answers hpasses rfl)

theorem take_cons_append {silence : UInt16} {front tail : List UInt16} {n : Nat}
    (hlength : n = 1 + front.length) : (silence :: (front ++ tail)).take n = silence :: front := by
  rw [← List.cons_append]
  exact List.take_left' (by rw [List.length_cons]; omega)

/-- A train is split as another one if the two begin with the same values. -/
theorem eq_cons_append_of_take_eq {silence : UInt16} {front tail other : List UInt16} {n : Nat}
    (hlength : n = 1 + front.length)
    (h : other.take n = (silence :: (front ++ tail)).take n) :
    other = silence :: (front ++ other.drop n) := by
  calc
    other = other.take n ++ other.drop n := (List.take_append_drop n other).symm
    _ = silence :: front ++ other.drop n := by rw [h, take_cons_append hlength]

/-- Behind the silence the silence is not missed any more. -/
theorem Flaw.not_missingSilence {train : List UInt16} {position : Nat} :
    ¬Flaw train position .missingSilence := by
  intro h
  cases h with
  | misplaced _ _ _ _ _ misplacement => exact misplacement

/-- Where a train ends within an impulse, at most one value is left over. -/
theorem Flaw.truncatedImpulse {train : List UInt16} {position : Nat} (silence : UInt16)
    (h : Flaw train position .truncatedImpulse) :
    ((silence :: train).length = position ∨ (silence :: train).length = position + 1) ∧
      Extendable ((silence :: train).take position) := by
  cases h with
  | misplaced _ _ _ _ _ misplacement => exact misplacement.elim
  | cut heard tail split short wanted =>
      have hlength := Impulse.length_train heard
      constructor
      · rw [split, List.length_cons, List.length_append]
        omega
      · rw [split, take_cons_append (by omega)]
        exact extendable_of_open wanted silence

/-- Where two values are no impulse, they decide the error together with all
that stands before them. -/
theorem Flaw.unknownImpulse {train : List UInt16} {position : Nat} (silence : UInt16)
    (h : Flaw train position .unknownImpulse) :
    position + 2 ≤ (silence :: train).length ∧
      Extendable ((silence :: train).take position) ∧
      ∀ other, other.take (position + 2) = (silence :: train).take (position + 2) →
        ofTrain other = .error (.malformed position .unknownImpulse) := by
  cases h with
  | misplaced _ _ _ _ _ misplacement => exact misplacement.elim
  | garbled heard first second more split noPair wanted =>
      have hlength := Impulse.length_train heard
      refine ⟨?_, ?_, fun other hother => ?_⟩
      · rw [split, List.length_cons, List.length_append, List.length_cons, List.length_cons]
        omega
      · rw [split, take_cons_append (by omega)]
        exact extendable_of_open wanted silence
      -- The two values count as part of what both trains begin with.
      · have hpair : train = (Impulse.train heard ++ [first, second]) ++ more := by
          rw [split, List.append_assoc]
          rfl
        rw [hpair] at hother
        have hsplit := eq_cons_append_of_take_eq
          (by rw [List.length_append, List.length_cons, List.length_singleton]; omega) hother
        rw [List.append_assoc] at hsplit
        have hpasses := Reader.passes_train 1 heard
          ([first, second] ++ other.drop (1 + 2 * heard.length + 2))
        rw [hsplit]
        exact ofTrain_cons_of_error
          (wanted.awaits hpasses (List.cons_ne_nil _ _) (peek_of_noPair noPair))

/-- An impulse out of place decides the error together with all that stands
before it. -/
theorem Flaw.misplacement {train : List UInt16} {position : Nat} {defect : Defect}
    (silence : UInt16) (hmisplacement : defect.IsMisplacement)
    (h : Flaw train position defect) :
    2 ≤ position ∧ position ≤ (silence :: train).length ∧
      Extendable ((silence :: train).take (position - 2)) ∧
      ∀ other, other.take position = (silence :: train).take position →
        ofTrain other = .error (.malformed position defect) := by
  cases h with
  | cut => exact hmisplacement.elim
  | garbled => exact hmisplacement.elim
  | misplaced heard kind tail _ split _ refuses wanted =>
      have hheard := Impulse.length_train heard
      have hlength := Impulse.length_train (heard ++ [kind])
      have hsucc : (heard ++ [kind]).length = heard.length + 1 := List.length_append
      have htrain : train.length = 2 * (heard ++ [kind]).length + tail.length := by
        rw [split, List.length_append, hlength]
      refine ⟨by omega, ?_, ?_, fun other hother => ?_⟩
      · rw [List.length_cons]
        omega
      · rw [split, Impulse.train_append, List.append_assoc, take_cons_append (by omega)]
        exact extendable_of_open wanted silence
      -- The place stands behind the impulse, which is thus part of what is shared.
      · rw [split] at hother
        have hsplit := eq_cons_append_of_take_eq (by omega) hother
        rw [hsplit]
        exact ofTrain_cons_of_error (refuses (Reader.passes_train 1 (heard ++ [kind]) _))

/-- Every malformed train is given up at the earliest place.  Only the empty
train lacks its silence.  A train that ends within an impulse, or that goes on
with two values that are no impulse, is the beginning of a tape up to there; one
with an impulse out of place is so up to that impulse.  Unless the train ended,
the error is that of all trains which begin with the same values. -/
theorem ofTrain_eq_malformed {train : List UInt16} {position : Nat} {defect : Defect}
    (h : ofTrain train = .error (.malformed position defect)) :
    ((defect.message = "missing leading silence" ↔ train = []) ∧
      (defect.message = "missing leading silence" → position = 0)) ∧
    (defect.message = "truncated impulse" →
      (train.length = position ∨ train.length = position + 1) ∧
        Extendable (train.take position)) ∧
    (defect.message = "unknown impulse" →
      position + 2 ≤ train.length ∧ Extendable (train.take position) ∧
        ∀ other, other.take (position + 2) = train.take (position + 2) →
          ofTrain other = .error (.malformed position defect)) ∧
    (defect.message = "half a bit 1" ∨ defect.message = "bad end-of-byte marker" ∨
        defect.message = "synchronization too short" →
      2 ≤ position ∧ position ≤ train.length ∧ Extendable (train.take (position - 2)) ∧
        ∀ other, other.take position = train.take position →
          ofTrain other = .error (.malformed position defect)) := by
  cases train with
  | nil =>
      rw [ofTrain_nil] at h
      cases h
      refine ⟨by simp [Defect.message], ?_, ?_, ?_⟩ <;> simp [Defect.message]
  | cons silence train =>
      have hflaw := flaw_of_ofTrain h
      refine ⟨?_, fun htruncated => ?_, fun hunknown => ?_, fun hmisplaced => ?_⟩
      -- This train is not empty, so both sides are false.
      · have hmessage : defect.message ≠ "missing leading silence" := fun hmissing => by
          obtain rfl : defect = .missingSilence := Defect.message_inj hmissing
          exact hflaw.not_missingSilence
        exact ⟨⟨fun hmissing => absurd hmissing hmessage, fun hnil => by cases hnil⟩,
          fun hmissing => absurd hmissing hmessage⟩
      · obtain rfl : defect = .truncatedImpulse := Defect.message_inj htruncated
        exact hflaw.truncatedImpulse silence
      · obtain rfl : defect = .unknownImpulse := Defect.message_inj hunknown
        exact hflaw.unknownImpulse silence
      · refine hflaw.misplacement silence ?_
        rcases hmisplaced with hhalf | hmarker | hshort
        · obtain rfl : defect = .halfBit := Defect.message_inj hhalf
          trivial
        · obtain rfl : defect = .badEndOfByte := Defect.message_inj hmarker
          trivial
        · obtain rfl : defect = .shortSynchronization := Defect.message_inj hshort
          trivial

/-- Behind the first half of a bit 1 the train ends, or is no impulse, or is a
long impulse. -/
theorem ofTrain_eq_malformed_within_a_bit :
    (ofTrain [] = .error (.malformed 0 .missingSilence) ∧
      Defect.missingSilence.message = "missing leading silence") ∧
    (ofTrain (17400 :: Impulse.train (Impulse.synchronization 0 ++ [.short]) ++ [833]) =
        .error (.malformed 13 .truncatedImpulse) ∧
      Extendable (17400 :: Impulse.train (Impulse.synchronization 0 ++ [.short]))) ∧
    (ofTrain (17400 :: Impulse.train (Impulse.synchronization 0 ++ [.short]) ++ [833, 1666]) =
        .error (.malformed 13 .unknownImpulse) ∧
      ofTrain (17400 :: Impulse.train (Impulse.synchronization 0 ++ [.short]) ++
        [833, 1666, 7]) = .error (.malformed 13 .unknownImpulse)) ∧
    ofTrain (17400 :: Impulse.train (Impulse.synchronization 0 ++ [.short, .long])) =
        .error (.malformed 15 .halfBit) ∧
      ofTrain (17400 :: Impulse.train (Impulse.synchronization 0 ++ [.short, .long]) ++ [7]) =
        .error (.malformed 15 .halfBit) := by
  have hempty := ofTrain_nil
  have hcut : ofTrain (17400 :: Impulse.train (Impulse.synchronization 0 ++ [.short]) ++ [833]) =
      .error (.malformed 13 .truncatedImpulse) := by cbv
  have hgarbled : ofTrain (17400 :: Impulse.train (Impulse.synchronization 0 ++ [.short]) ++
      [833, 1666]) = .error (.malformed 13 .unknownImpulse) := by cbv
  have hmisplaced : ofTrain (17400 :: Impulse.train (Impulse.synchronization 0 ++
      [.short, .long])) = .error (.malformed 15 .halfBit) := by cbv
  refine ⟨⟨hempty, ?_⟩, ⟨hcut, ?_⟩, ⟨hgarbled, ?_⟩, hmisplaced, ?_⟩
  · exact (ofTrain_eq_malformed hempty).1.1.2 rfl
  · exact ((ofTrain_eq_malformed hcut).2.1 rfl).2
  · exact ((ofTrain_eq_malformed hgarbled).2.2.1 rfl).2.2 _ rfl
  · exact ((ofTrain_eq_malformed hmisplaced).2.2.2 (.inl rfl)).2.2.2 _ rfl

end DecodedTape

end Cassette
