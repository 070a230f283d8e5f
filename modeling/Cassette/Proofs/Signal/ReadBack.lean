import Mathlib.Algebra.Ring.Nat
import Cassette.Proofs.Signal.Length
import Cassette.Proofs.Signal.Limit

/-!
# Reading back what was written

A reader that makes the steps of a writer in the same order finds what was written,
whatever was written and in whatever order (`Item.read_back`).  An impulse does not say
whether it is half a bit, a part of a marker or one of a run; the step that reads it
does.  So nothing is asked of the items but that a run is written together with the
marker that closes it: a run alone has no end that a reader could find.

An item stands for the values that writing it appends (`Writer.write_of_ok`) and that
reading it takes off (`Reader.read_item`).  Both runs are compared with these values and
never with each other.
-/

namespace Cassette.Signal

/-! ## What a writer answers -/

namespace Write

/-- The values that a step writes if there is room for them. -/
def values : Write → List UInt16
  | .silence length => [length]
  | step => Impulse.train step.impulses

theorem values_of_not_isSilence {step : Write} (h : ¬step.IsSilence) :
    step.values = Impulse.train step.impulses := by
  cases step with
  | silence length => exact absurd ⟨length, rfl⟩ h
  | impulse kind => rfl
  | sync count => rfl
  | endOfByte => rfl
  | byte value => rfl
  | framedByte value => rfl

end Write

namespace Writer

/-- The answers of a writer to some steps, in order. -/
def answers (writer : Writer) : List Write → List (Except TapeError Nat)
  | [] => []
  | first :: rest => (writer.write first).1 :: (writer.write first).2.answers rest

/-- The sum of the numbers with which a writer answers to some steps. -/
def written (writer : Writer) (steps : List Write) : Nat :=
  ((writer.answers steps).filterMap Except.toOption).sum

/-- A step that does not fail appends its values and answers with their number. -/
theorem write_of_ok {writer : Writer} {step : Write} {count : Nat}
    (h : (writer.write step).1 = .ok count) :
    count = step.values.length ∧
      (writer.write step).2.train.toList = writer.train.toList ++ step.values := by
  by_cases hsilence : step.IsSilence
  · obtain ⟨length, rfl⟩ := hsilence
    rw [write_silence] at h ⊢
    split at h
    · next hroom =>
        cases h
        rw [if_pos hroom]
        exact ⟨rfl, Array.toList_push⟩
    · cases h
  · rw [write_eq hsilence] at h ⊢
    split at h
    · next hroom =>
        cases h
        rw [if_pos hroom, Write.values_of_not_isSilence hsilence, Impulse.length_train,
          Write.impulses_eq_spelling]
        exact ⟨rfl, Array.toList_append⟩
    · cases h

/-- Steps of which none fails append their values, and the numbers they answer with add
up to the number of these. -/
theorem after_of_ok {writer : Writer} {steps : List Write}
    (h : ∀ answer ∈ writer.answers steps, ∃ count, answer = .ok count) :
    (writer.after steps).train.toList = writer.train.toList ++ steps.flatMap Write.values ∧
      writer.written steps = (steps.flatMap Write.values).length := by
  induction steps generalizing writer with
  | nil => exact ⟨(List.append_nil _).symm, rfl⟩
  | cons first rest ih =>
      obtain ⟨count, hfirst⟩ := h _ List.mem_cons_self
      obtain ⟨hcount, htrain⟩ := write_of_ok hfirst
      obtain ⟨hafter, hwritten⟩ := ih fun answer hmem => h answer (List.mem_cons_of_mem _ hmem)
      constructor
      · show ((writer.write first).2.after rest).train.toList = _
        rw [hafter, htrain, List.flatMap_cons, List.append_assoc]
      · have hsum : writer.written (first :: rest) =
            count + (writer.write first).2.written rest := by
          simp [written, answers, hfirst, Except.toOption]
        rw [hsum, hwritten, hcount, List.flatMap_cons, List.length_append]

theorem answers_append (writer : Writer) (front back : List Write) :
    writer.answers (front ++ back) =
      writer.answers front ++ (writer.after front).answers back := by
  induction front generalizing writer with
  | nil => rfl
  | cons first rest ih => exact congrArg _ (ih (writer.write first).2)

end Writer

/-! ## Items -/

/-- What is written and read back as one.  A synchronization is a run of short impulses
and the marker that closes it. -/
inductive Item where
  | silence (length : UInt16)
  | impulse (kind : Impulse)
  | byte (value : UInt8)
  | endOfByte
  | framedByte (value : UInt8)
  | synchronization (count : Nat)
  deriving DecidableEq

namespace Item

/-- The steps of a writer that write an item. -/
def writes : Item → List Write
  | silence length => [.silence length]
  | impulse kind => [.impulse kind]
  | byte value => [.byte value]
  | endOfByte => [.endOfByte]
  | framedByte value => [.framedByte value]
  | synchronization count => [.sync count, .endOfByte]

/-- The step of a reader that reads an item. -/
def read : Item → Read
  | silence _ => .silence
  | impulse _ => .impulse
  | byte _ => .byte
  | endOfByte => .endOfByte
  | framedByte _ => .framedByte
  | synchronization _ => .sync

/-- What reading an item finds. -/
def finding : Item → Finding
  | silence length => .halfPeriod length
  | impulse kind => .impulse kind
  | byte value => .byte value
  | endOfByte => .marker
  | framedByte value => .byte value
  | synchronization count => .count count

/-- The impulses of an item.  A silence is not made of impulses. -/
def impulses : Item → List Impulse
  | silence _ => []
  | impulse kind => [kind]
  | byte value => Impulse.ofByte value
  | endOfByte => Impulse.endOfByte
  | framedByte value => Impulse.frame value
  | synchronization count => Impulse.synchronization count

/-- The values of an item. -/
def values : Item → List UInt16
  | silence length => [length]
  | item => Impulse.train item.impulses

theorem flatMap_values_writes (item : Item) : item.writes.flatMap Write.values = item.values := by
  cases item with
  | synchronization count =>
      show Impulse.train (List.replicate count .short) ++
        (Impulse.train Impulse.endOfByte ++ []) = _
      rw [List.append_nil, ← Impulse.train_append]
      rfl
  | _ => exact List.append_nil _

/-- Every item has a value of its own, so reading it moves a reader on. -/
theorem length_values_pos (item : Item) : 0 < item.values.length := by
  cases item with
  | silence length => exact Nat.one_pos
  | impulse kind => exact Nat.two_pos
  | byte value =>
      show 0 < (Impulse.train (Impulse.ofByte value)).length
      rw [Impulse.length_train, Impulse.length_ofByte]
      omega
  | endOfByte => exact Nat.succ_pos 9
  | framedByte value =>
      show 0 < (Impulse.train (Impulse.frame value)).length
      rw [Impulse.length_train, Impulse.length_frame]
      omega
  | synchronization count =>
      show 0 < (Impulse.train (Impulse.synchronization count)).length
      rw [Impulse.length_train, Impulse.length_synchronization]
      omega

/-- The values of some items, one after the other. -/
def valuesOf (items : List Item) : List UInt16 :=
  items.flatMap values

theorem valuesOf_eq_nil_iff {items : List Item} : valuesOf items = [] ↔ items = [] := by
  constructor
  · intro h
    refine List.eq_nil_iff_forall_not_mem.2 fun item hmem => ?_
    have hpos := length_values_pos item
    rw [List.flatMap_eq_nil_iff.1 h item hmem] at hpos
    exact absurd hpos (Nat.lt_irrefl 0)
  · rintro rfl
    rfl

theorem flatMap_values_flatMap_writes (items : List Item) :
    (items.flatMap writes).flatMap Write.values = valuesOf items := by
  rw [List.flatMap_assoc]
  exact congrArg (List.flatMap · items) (funext flatMap_values_writes)

end Item

/-! ## What a reader finds -/

namespace Reader

/-- The reader after some steps, whether they fail or not. -/
def after (reader : Reader) (steps : List Read) : Reader :=
  steps.foldl (fun reader step => (reader.read step).2) reader

/-- The answers of a reader to some steps, in order. -/
def answers (reader : Reader) : List Read → List (Except TapeError Finding)
  | [] => []
  | first :: rest => (reader.read first).1 :: (reader.read first).2.answers rest

theorem read_of_ok {α : Type} {step : Reads α} {found : α} {reader after : Reader}
    {action : Read} (label : α → Finding) (hrun : action.run = label <$> step)
    (h : step reader = .ok found after) : reader.read action = (.ok (label found), after) := by
  have hmap : (label <$> step) reader = .ok (label found) after := by
    change EStateM.map label step reader = _
    rw [EStateM.map, h]
  rw [read, hrun, hmap]

/-- The step for an item finds it where its values stand, and takes exactly these. -/
theorem read_item (item : Item) (position : Nat) (tail : List UInt16) :
    Reader.read ⟨position, item.values ++ tail⟩ item.read =
      (.ok item.finding, ⟨position + item.values.length, tail⟩) := by
  have hpasses (impulses : List Impulse) :
      Passes ⟨position, Impulse.train impulses ++ tail⟩ impulses
        ⟨position + (Impulse.train impulses).length, tail⟩ := by
    rw [Impulse.length_train]
    exact passes_train position impulses tail
  cases item with
  | silence length => rfl
  | impulse kind =>
      exact read_of_ok Finding.impulse rfl (Reads.impulse_eq_ok_iff_passes.2 (hpasses [kind]))
  | byte value =>
      exact read_of_ok Finding.byte rfl (Reads.byte_eq_ok_iff.2 (hpasses (Impulse.ofByte value)))
  | endOfByte =>
      exact read_of_ok (fun _ => Finding.marker) rfl
        (Reads.endOfByte_eq_ok_iff.2 (hpasses Impulse.endOfByte))
  | framedByte value =>
      exact read_of_ok Finding.byte rfl
        (Reads.framedByte_eq_ok_iff.2 (hpasses (Impulse.frame value)))
  | synchronization count =>
      exact read_of_ok Finding.count rfl
        (Reads.sync_eq_ok_iff.2 (hpasses (Impulse.synchronization count)))

/-- The steps for some items find them one after the other. -/
theorem read_items (items : List Item) (position : Nat) (tail : List UInt16) :
    answers ⟨position, Item.valuesOf items ++ tail⟩ (items.map Item.read) =
        items.map (fun item => .ok item.finding) ∧
      after ⟨position, Item.valuesOf items ++ tail⟩ (items.map Item.read) =
        ⟨position + (Item.valuesOf items).length, tail⟩ := by
  induction items generalizing position with
  | nil => exact ⟨rfl, rfl⟩
  | cons item rest ih =>
      have hfirst := read_item item position (Item.valuesOf rest ++ tail)
      obtain ⟨hanswers, hafter⟩ := ih (position + item.values.length)
      have hvalues : Item.valuesOf (item :: rest) ++ tail =
          item.values ++ (Item.valuesOf rest ++ tail) := List.append_assoc _ _ _
      have hlength : (Item.valuesOf (item :: rest)).length =
          item.values.length + (Item.valuesOf rest).length := List.length_append
      rw [hvalues, hlength, ← Nat.add_assoc, List.map_cons, List.map_cons]
      constructor
      · rw [answers, hfirst, hanswers]
      · show after (Reader.read _ item.read).2 _ = _
        rw [hfirst, hafter]

end Reader

namespace Item

theorem exists_ok_of_append {writer : Writer} {front back : List Write}
    (h : ∀ answer ∈ writer.answers (front ++ back), ∃ count, answer = .ok count) :
    ∀ answer ∈ writer.answers front, ∃ count, answer = .ok count := by
  rw [Writer.answers_append] at h
  exact fun answer hmem => h answer (List.mem_append_left _ hmem)

/-- Items that a writer wrote without passing its limit are found again, each by its own
step.  The position of the reader is the sum of the numbers with which the writer answered
up to there, and the end is reached with the last item and not before. -/
theorem read_back (limit : Nat) (items : List Item)
    (hfits : ∀ answer ∈ (Writer.empty limit).answers (items.flatMap writes),
      ∃ count, answer = .ok count) :
    let train := ((Writer.empty limit).after (items.flatMap writes)).train.toList
    let reader (count : Nat) := (Reader.ofTrain train).after ((items.take count).map read)
    (Reader.ofTrain train).answers (items.map read) = items.map (fun item => .ok item.finding) ∧
    (∀ count ≤ items.length,
      (reader count).position =
        (Writer.empty limit).written ((items.take count).flatMap writes) ∧
      ((reader count).atEnd = true ↔ count = items.length)) ∧
    train.length = (Writer.empty limit).written (items.flatMap writes) := by
  intro train reader
  obtain ⟨hafter, hwritten⟩ := Writer.after_of_ok hfits
  rw [flatMap_values_flatMap_writes] at hafter hwritten
  have htrain : train = valuesOf items := hafter
  have hread := Reader.read_items items 0 []
  rw [List.append_nil, ← htrain] at hread
  refine ⟨hread.1, fun count hcount => ?_, by rw [hwritten, htrain]⟩
  -- The train is split where the first `count` items end.
  have hsplit : train = valuesOf (items.take count) ++ valuesOf (items.drop count) := by
    rw [htrain, valuesOf, valuesOf, valuesOf, ← List.flatMap_append, List.take_append_drop]
  have hreader : reader count =
      ⟨(valuesOf (items.take count)).length, valuesOf (items.drop count)⟩ := by
    have hpart := (Reader.read_items (items.take count) 0 (valuesOf (items.drop count))).2
    rwa [← hsplit, Nat.zero_add] at hpart
  have hpart : items.flatMap writes =
      (items.take count).flatMap writes ++ (items.drop count).flatMap writes := by
    rw [← List.flatMap_append, List.take_append_drop]
  rw [hpart] at hfits
  obtain ⟨-, hcounted⟩ := Writer.after_of_ok (exists_ok_of_append hfits)
  rw [hreader, hcounted, flatMap_values_flatMap_writes]
  refine ⟨rfl, ?_⟩
  rw [Reader.atEnd, List.isEmpty_iff, valuesOf_eq_nil_iff, List.drop_eq_nil_iff]
  exact ⟨Nat.le_antisymm hcount, Nat.le_of_eq ∘ Eq.symm⟩

/-- Short impulses as a loose impulse, as bits, as an empty run and in markers, one right
after the other, with a silence among them. -/
theorem read_back_of_short_impulses :
    let items : List Item := [.impulse .short, .byte 0x03, .synchronization 0,
      .synchronization 2, .impulse .short, .silence 833, .endOfByte, .framedByte 0xff]
    let train := ((Writer.empty 160).after (items.flatMap writes)).train.toList
    (∀ answer ∈ (Writer.empty 160).answers (items.flatMap writes),
      ∃ count, answer = .ok count) ∧
    (Reader.ofTrain train).answers (items.map read) =
      [.ok (.impulse .short), .ok (.byte 0x03), .ok (.count 0), .ok (.count 2),
        .ok (.impulse .short), .ok (.halfPeriod 833), .ok .marker, .ok (.byte 0xff)] ∧
    ((Reader.ofTrain train).after [.impulse, .byte, .sync]).position = 32 ∧
    ((Reader.ofTrain train).after [.impulse, .byte, .sync]).atEnd = false := by
  intro items train
  have hanswers : (Writer.empty 160).answers (items.flatMap writes) =
      [2, 20, 0, 10, 4, 10, 2, 1, 10, 42].map .ok := rfl
  have hfits : ∀ answer ∈ (Writer.empty 160).answers (items.flatMap writes),
      ∃ count, answer = .ok count := by
    rw [hanswers]
    exact fun answer hmem => (List.mem_map.1 hmem).imp fun count h => h.2.symm
  obtain ⟨hfound, hplace, -⟩ := read_back 160 items hfits
  obtain ⟨hposition, hend⟩ := hplace 3 (by decide)
  refine ⟨hfits, hfound, hposition.trans (by decide), ?_⟩
  exact Bool.eq_false_iff.2 fun h => absurd (hend.1 h) (by decide)

end Item

end Cassette.Signal
