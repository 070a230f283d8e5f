import Cassette.Proofs.Signal.Orderly

/-!
# Impulses can be read in one way only

What a step takes off a train is determined by the train: the impulses of one
answer never continue as those of another one (`PrefixFree`).  This holds of
synchronization runs and of framed bytes because there is a reader for each of
them, so nothing is computed here.  From it follows how a beginning of a tape can
itself be cut into a synchronization, a header and so on, in one way only.
-/

namespace Cassette.Signal

namespace Impulse

theorem train_injective : Function.Injective train := by
  intro front back h
  induction front generalizing back with
  | nil =>
      cases back with
      | nil => rfl
      | cons kind back => simp at h
  | cons first front ih =>
      cases back with
      | nil => simp at h
      | cons kind back =>
          simp only [train_cons, List.cons.injEq] at h
          obtain ⟨hfirst, _, hrest⟩ := h
          rw [halfPeriod_inj hfirst, ih hrest]

/-- Which answer was spelled can be told from any impulses that start with its
spelling, and so can where it ends. -/
def PrefixFree {α : Type} (spelling : α → List Impulse) : Prop :=
  ∀ ⦃first second : α⦄ ⦃front back : List Impulse⦄,
    spelling first ++ front = spelling second ++ back → first = second ∧ front = back

/-- A spelling that some step reads back is unambiguous. -/
theorem prefixFree_of_step {α : Type} {step : Reads α} {spelling : α → List Impulse}
    (hstep : ∀ {reader after : Reader} {answer : α},
      step reader = .ok answer after ↔ reader.Passes (spelling answer) after) :
    PrefixFree spelling := by
  intro first second front back h
  have hfirst := Reader.passes_train 0 (spelling first) (train front)
  have hsecond := Reader.passes_train 0 (spelling second) (train back)
  rw [← train_append] at hfirst hsecond
  rw [h] at hfirst
  -- One step on one train has one answer.
  have hok := hstep.2 hfirst
  rw [hstep.2 hsecond] at hok
  obtain rfl : second = first := (EStateM.Result.ok.inj hok).1
  exact ⟨rfl, List.append_cancel_left h⟩

theorem prefixFree_synchronization : PrefixFree synchronization :=
  prefixFree_of_step Reads.sync_eq_ok_iff

theorem prefixFree_frame : PrefixFree frame :=
  prefixFree_of_step Reads.framedByte_eq_ok_iff

theorem frame_ne_nil (byte : UInt8) : frame byte ≠ [] :=
  List.append_ne_nil_of_right_ne_nil _ (List.cons_ne_nil _ _)

/-- As many bytes are told apart from whatever follows them. -/
theorem frames_append_inj {first second : List UInt8} {front back : List Impulse}
    (hlength : first.length = second.length)
    (h : frames first ++ front = frames second ++ back) : first = second ∧ front = back := by
  induction first generalizing second with
  | nil =>
      obtain rfl := List.eq_nil_of_length_eq_zero hlength.symm
      exact ⟨rfl, h⟩
  | cons byte first ih =>
      cases second with
      | nil => simp at hlength
      | cons other second =>
          simp only [frames_cons, List.append_assoc] at h
          obtain ⟨rfl, hrest⟩ := prefixFree_frame h
          obtain ⟨rfl, hback⟩ := ih (Nat.succ.inj hlength) hrest
          exact ⟨rfl, hback⟩

/-- Frames that begin other frames are those of the first bytes. -/
theorem isPrefix_of_frames {first second : List UInt8} (h : frames first <+: frames second) :
    first <+: second := by
  induction first generalizing second with
  | nil => exact List.nil_prefix
  | cons byte first ih =>
      obtain ⟨more, hmore⟩ := h
      rw [frames_cons, List.append_assoc] at hmore
      cases second with
      | nil =>
          obtain ⟨hframe, _⟩ := List.append_eq_nil_iff.1 hmore
          exact absurd hframe (frame_ne_nil byte)
      | cons other second =>
          rw [frames_cons] at hmore
          obtain ⟨rfl, hrest⟩ := prefixFree_frame hmore
          exact List.cons_prefix_cons.2 ⟨rfl, ih ⟨more, hrest⟩⟩

theorem frames_injective : Function.Injective frames := by
  intro first second h
  have hprefix : first <+: second := isPrefix_of_frames (h ▸ List.prefix_rfl)
  have hprefix' : second <+: first := isPrefix_of_frames (h ▸ List.prefix_rfl)
  exact hprefix.eq_of_length_le hprefix'.length_le

end Impulse

namespace Reader

open Reads

variable {reader after last : Reader} {heard other : List Impulse} {error : TapeError}

theorem Passes.unique (passes : reader.Passes heard after)
    (others : reader.Passes heard last) : after = last := by
  obtain ⟨hrest, hposition⟩ := passes
  obtain ⟨hrest', hposition'⟩ := others
  have hsame : after.rest = last.rest := List.append_cancel_left (hrest.symm.trans hrest')
  obtain ⟨position, rest⟩ := after
  obtain ⟨position', rest'⟩ := last
  rw [Reader.mk.injEq]
  exact ⟨hposition.trans hposition'.symm, hsame⟩

/-- Where no impulse is ahead nothing more can be taken, so whatever else is
taken is a beginning of what was taken up to there. -/
theorem Passes.isPrefix (passes : reader.Passes heard after)
    (peeks : peek after = .error error after) (others : reader.Passes other last) :
    other <+: heard := by
  induction heard generalizing reader other with
  | nil =>
      obtain rfl := passes_nil.1 passes
      cases other with
      | nil => exact List.nil_prefix
      | cons kind other =>
          obtain ⟨between, hkind, _⟩ := passes_cons.1 others
          have hok := impulse_eq_ok_iff_passes.2 hkind
          rw [impulse_of_peek_error peeks] at hok
          cases hok
  | cons first heard ih =>
      cases other with
      | nil => exact List.nil_prefix
      | cons kind other =>
          obtain ⟨between, hfirst, hheard⟩ := passes_cons.1 passes
          obtain ⟨between', hkind, hother⟩ := passes_cons.1 others
          have hok := impulse_eq_ok_iff_passes.2 hfirst
          rw [impulse_eq_ok_iff_passes.2 hkind] at hok
          cases hok
          exact List.cons_prefix_cons.2 ⟨rfl, ih hheard hother⟩

/-- There is one place in a train where the impulses stop. -/
theorem Passes.eq_of_peek_error {error' : TapeError} (passes : reader.Passes heard after)
    (peeks : peek after = .error error after) (others : reader.Passes other last)
    (peeks' : peek last = .error error' last) : other = heard ∧ last = after := by
  have hprefix := passes.isPrefix peeks others
  have hprefix' := others.isPrefix peeks' passes
  obtain rfl := hprefix.eq_of_length_le hprefix'.length_le
  exact ⟨rfl, others.unique passes⟩

theorem peek_of_atEnd (h : AtEnd reader) :
    peek reader = .error (.malformed reader.position .truncatedImpulse) reader := by
  obtain ⟨position, rest⟩ := reader
  obtain rfl : rest = [] := h
  rfl

end Reader

end Cassette.Signal
