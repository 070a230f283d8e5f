import Cassette.Proofs.Signal.Length
import Cassette.Proofs.Signal.Unambiguous

/-!
# How long impulses last, and how many short ones stand in a row

A long impulse lasts as long as two short ones, so both kinds of bit last equally
long and every frame lasts as long as 22 short impulses.  Within frames at most 20
short impulses stand in a row, eight bits that are set and the marker; a longer
run is therefore a synchronization (`run_append_inj`).

These two facts bound what a damaged signal can be mistaken for.
-/

namespace Cassette.Signal

namespace Impulse

/-- How long an impulse lasts, compared to a short one. -/
def duration : Impulse → Nat
  | short => 1
  | long => 2

/-- How long impulses last together. -/
def durationOf : List Impulse → Nat
  | [] => 0
  | first :: rest => first.duration + durationOf rest

@[simp]
theorem durationOf_nil : durationOf [] = 0 := rfl

@[simp]
theorem durationOf_cons (first : Impulse) (rest : List Impulse) :
    durationOf (first :: rest) = first.duration + durationOf rest := rfl

@[simp]
theorem durationOf_append (front back : List Impulse) :
    durationOf (front ++ back) = durationOf front + durationOf back := by
  induction front with
  | nil => simp
  | cons first front ih => simp [ih, Nat.add_assoc]

@[simp]
theorem durationOf_shorts (count : Nat) : durationOf (List.replicate count short) = count := by
  induction count with
  | zero => rfl
  | succ count ih =>
      rw [List.replicate_succ, durationOf_cons, ih]
      show 1 + count = count + 1
      omega

/-- A bit lasts as long as two short impulses, whichever bit it is. -/
theorem durationOf_flatMap_ofBit (bits : List Bool) :
    durationOf (bits.flatMap ofBit) = 2 * bits.length := by
  induction bits with
  | nil => rfl
  | cons bit bits ih =>
      have hbit : durationOf (ofBit bit) = 2 := by cases bit <;> rfl
      rw [List.flatMap_cons, durationOf_append, hbit, ih, List.length_cons]
      omega

theorem durationOf_frame (byte : UInt8) : durationOf (frame byte) = 22 := by
  have hbits := durationOf_flatMap_ofBit (Bits.ofByte byte)
  rw [Bits.length_ofByte] at hbits
  rw [frame, durationOf_append, ofByte, hbits]
  rfl

@[simp]
theorem durationOf_frames (bytes : List UInt8) :
    durationOf (frames bytes) = 22 * bytes.length := by
  induction bytes with
  | nil => rfl
  | cons byte bytes ih =>
      rw [frames_cons, durationOf_append, durationOf_frame, ih, List.length_cons]
      omega

/-! ## Runs -/

/-- A run of short impulses and the long one that ends it. -/
def run (count : Nat) : List Impulse :=
  List.replicate count short ++ [long]

theorem synchronization_eq_run (count : Nat) : synchronization count = run (count + 4) :=
  synchronization_eq count

@[simp]
theorem length_run (count : Nat) : (run count).length = count + 1 := by
  simp [run]

@[simp]
theorem durationOf_run (count : Nat) : durationOf (run count) = count + 2 := by
  simp [run, duration]

theorem run_succ (count : Nat) : run (count + 1) = short :: run count := rfl

theorem run_add (front back : Nat) : run (front + back) = List.replicate front short ++ run back := by
  rw [run, run, ← List.replicate_append_replicate, List.append_assoc]

/-- A byte with all bits set is a single run. -/
theorem frame_full : frame 0xff = run 20 := by decide

theorem prefixFree_run : PrefixFree run := by
  intro first second front back h
  -- Four more impulses make a synchronization of the run.
  have hfour : synchronization first ++ front = synchronization second ++ back := by
    simp only [synchronization_eq_run, Nat.add_comm _ 4, run_add, List.append_assoc, h]
  exact prefixFree_synchronization hfour

/-- Short impulses in front of a run lengthen it. -/
theorem exists_run_of_shorts_append {shorts count : Nat} {front back : List Impulse}
    (h : List.replicate shorts short ++ front = run count ++ back) :
    ∃ more, count = shorts + more ∧ front = run more ++ back := by
  induction shorts generalizing count with
  | zero => exact ⟨count, by omega, h⟩
  | succ shorts ih =>
      cases count with
      | zero => simp [run, List.replicate_succ] at h
      | succ count =>
          rw [run_succ, List.replicate_succ, List.cons_append, List.cons_append] at h
          obtain ⟨more, rfl, hfront⟩ := ih (List.cons.inj h).2
          exact ⟨more, by omega, hfront⟩

/-- Impulses start with a run unless all of them are short. -/
theorem eq_shorts_or_run (impulses : List Impulse) :
    (∃ count, impulses = List.replicate count short) ∨
      ∃ count rest, impulses = run count ++ rest := by
  induction impulses with
  | nil => exact .inl ⟨0, rfl⟩
  | cons first rest ih =>
      cases first with
      | long => exact .inr ⟨0, rest, rfl⟩
      | short =>
          rcases ih with ⟨count, rfl⟩ | ⟨count, rest, rfl⟩
          · exact .inl ⟨count + 1, rfl⟩
          · exact .inr ⟨count + 1, rest, rfl⟩

/-- All frames end in a long impulse. -/
theorem frames_eq_append_long {bytes : List UInt8} (h : bytes ≠ []) :
    ∃ front, frames bytes = front ++ [long] := by
  obtain ⟨init, last, rfl⟩ : ∃ init last, bytes = init ++ [last] :=
    ⟨bytes.dropLast, bytes.getLast h, (List.dropLast_concat_getLast h).symm⟩
  refine ⟨frames init ++ (ofByte last ++ [short, short, short, short]), ?_⟩
  simp [frames, frame, endOfByte]

/-- No short impulse stands behind a long one that is the last. -/
theorem eq_zero_of_append_long {front back : List Impulse} {count : Nat}
    (h : back ++ [long] = front ++ List.replicate count short) : count = 0 := by
  cases count with
  | zero => rfl
  | succ count =>
      rw [List.replicate_succ', ← List.append_assoc] at h
      have hlast := (List.append_inj' h rfl).2
      cases hlast

theorem eq_zero_of_frames {bytes : List UInt8} {front : List Impulse} {count : Nat}
    (h : frames bytes = front ++ List.replicate count short) : count = 0 := by
  by_cases hbytes : bytes = []
  · rw [hbytes, frames_nil] at h
    have hlength := congrArg List.length h
    simp at hlength
    omega
  · obtain ⟨back, hback⟩ := frames_eq_append_long hbytes
    exact eq_zero_of_append_long (hback.symm.trans h)

/-- Frames start with a run. -/
theorem exists_run_of_frames {bytes : List UInt8} (h : bytes ≠ []) :
    ∃ count rest, frames bytes = run count ++ rest := by
  rcases eq_shorts_or_run (frames bytes) with ⟨count, hshorts⟩ | hrun
  · obtain rfl := eq_zero_of_frames (show frames bytes = [] ++ _ from hshorts)
    have hduration := congrArg durationOf hshorts
    have hpos := List.length_pos_iff.2 h
    rw [durationOf_frames, durationOf_shorts] at hduration
    omega
  · exact hrun

/-- Short impulses that stand in a row do not reach over a long one. -/
theorem infix_append_long {count : Nat} {front back : List Impulse}
    (h : List.replicate count short <:+: front ++ long :: back) :
    List.replicate count short <:+: front ∨ List.replicate count short <:+: back := by
  obtain ⟨before, behind, h⟩ := h
  have hlong : long ∉ List.replicate count short := fun hmem => by
    cases List.eq_of_mem_replicate hmem
  rw [List.append_assoc, List.append_eq_append_iff] at h
  rcases h with ⟨middle, rfl, hmiddle⟩ | ⟨middle, hbefore, hmiddle⟩
  · rw [List.append_eq_append_iff] at hmiddle
    rcases hmiddle with ⟨rest, rfl, -⟩ | ⟨rest, hshorts, hrest⟩
    · exact .inl ⟨before, rest, by rw [List.append_assoc]⟩
    · cases rest with
      | nil => exact .inl ⟨before, [], by simp [hshorts]⟩
      | cons kind rest =>
          obtain ⟨rfl, -⟩ := List.cons.inj hrest
          rw [hshorts] at hlong
          exact absurd (List.mem_append_right middle List.mem_cons_self) hlong
  · cases middle with
    | nil =>
        cases count with
        | zero => exact .inr (List.nil_infix)
        | succ count => simp [List.replicate_succ] at hmiddle
    | cons kind middle =>
        rw [List.cons_append] at hmiddle
        obtain ⟨rfl, rfl⟩ := List.cons.inj hmiddle
        exact .inr ⟨middle, behind, List.append_assoc _ _ _⟩

/-- At most 20 short impulses stand in a row within frames. -/
theorem le_of_infix_frames {count : Nat} {bytes : List UInt8}
    (h : List.replicate count short <:+: frames bytes) : count ≤ 20 := by
  induction bytes with
  | nil =>
      have hlength := h.length_le
      simp at hlength
      omega
  | cons byte bytes ih =>
      have hframe : frames (byte :: bytes) =
          (ofByte byte ++ [short, short, short, short]) ++ long :: frames bytes := by
        simp [frame, endOfByte]
      rw [hframe] at h
      rcases infix_append_long h with hbyte | hrest
      · have hlength := hbyte.length_le
        have hones := Bits.ones_le byte
        simp [length_ofByte] at hlength
        omega
      · exact ih hrest

theorem le_of_frames_eq {bytes : List UInt8} {count : Nat} {front back : List Impulse}
    (h : frames bytes = front ++ (run count ++ back)) : count ≤ 20 :=
  le_of_infix_frames ⟨front, [long] ++ back, by rw [h, run]; simp⟩

/-- Frames that start with a run and go on with frames start with a full byte. -/
theorem eq_of_frames_eq_run_append {count : Nat} {first second : List UInt8}
    (h : frames first = run count ++ frames second) :
    count = 20 ∧ first = 0xff :: second := by
  have hcount : count ≤ 20 :=
    le_of_frames_eq (show frames first = [] ++ (run count ++ frames second) from h)
  have hduration := congrArg durationOf h
  simp only [durationOf_append, durationOf_run, durationOf_frames] at hduration
  obtain rfl : count = 20 := by omega
  refine ⟨rfl, frames_injective ?_⟩
  rw [h, frames_cons, frame_full]

/-- A run that is too long for frames is the one between the frames, and short
impulses in front of it can only be the first ones of that run. -/
theorem run_append_inj {first second : List UInt8} {count found : Nat}
    {front back : List Impulse} (hfound : 20 < found)
    (h : frames first ++ (run count ++ frames second) = front ++ (run found ++ back)) :
    ∃ more, front = frames first ++ List.replicate more short ∧ count = more + found ∧
      back = frames second := by
  rw [List.append_eq_append_iff] at h
  rcases h with ⟨middle, rfl, hmiddle⟩ | ⟨middle, hfirst, hmiddle⟩
  · rcases eq_shorts_or_run middle with ⟨more, rfl⟩ | ⟨other, rest, rfl⟩
    · obtain ⟨left, rfl, hrun⟩ := exists_run_of_shorts_append hmiddle.symm
      obtain ⟨rfl, rfl⟩ := prefixFree_run hrun
      exact ⟨more, rfl, rfl, rfl⟩
    -- The run between the frames is over, so the long one is within frames.
    · rw [List.append_assoc] at hmiddle
      obtain ⟨rfl, hsecond⟩ := prefixFree_run hmiddle
      have hle := le_of_frames_eq hsecond
      omega
  · rcases eq_shorts_or_run middle with ⟨more, rfl⟩ | ⟨other, rest, rfl⟩
    · obtain rfl := eq_zero_of_frames hfirst
      obtain ⟨rfl, rfl⟩ := prefixFree_run hmiddle
      exact ⟨0, by simp [hfirst], by omega, rfl⟩
    · rw [List.append_assoc] at hmiddle
      obtain ⟨rfl, -⟩ := prefixFree_run hmiddle
      have hle := le_of_frames_eq hfirst
      omega

end Impulse

end Cassette.Signal
