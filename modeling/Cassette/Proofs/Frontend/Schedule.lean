import Mathlib.Algebra.Ring.Nat
import Cassette.Proofs.Frontend.Outputs

/-!
# When a file is tried

A file begins to wait when the session starts with it or when it is dropped.  Its turn
is the first frame from then on that ends after the delay before loading, unless
another file was given before that frame (`Session.Turn`).  This is said of the steps of
a run alone.  The session agrees with it: a file waits in the session exactly as long as
its turn can still come (`Session.pending_before_iff`), and what a frame tries is the
file whose turn it is (`Session.trialAt_eq_some_iff`).  Nothing is tried twice, and
without a trial a step only presses and releases keys.
-/

namespace Cassette.Frontend.Session

/-- The time that a step takes, in microseconds.  Only frames take time. -/
def Step.time : Step → Nat
  | .frame time _ => time
  | .drop _ | .charInput _ | .keyDown _ | .keyUp _ => 0

def Step.isFrame : Step → Bool
  | .frame _ _ => true
  | .drop _ | .charInput _ | .keyDown _ | .keyUp _ => false

/-- The file that a step gives to the session. -/
def Step.dropped? : Step → Option File
  | .drop file => some file
  | .frame _ _ | .charInput _ | .keyDown _ | .keyUp _ => none

/-- The time that the first steps of a run take together. -/
def timeOf (steps : List Step) (count : Nat) : Nat :=
  ((steps.take count).map Step.time).sum

/-- The step at an index is a frame, and when it ends, the frames of the delay before
loading and one more have passed since the start. -/
def LateFrame (config : Config) (steps : List Step) (index : Nat) : Prop :=
  steps[index]?.any Step.isFrame = true ∧
    (config.loadDelay + 1) * 16667 ≤ timeOf steps (index + 1)

instance (config : Config) (steps : List Step) (index : Nat) :
    Decidable (LateFrame config steps index) :=
  inferInstanceAs (Decidable (_ ∧ _))

/-- The file that is given right before the step at an index: by the start, if it is the
first step, and otherwise by the step in front of it. -/
def given? (file : Option File) (steps : List Step) : Nat → Option File
  | 0 => file
  | index + 1 => steps[index]?.bind Step.dropped?

/-- A file that was given right before the step `since` still waits before the step
`index`: no other was given and no frame was late in between. -/
structure Waits (config : Config) (file : Option File) (steps : List Step)
    (since index : Nat) : Prop where
  le : since ≤ index
  kept : ∀ later ≤ index, since < later → given? file steps later = none
  early : ∀ earlier < index, since ≤ earlier → ¬LateFrame config steps earlier

/-- The turn of the file that was given right before the step `since`: it still waits,
and the frame is late. -/
structure Turn (config : Config) (file : Option File) (steps : List Step)
    (since frame : Nat) : Prop extends Waits config file steps since frame where
  late : LateFrame config steps frame

/-- What the step at an index of a run tries. -/
def trialAt (session : Session) (steps : List Step) (index : Nat) : Option Trial :=
  steps[index]?.bind (session.before steps index).trial?

/-! ## Waiting -/

theorem timeOf_succ {steps : List Step} {index : Nat} {step : Step}
    (h : steps[index]? = some step) :
    timeOf steps (index + 1) = timeOf steps index + step.time := by
  rw [timeOf, timeOf, List.take_add_one, h, List.map_append, List.sum_append]
  simp

theorem waits_zero_iff {config : Config} {file : Option File} {steps : List Step}
    {since : Nat} : Waits config file steps since 0 ↔ since = 0 := by
  constructor
  · intro h
    exact Nat.le_zero.1 h.le
  · rintro rfl
    exact ⟨Nat.le_refl 0, fun later hle hlt => by omega, fun earlier hlt => by omega⟩

theorem waits_succ_iff {config : Config} {file : Option File} {steps : List Step}
    {since index : Nat} :
    Waits config file steps since (index + 1) ↔
      since = index + 1 ∨ Waits config file steps since index ∧
        given? file steps (index + 1) = none ∧ ¬LateFrame config steps index := by
  constructor
  · intro h
    -- Either the file was given right before this step, or it waited before.
    rcases Nat.lt_or_ge index since with hlt | hge
    · exact .inl (Nat.le_antisymm h.le hlt)
    · refine .inr ⟨⟨hge, ?_, ?_⟩, ?_, ?_⟩
      · exact fun later hle => h.kept later (by omega)
      · exact fun earlier hlt => h.early earlier (by omega)
      · exact h.kept (index + 1) (Nat.le_refl _) (by omega)
      · exact h.early index (by omega) hge
  · rintro (rfl | ⟨h, hgiven, hlate⟩)
    · exact ⟨Nat.le_refl _, fun later hle hlt => by omega, fun earlier hlt hle => by omega⟩
    · refine ⟨Nat.le_succ_of_le h.le, ?_, ?_⟩
      · intro later hle hlt
        rcases Nat.le_succ_iff.1 hle with hle | rfl
        · exact h.kept later hle hlt
        · exact hgiven
      · intro earlier hlt hle
        rcases Nat.lt_succ_iff_lt_or_eq.1 hlt with hlt | rfl
        · exact h.early earlier hlt hle
        · exact hlate

/-- Two files cannot wait at once. -/
theorem Waits.unique {config : Config} {file : Option File} {steps : List Step}
    {since other index : Nat} (h : Waits config file steps since index)
    (hother : Waits config file steps other index) (hgiven : given? file steps since ≠ none)
    (hotherGiven : given? file steps other ≠ none) : since = other := by
  rcases Nat.lt_trichotomy since other with hlt | heq | hlt
  · exact absurd (h.kept other hother.le hlt) hotherGiven
  · exact heq
  · exact absurd (hother.kept since h.le hlt) hgiven

/-- A turn comes once. -/
theorem Turn.unique {config : Config} {file : Option File} {steps : List Step}
    {since frame other : Nat} (h : Turn config file steps since frame)
    (hother : Turn config file steps since other) : frame = other := by
  rcases Nat.lt_trichotomy frame other with hlt | heq | hlt
  · exact absurd h.late (hother.early frame hlt h.le)
  · exact heq
  · exact absurd hother.late (h.early other hlt hother.le)

/-- A file that is replaced before a late frame comes never has its turn. -/
theorem not_turn_of_replaced {config : Config} {file : Option File} {steps : List Step}
    {since replaced : Nat} (hlt : since < replaced)
    (hgiven : given? file steps replaced ≠ none)
    (hearly : ∀ index < replaced, since ≤ index → ¬LateFrame config steps index)
    (frame : Nat) : ¬Turn config file steps since frame := by
  intro h
  rcases Nat.lt_or_ge frame replaced with hframe | hframe
  · exact hearly frame hframe h.le h.late
  · exact hgiven (h.kept replaced hframe hlt)

/-! ## The session agrees -/

@[simp]
theorem start_pending (config : Config) (file : Option File) :
    (start config file).1.pending = file := by
  cases file <;> rfl

@[simp]
theorem start_elapsed (config : Config) (file : Option File) :
    (start config file).1.elapsed = 0 := by
  cases file <;> rfl

theorem frame_elapsed (session : Session) (time : Nat) (answers : Answers) :
    (session.frame time answers).1.elapsed = session.elapsed + time := by
  have hcases := loading_cases (session.later time) answers
  rw [frame_eq]
  generalize (session.later time).loadPending answers = after at hcases ⊢
  cases hcases with
  | idle hdue => rfl
  | loaded hdue hload => rfl
  | failed hdue hload => rfl

theorem elapsed_step (session : Session) (step : Step) :
    (session.step step).1.elapsed = session.elapsed + step.time := by
  cases step with
  | frame time answers => exact frame_elapsed session time answers
  | drop file => rfl
  | charInput c => rfl
  | keyDown key => rfl
  | keyUp key => rfl

theorem elapsed_before (config : Config) (file : Option File) (steps : List Step)
    (index : Nat) :
    ((start config file).1.before steps index).elapsed = timeOf steps index := by
  induction index with
  | zero => simp [timeOf]
  | succ index ih =>
    cases h : steps[index]? with
    | none =>
      have hlength : steps.length ≤ index := List.getElem?_eq_none_iff.1 h
      rw [before_succ_of_end h, ih, timeOf, timeOf, List.take_of_length_le hlength,
        List.take_of_length_le (by omega)]
    | some step => rw [before_succ h, elapsed_step, ih, timeOf_succ h]

theorem lt_frames_iff {session : Session} {delay : Nat} :
    delay < session.frames ↔ (delay + 1) * 16667 ≤ session.elapsed := by
  rw [frames, Clock.frames, Nat.lt_iff_add_one_le, Nat.le_div_iff_mul_le (by decide)]
  rfl

theorem due_eq_some_iff {session : Session} {file : File} :
    session.due = some file ↔
      session.config.loadDelay < session.frames ∧ session.pending = some file := by
  unfold due
  split
  · simp [*]
  · simp [*]

/-- After a late frame no file waits, whether one was tried or not; before, none is
taken away. -/
theorem frame_pending (session : Session) (time : Nat) (answers : Answers) :
    (session.frame time answers).1.pending =
      if session.config.loadDelay < (session.later time).frames then none
      else session.pending := by
  have hcases := loading_cases (session.later time) answers
  rw [frame_eq]
  generalize (session.later time).loadPending answers = after at hcases ⊢
  cases hcases with
  | idle hdue =>
    -- Nothing is due for want of time or for want of a file.
    unfold due at hdue
    show session.pending = _
    split
    · rename_i hlate
      rwa [later_config, if_pos hlate] at hdue
    · rfl
  | loaded hdue hload =>
    have hlate := (due_eq_some_iff.1 hdue).1
    rw [later_config] at hlate
    rw [if_pos hlate]
    rfl
  | failed hdue hload =>
    have hlate := (due_eq_some_iff.1 hdue).1
    rw [later_config] at hlate
    rw [if_pos hlate]
    rfl

theorem given?_succ {file : Option File} {steps : List Step} {index : Nat} {step : Step}
    (h : steps[index]? = some step) : given? file steps (index + 1) = step.dropped? := by
  rw [given?, h]
  rfl

/-- A step of a run is late if it is a frame and more frames than the delay have passed
when it ends. -/
theorem lateFrame_iff (config : Config) (file : Option File) {steps : List Step}
    {index : Nat} {step : Step} (h : steps[index]? = some step) :
    LateFrame config steps index ↔ step.isFrame = true ∧
      config.loadDelay <
        (((start config file).1.before steps index).later step.time).frames := by
  have helapsed : (((start config file).1.before steps index).later step.time).elapsed =
      timeOf steps (index + 1) := by
    rw [timeOf_succ h, ← elapsed_before config file steps index]
    rfl
  rw [LateFrame, h, lt_frames_iff, helapsed]
  rfl

/-- What waits after a step: the file that it gives, and else what waited before, unless
the step is a late frame. -/
theorem pending_before_succ (config : Config) (file : Option File) (steps : List Step)
    (index : Nat) :
    ((start config file).1.before steps (index + 1)).pending =
      (given? file steps (index + 1)).or
        (if LateFrame config steps index then none
          else ((start config file).1.before steps index).pending) := by
  cases h : steps[index]? with
  | none =>
    have hearly : ¬LateFrame config steps index := by
      rintro ⟨hframe, -⟩
      rw [h] at hframe
      cases hframe
    rw [before_succ_of_end h, if_neg hearly, given?, h]
    rfl
  | some step =>
    have hlate := lateFrame_iff config file h
    rw [before_succ h, given?_succ h]
    cases step with
    | frame time answers =>
      have hpending := frame_pending ((start config file).1.before steps index) time answers
      rw [before_config, start_config] at hpending
      have hpassed : LateFrame config steps index ↔ config.loadDelay <
          (((start config file).1.before steps index).later time).frames :=
        hlate.trans (and_iff_right rfl)
      refine hpending.trans ?_
      by_cases hframe : LateFrame config steps index
      · rw [if_pos hframe, if_pos (hpassed.1 hframe)]
        rfl
      · rw [if_neg hframe, if_neg (mt hpassed.2 hframe)]
        rfl
    | drop dropped => rfl
    | charInput c => rw [if_neg fun hframe => nomatch (hlate.1 hframe).1]; rfl
    | keyDown key => rw [if_neg fun hframe => nomatch (hlate.1 hframe).1]; rfl
    | keyUp key => rw [if_neg fun hframe => nomatch (hlate.1 hframe).1]; rfl

/-- A file waits in the session exactly as long as its turn can still come. -/
theorem pending_before_iff {config : Config} {file : Option File} {steps : List Step}
    {index : Nat} {waiting : File} :
    ((start config file).1.before steps index).pending = some waiting ↔
      ∃ since, given? file steps since = some waiting ∧
        Waits config file steps since index := by
  induction index with
  | zero => simp [waits_zero_iff, given?]
  | succ index ih =>
    rw [pending_before_succ]
    cases hgiven : given? file steps (index + 1) with
    | some dropped =>
      -- What is given replaces what waited, so only the last one given can wait.
      rw [Option.some_or, ← hgiven]
      constructor
      · exact fun hsince => ⟨index + 1, hsince, waits_succ_iff.2 (.inl rfl)⟩
      · rintro ⟨since, hsince, hwaits⟩
        rcases waits_succ_iff.1 hwaits with rfl | ⟨-, hnone, -⟩
        · exact hsince
        · rw [hgiven] at hnone
          cases hnone
    | none =>
      rw [Option.none_or]
      constructor
      · intro hpending
        by_cases hlate : LateFrame config steps index
        · rw [if_pos hlate] at hpending
          cases hpending
        · rw [if_neg hlate] at hpending
          obtain ⟨since, hsince, hwaits⟩ := ih.1 hpending
          exact ⟨since, hsince, waits_succ_iff.2 (.inr ⟨hwaits, hgiven, hlate⟩)⟩
      · rintro ⟨since, hsince, hwaits⟩
        rcases waits_succ_iff.1 hwaits with rfl | ⟨hwaits, -, hlate⟩
        · rw [hgiven] at hsince
          cases hsince
        · rw [if_neg hlate]
          exact ih.2 ⟨since, hsince, hwaits⟩

/-! ## Trials -/

theorem trialAt_eq_some {session : Session} {steps : List Step} {index : Nat} {trial : Trial}
    (h : session.trialAt steps index = some trial) :
    ∃ step, steps[index]? = some step ∧
      (session.before steps index).trial? step = some trial :=
  Option.bind_eq_some_iff.1 h

/-- A step tries a file exactly if it is a late frame and the file waits. -/
theorem trialAt_eq_some_iff {config : Config} {file : Option File} {steps : List Step}
    {frame : Nat} {trial : Trial} :
    (start config file).1.trialAt steps frame = some trial ↔
      ∃ time, steps[frame]? = some (.frame time trial.answers) ∧
        LateFrame config steps frame ∧
        ((start config file).1.before steps frame).pending = some trial.file := by
  constructor
  · intro h
    obtain ⟨step, hstep, htrial⟩ := trialAt_eq_some h
    cases step with
    | frame time answers =>
      obtain ⟨waiting, hdue, rfl⟩ := Option.map_eq_some_iff.1 htrial
      obtain ⟨hpassed, hpending⟩ := due_eq_some_iff.1 hdue
      rw [later_config, before_config, start_config] at hpassed
      exact ⟨time, hstep, (lateFrame_iff config file hstep).2 ⟨rfl, hpassed⟩, hpending⟩
    | drop dropped => cases htrial
    | charInput c => cases htrial
    | keyDown key => cases htrial
    | keyUp key => cases htrial
  · rintro ⟨time, hstep, hlate, hpending⟩
    have hpassed := ((lateFrame_iff config file hstep).1 hlate).2
    have hdue : (((start config file).1.before steps frame).later time).due =
        some trial.file := by
      refine due_eq_some_iff.2 ⟨?_, hpending⟩
      rw [later_config, before_config, start_config]
      exact hpassed
    rw [trialAt, hstep]
    show ((((start config file).1.before steps frame).later time).due.map
      (⟨·, trial.answers⟩) : Option Trial) = some trial
    rw [hdue]
    rfl

/-- What a step tries and what waits after it is what waited before it or what it
gives. -/
theorem trial_pending_sublist (session : Session) (step : Step) :
    (((session.trial? step).map Trial.file).toList ++
      (session.step step).1.pending.toList).Sublist
        (session.pending.toList ++ step.dropped?.toList) := by
  cases step with
  | frame time answers =>
    have hpending := frame_pending session time answers
    show (((((session.later time).due.map (⟨·, answers⟩) : Option Trial)).map
        Trial.file).toList ++ (session.frame time answers).1.pending.toList).Sublist
      (session.pending.toList ++ [])
    rw [hpending, List.append_nil]
    cases hdue : (session.later time).due with
    | none =>
      split
      · exact List.nil_sublist _
      · exact List.Sublist.refl _
    | some waiting =>
      obtain ⟨hpassed, hwaiting⟩ := due_eq_some_iff.1 hdue
      rw [later_config] at hpassed
      rw [if_pos hpassed, show session.pending = some waiting from hwaiting]
      exact List.Sublist.refl _
  | drop dropped => exact List.sublist_append_right _ _
  | charInput c => exact List.sublist_append_left _ _
  | keyDown key => exact List.sublist_append_left _ _
  | keyUp key => exact List.sublist_append_left _ _

/-- The files that a run tries are, in order, among those that are given to it, each of
them once at most. -/
theorem trials_sublist (session : Session) (steps : List Step) :
    ((session.trials steps).map Trial.file).Sublist
      (session.pending.toList ++ steps.filterMap Step.dropped?) := by
  induction steps generalizing session with
  | nil => exact List.nil_sublist _
  | cons first rest ih =>
    -- What waits after the first step is what the rest of the run starts with.
    have hstep := trial_pending_sublist session first
    have hrest := ih (session.step first).1
    have hfirst : ((session.trial? first).map Trial.file).toList =
        (session.trial? first).toList.map Trial.file := by
      cases session.trial? first <;> rfl
    have hgiven : (first :: rest).filterMap Step.dropped? =
        first.dropped?.toList ++ rest.filterMap Step.dropped? := by
      cases h : first.dropped? with
      | none => rw [List.filterMap_cons_none h]; rfl
      | some dropped => rw [List.filterMap_cons_some h]; rfl
    rw [hfirst] at hstep
    rw [trials, List.map_append, hgiven, ← List.append_assoc]
    refine (hrest.append_left _).trans ?_
    rw [← List.append_assoc]
    exact hstep.append_right _

/-- Every file that is given is tried once, in its turn, or never, if it is replaced
before: each turn is a trial (1), each trial is the turn of just one file (2), a turn
comes once (3) and not to a file that is replaced in time (4), and so the files tried
are among those given, each once at most (5).  The start only boots the machine (6).  A
step without a trial only presses and releases keys; one with a trial attempts its file,
and no step makes two offers to the machine or shows the end of two attempts (7). -/
theorem tried_once_in_turn (config : Config) (file : Option File) (steps : List Step) :
    let first := (start config file).1
    (∀ since frame given, given? file steps since = some given →
      Turn config file steps since frame →
        ∃ time answers, steps[frame]? = some (.frame time answers) ∧
          first.trialAt steps frame = some ⟨given, answers⟩) ∧
    (∀ frame trial, first.trialAt steps frame = some trial →
      ∃ since, given? file steps since = some trial.file ∧
        Turn config file steps since frame ∧
        ∀ other, given? file steps other = some trial.file →
          Turn config file steps other frame → other = since) ∧
    (∀ since frame other, Turn config file steps since frame →
      Turn config file steps since other → frame = other) ∧
    (∀ since replaced, since < replaced → given? file steps replaced ≠ none →
      (∀ index < replaced, since ≤ index → ¬LateFrame config steps index) →
        ∀ frame, ¬Turn config file steps since frame) ∧
    ((first.trials steps).map Trial.file).Sublist
      (file.toList ++ steps.filterMap Step.dropped?) ∧
    (start config file).2 = [.call (.boot config.model)] ∧
    ∀ index effects, (first.run steps).2[index]? = some effects →
      (first.trialAt steps index = none → ∀ effect ∈ effects, effect.purpose = .key) ∧
      (∀ trial, first.trialAt steps index = some trial →
        ∃ time typing, steps[index]? = some (.frame time trial.answers) ∧
          effects = (((first.before steps index).later time).attempt
            trial.answers trial.file).2 ++ typing ∧
          ∀ effect ∈ typing, effect.purpose = .key) ∧
      countOf .offer effects ≤ 1 ∧ countOf .success effects + countOf .failure effects ≤ 1 := by
  intro first
  refine ⟨?_, ?_, fun since frame other h hother => h.unique hother, ?_, ?_, rfl, ?_⟩
  · intro since frame given hgiven hturn
    have hframe := hturn.late.1
    cases hstep : steps[frame]? with
    | none =>
      rw [hstep] at hframe
      cases hframe
    | some step =>
      rw [hstep] at hframe
      cases step with
      | frame time answers =>
        refine ⟨time, answers, rfl, trialAt_eq_some_iff.2 ⟨time, hstep, hturn.late, ?_⟩⟩
        exact pending_before_iff.2 ⟨since, hgiven, hturn.toWaits⟩
      | drop dropped => cases hframe
      | charInput c => cases hframe
      | keyDown key => cases hframe
      | keyUp key => cases hframe
  · intro frame trial htrial
    obtain ⟨time, -, hlate, hpending⟩ := trialAt_eq_some_iff.1 htrial
    obtain ⟨since, hgiven, hwaits⟩ := pending_before_iff.1 hpending
    refine ⟨since, hgiven, ⟨hwaits, hlate⟩, ?_⟩
    intro other hother hturn
    exact hturn.toWaits.unique hwaits (by rw [hother]; simp) (by rw [hgiven]; simp)
  · exact fun since replaced hlt hgiven hearly => not_turn_of_replaced hlt hgiven hearly
  · have hsublist := trials_sublist first steps
    rwa [start_pending] at hsublist
  · intro index effects heffects
    rw [getElem?_effects] at heffects
    obtain ⟨step, hstep, rfl⟩ := Option.map_eq_some_iff.1 heffects
    have htrial : first.trialAt steps index = (first.before steps index).trial? step := by
      rw [trialAt, hstep]
      rfl
    rw [htrial]
    refine ⟨fun hnone effect hmem => purpose_of_no_trial hnone hmem, ?_,
      countOf_step_le (first.before steps index) step⟩
    intro trial hsome
    obtain ⟨time, typing, rfl, hattempt, htyping⟩ := step_of_trial hsome
    exact ⟨time, typing, hstep, hattempt, htyping⟩

/-- The first file is replaced before its turn, the second is tried and fails, and the
third is tried after it, with a key of the user in between. -/
theorem tried_once_in_turn_of_three_files :
    let config : Config := ⟨.z1013v64, 0, 0, none⟩
    let file : Option File := some ⟨"a.z80", [1]⟩
    let steps : List Step :=
      [.drop ⟨"b.z80", [2]⟩, .frame 20000 ⟨true, false⟩, .keyDown .enter,
        .drop ⟨"c.z80", [3]⟩, .frame 5 ⟨true, true⟩]
    let first := (start config file).1
    (∀ frame, ¬Turn config file steps 0 frame) ∧
    first.trialAt steps 1 = some ⟨⟨"b.z80", [2]⟩, ⟨true, false⟩⟩ ∧
    first.trialAt steps 4 = some ⟨⟨"c.z80", [3]⟩, ⟨true, true⟩⟩ ∧
    (∀ frame, Turn config file steps 1 frame → frame = 1) ∧
    (∃ since, given? file steps since = some ⟨"c.z80", [3]⟩ ∧
      Turn config file steps since 4) ∧
    (∃ effects, (first.run steps).2[1]? = some effects ∧ countOf .failure effects ≤ 1) ∧
    ∃ effects, (first.run steps).2[2]? = some effects ∧
      ∀ effect ∈ effects, effect.purpose = .key := by
  intro config file steps first
  obtain ⟨hturn, htrial, honce, hreplaced, -, -, heffects⟩ := tried_once_in_turn config file steps
  have hb : Turn config file steps 1 1 := ⟨⟨by decide, by decide, by decide⟩, by decide⟩
  have hc : Turn config file steps 4 4 := ⟨⟨by decide, by decide, by decide⟩, by decide⟩
  obtain ⟨_, answers, hframe, htried⟩ := hturn 1 1 _ rfl hb
  cases hframe
  obtain ⟨_, answers, hframe, hlast⟩ := hturn 4 4 _ rfl hc
  cases hframe
  refine ⟨hreplaced 0 1 (by decide) (by decide) (by decide), htried, hlast,
    fun frame h => honce 1 frame 1 h hb, ?_, ⟨_, rfl, ?_⟩, ⟨_, rfl, ?_⟩⟩
  · obtain ⟨since, hgiven, hsince, -⟩ := htrial 4 _ hlast
    exact ⟨since, hgiven, hsince⟩
  · exact Nat.le_trans (Nat.le_add_left _ _) (heffects 1 _ rfl).2.2.2
  · exact (heffects 2 _ rfl).1 rfl

end Cassette.Frontend.Session
