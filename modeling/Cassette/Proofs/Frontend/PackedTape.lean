import Mathlib.Data.List.Forall2
import Cassette.Proofs.Frontend.Outputs

/-!
# A packed tape in the front-end

A file that is an archive and one that is the image in it (`File.Packs`) are loaded in the
same way (`load_of_packs`), but for the record that names the entry and for the name of
the file in a warning.  Two sessions in which one of them waits here and the other one
there (`Session.Alike`) therefore stay alike whatever happens, and each step puts out the
same in both (`Unpacks`).

The step lemma is `Session.Alike.step`; the run lemma `Session.Alike.run` is the induction
over the steps.  Only a frame that tries the file that waits is of interest there: every
other step treats a file that waits as what it is, something that waits.
-/

namespace Cassette.Frontend

open Log

/-- One file is an archive by its name, the other one an image. -/
structure File.Packs (zipped raw : File) (archive image : List UInt8) : Prop where
  isArchive : Path.extension zipped.name = "zip"
  isImage : Path.extension raw.name = "k7"
  archive : zipped.data = archive
  image : raw.data = image

/-! ## Effects -/

/-- Two effects are the same, or warn that a file was not loaded for the same reason. -/
inductive Effect.Renamed (name other : String) : Effect → Effect → Prop
  | same (effect : Effect) : Renamed name other effect effect
  | loadFailed (error : LoadError) :
      Renamed name other (.log (.loadFailed name error)) (.log (.loadFailed other error))

/-- Some effects are the same as others, or the others insert an image, and the effects
start with the record of an entry and are then the same but for the name of the file in a
warning. -/
inductive Unpacks (entry name other : String) : List Effect → List Effect → Prop
  | same (effects : List Effect) : Unpacks entry name other effects effects
  | inserting {effects others : List Effect} {taken : Bool}
      (hmem : Effect.log (.inserting taken) ∈ others)
      (hrenamed : List.Forall₂ (Effect.Renamed name other) effects others) :
      Unpacks entry name other (.log (.unzipping entry) :: effects) others

/-- The effects that are no records: the calls of the machine and what the user is shown. -/
def withoutRecords (effects : List Effect) : List Effect :=
  effects.filter fun effect => effect.purpose ≠ .record

variable {entry name other : String} {effects others : List Effect}

theorem renamed_refl (effects : List Effect) :
    List.Forall₂ (Effect.Renamed name other) effects effects :=
  List.forall₂_same.2 fun effect _ => .same effect

theorem Unpacks.append (h : Unpacks entry name other effects others) (later : List Effect) :
    Unpacks entry name other (effects ++ later) (others ++ later) := by
  cases h with
  | same => exact .same _
  | inserting hmem hrenamed =>
    exact .inserting (List.mem_append_left later hmem)
      (List.rel_append hrenamed (renamed_refl later))

theorem withoutRecords_of_renamed (h : List.Forall₂ (Effect.Renamed name other) effects others) :
    withoutRecords effects = withoutRecords others := by
  induction h with
  | nil => rfl
  | cons hfirst _ ih =>
    unfold withoutRecords at ih ⊢
    cases hfirst with
    | same effect => rw [List.filter_cons, List.filter_cons, ih]
    | loadFailed error => exact ih

/-- Only records tell a packed tape from one that is not. -/
theorem Unpacks.withoutRecords_eq (h : Unpacks entry name other effects others) :
    withoutRecords effects = withoutRecords others := by
  cases h with
  | same => rfl
  | @inserting back others taken hmem hrenamed =>
    show withoutRecords back = withoutRecords others
    exact withoutRecords_of_renamed hrenamed

/-! ## Loading -/

/-- Inserting an image is logged, whether there is a tape and the machine takes it or not. -/
theorem inserting_mem_insert (answers : Answers) (image : List UInt8) :
    ∃ taken, Effect.log (.inserting taken) ∈ (insert answers image).outputs :=
  ⟨_, List.mem_append_right _ List.mem_cons_self⟩

section Packed

variable {zipped raw : File} {archive image : List UInt8}
  (h : zipped.Packs raw archive image)
  (hunpacked : Archive.image archive = ⟨[.unzipping entry], .ok image⟩)

include h

theorem load_of_image (answers : Answers) : load .vg5000 answers raw = insert answers image := by
  have hkind : raw.kind .vg5000 = .image := by
    unfold File.kind
    rw [h.isImage]
    rfl
  simp only [load, hkind, h.image]

include hunpacked

/-- An archive is loaded as the image in it, once the entry was named. -/
theorem load_of_packs (answers : Answers) :
    load .vg5000 answers zipped =
      ⟨.log (.unzipping entry) :: (load .vg5000 answers raw).outputs,
        (load .vg5000 answers raw).result⟩ := by
  have hkind : zipped.kind .vg5000 = .archive := by
    unfold File.kind
    rw [h.isArchive]
    rfl
  rw [load_of_image h]
  simp only [load, hkind, h.archive, hunpacked]
  rfl

namespace Session

theorem attempt_of_packs {session : Session} (hsystem : session.config.system = .vg5000)
    (answers : Answers) :
    (session.attempt answers zipped).1 = (session.attempt answers raw).1 ∧
      Unpacks entry zipped.name raw.name (session.attempt answers zipped).2
        (session.attempt answers raw).2 := by
  have hzipped := load_of_packs h hunpacked answers
  obtain ⟨taken, hmem⟩ := inserting_mem_insert answers image
  rw [← load_of_image h] at hmem
  rw [← hsystem] at hzipped hmem
  cases hraw : load session.config.system answers raw with
  | mk outputs result =>
    rw [hraw] at hzipped hmem
    cases result with
    | ok text =>
      rw [attempt_of_ok hzipped, attempt_of_ok hraw]
      exact ⟨rfl, .inserting (List.mem_append_left _ hmem) (renamed_refl _)⟩
    | error error =>
      rw [attempt_of_error hzipped, attempt_of_error hraw]
      refine ⟨rfl, .inserting (List.mem_append_left _ hmem) ?_⟩
      exact List.rel_append (renamed_refl outputs)
        (.cons (.loadFailed error) (.cons (.same .flashError) .nil))

end Session

end Packed

namespace Session

/-! ## Sessions that differ in the file that waits -/

/-- Two sessions are the same, or were the same before each was given its file. -/
inductive Alike (zipped raw : File) : Session → Session → Prop
  | same (session : Session) : Alike zipped raw session session
  | waiting (session : Session) : Alike zipped raw (session.drop zipped) (session.drop raw)

/-- Two steps are the same, or each gives its file. -/
inductive Step.Alike (zipped raw : File) : Step → Step → Prop
  | same (step : Step) : Alike zipped raw step step
  | drop : Alike zipped raw (.drop zipped) (.drop raw)

/-- Booting with one file or the other makes no difference but for the file. -/
theorem start_alike (config : Config) (zipped raw : File) :
    Alike zipped raw (start config (some zipped)).1 (start config (some raw)).1 ∧
      (start config (some zipped)).2 = (start config (some raw)).2 :=
  ⟨.waiting ⟨config, .empty config.keyDelay, none, 0⟩, rfl⟩

section Packed

variable {zipped raw : File} {archive image : List UInt8}
  (h : zipped.Packs raw archive image)
  (hunpacked : Archive.image archive = ⟨[.unzipping entry], .ok image⟩)
  {session other : Session} (hsystem : session.config.system = .vg5000)

include h hunpacked hsystem

/-- A frame finds both files due or none. -/
theorem frame_drop_of_packs (time : Nat) (answers : Answers) :
    Alike zipped raw ((session.drop zipped).frame time answers).1
        ((session.drop raw).frame time answers).1 ∧
      Unpacks entry zipped.name raw.name ((session.drop zipped).frame time answers).2
        ((session.drop raw).frame time answers).2 := by
  have htrial (file : File) : (session.drop file).trial? (.frame time answers) =
      if session.config.loadDelay < (session.later time).frames
      then some ⟨file, answers⟩ else none := by
    show Option.map _ (if session.config.loadDelay < (session.later time).frames
      then some file else none) = _
    split <;> rfl
  by_cases hdue : session.config.loadDelay < (session.later time).frames
  · rw [frame_of_trial ((htrial zipped).trans (if_pos hdue)),
      frame_of_trial ((htrial raw).trans (if_pos hdue))]
    -- Neither file waits any more, so the sessions are the same from here on.
    have hlater : ((session.drop raw).later time).config.system = .vg5000 := hsystem
    obtain ⟨hsession, heffects⟩ := attempt_of_packs h hunpacked hlater answers
    have hzipped : ((session.drop zipped).later time).attempt answers zipped =
        ((session.drop raw).later time).attempt answers zipped := rfl
    simp only [hzipped, hsession]
    exact ⟨.same _, heffects.append _⟩
  · rw [frame_of_no_trial ((htrial zipped).trans (if_neg hdue)),
      frame_of_no_trial ((htrial raw).trans (if_neg hdue))]
    exact ⟨.waiting (((session.later time).typeKey time).1), .same _⟩

/-- A step keeps sessions alike and puts out the same in both. -/
theorem Alike.step (halike : session.Alike zipped raw other) {step next : Step}
    (hstep : step.Alike zipped raw next) :
    Alike zipped raw (session.step step).1 (other.step next).1 ∧
      Unpacks entry zipped.name raw.name (session.step step).2 (other.step next).2 := by
  cases halike with
  | same session =>
    cases hstep with
    | same step => exact ⟨.same _, .same _⟩
    | drop => exact ⟨.waiting session, .same _⟩
  | waiting session =>
    cases hstep with
    | drop => exact ⟨.waiting session, .same _⟩
    | same step =>
      cases step with
      | frame time answers => exact frame_drop_of_packs h hunpacked hsystem time answers
      | drop file => exact ⟨.same (session.drop file), .same _⟩
      | charInput c => exact ⟨.waiting session, .same _⟩
      | keyDown key => exact ⟨.waiting session, .same _⟩
      | keyUp key => exact ⟨.waiting session, .same _⟩

/-- A run keeps sessions alike, and each of its steps puts out the same in both. -/
theorem Alike.run (halike : session.Alike zipped raw other) {steps others : List Step}
    (hsteps : List.Forall₂ (Step.Alike zipped raw) steps others) :
    Alike zipped raw (session.run steps).1 (other.run others).1 ∧
      List.Forall₂ (Unpacks entry zipped.name raw.name) (session.run steps).2
        (other.run others).2 := by
  induction hsteps generalizing session other with
  | nil => exact ⟨halike, .nil⟩
  | cons hstep _ ih =>
    obtain ⟨hafter, heffects⟩ := halike.step h hunpacked hsystem hstep
    obtain ⟨hlast, hothers⟩ := ih (by rw [step_config, hsystem]) hafter
    rw [run_cons, run_cons]
    exact ⟨hlast, .cons heffects hothers⟩

end Packed

end Session

end Cassette.Frontend
