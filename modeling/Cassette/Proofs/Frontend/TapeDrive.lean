import Mathlib.Data.List.Basic
import Cassette.Proofs.Archive.Choice
import Cassette.Proofs.Frontend.Schedule
import Cassette.Proofs.Tape.Capacity

/-!
# What reaches the tape drive

Only a VG5000 has a drive, and all that its drive gets in a run is the tape of an image that
a file holds, as an image or as an archive (`File.Holds`).  What is put out about the drive
for an image is `driven`: the tape, if there is one, the room that it took, and whether it
was inserted.  These effects stand together, and apart from them nothing in a step concerns
the drive (`Within`).

`Driving` tells the two ways in which a load can go as far as the drive is concerned.  Each
part of a step that does not concern the drive is then added around a load
(`Driving.append`).  An image comes to the drive where a file that holds it is due
(`Session.ImageDue`), and `Session.tape_drive_of_run` says what can be seen at any step of a
run by whether one does.
-/

namespace Cassette.Frontend

/-- A file holds an image: as its data, or packed in an archive. -/
inductive File.Holds (file : File) (image : List UInt8) : Prop
  | plain (hextension : Path.extension file.name = "k7") (hdata : file.data = image)
  | packed (hextension : Path.extension file.name = "zip")
      (himage : (Archive.image file.data).result = .ok image)

/-- The effect concerns the tape drive: it gets a tape, the room of a tape is given back, or
it is logged whether a tape was inserted. -/
def Effect.isOfDrive : Effect → Bool
  | .call (.insertTape _) | .log (.released _) | .log (.inserting _) => true
  | _ => false

/-- What is put out about the drive for an image. -/
def driven (answers : Answers) (image : List UInt8) : List Effect :=
  match Tape.encode image with
  | .ok tape =>
      [.call (.insertTape tape), .log tape.release, .log (.inserting answers.takesTape)]
  | .error _ => [.log (.inserting false)]

/-- None of some effects concerns the drive. -/
def Aside (effects : List Effect) : Prop :=
  ∀ effect ∈ effects, effect.isOfDrive = false

/-- Some effects stand together among others, of which no more concern the drive. -/
def Within (part effects : List Effect) : Prop :=
  ∃ earlier later, effects = earlier ++ part ++ later ∧ Aside earlier ∧ Aside later

theorem Aside.append {effects others : List Effect} (h : Aside effects)
    (hothers : Aside others) : Aside (effects ++ others) := by
  intro effect hmem
  rcases List.mem_append.1 hmem with hmem | hmem
  · exact h effect hmem
  · exact hothers effect hmem

theorem aside_nil : Aside [] := fun _ hmem => nomatch hmem

theorem aside_cons {effect : Effect} {rest : List Effect} (h : effect.isOfDrive = false)
    (hrest : Aside rest) : Aside (effect :: rest) :=
  List.forall_mem_cons.2 ⟨h, hrest⟩

theorem Aside.not_mem {effects : List Effect} {effect : Effect} (h : Aside effects)
    (hdrive : effect.isOfDrive = true) : effect ∉ effects := by
  intro hmem
  rw [h effect hmem] at hdrive
  cases hdrive

/-- Keys do not concern the drive. -/
theorem aside_of_purpose {effects : List Effect} (h : ∀ effect ∈ effects, effect.purpose = .key) :
    Aside effects := by
  intro effect hmem
  have hpurpose := h effect hmem
  unfold Effect.isOfDrive
  split
  · cases hpurpose
  · cases hpurpose
  · cases hpurpose
  · rfl

theorem aside_success (session : Session) : Aside session.success := by
  unfold Session.success
  split
  · exact aside_cons rfl aside_nil
  · exact aside_nil

namespace Within

variable {part effects others : List Effect}

theorem append (h : Within part effects) (hothers : Aside others) :
    Within part (effects ++ others) := by
  obtain ⟨earlier, later, rfl, hearlier, hlater⟩ := h
  exact ⟨earlier, later ++ others, List.append_assoc _ _ _, hearlier, hlater.append hothers⟩

theorem prepend (h : Within part effects) (hothers : Aside others) :
    Within part (others ++ effects) := by
  obtain ⟨earlier, later, rfl, hearlier, hlater⟩ := h
  exact ⟨others ++ earlier, later, by simp only [List.append_assoc], hothers.append hearlier,
    hlater⟩

/-- Around a call with a tape among what is put out about an image: the tape is the one of
the image, and its room is given back and the answer logged right after the call. -/
theorem of_call {answers : Answers} {image : List UInt8} {effects earlier later : List Effect}
    {tape : Tape} (h : Within (driven answers image) effects)
    (heffects : effects = earlier ++ .call (.insertTape tape) :: later) :
    Tape.encode image = .ok tape ∧ ∃ rest,
      later = .log tape.release :: .log (.inserting answers.takesTape) :: rest ∧
        Aside earlier ∧ Aside rest := by
  obtain ⟨before, after, hwithin, hbefore, hafter⟩ := h
  have hnotBefore : .call (.insertTape tape) ∉ before := hbefore.not_mem rfl
  have hnotAfter : .call (.insertTape tape) ∉ after := hafter.not_mem rfl
  cases hencode : Tape.encode image with
  | error error =>
    -- Nothing that is put out is a call.
    rw [driven, hencode] at hwithin
    have hmem : Effect.call (.insertTape tape) ∈ before ++ [.log (.inserting false)] ++ after := by
      rw [← hwithin, heffects]
      simp
    simp [hnotBefore, hnotAfter] at hmem
  | ok encoded =>
    rw [driven, hencode] at hwithin
    have hsplit : before ++ .call (.insertTape encoded) ::
          .log encoded.release :: .log (.inserting answers.takesTape) :: after =
        earlier ++ .call (.insertTape tape) :: later := by
      rw [← heffects, hwithin]
      simp
    obtain ⟨rfl, hcall, rfl⟩ := (List.append_cons_inj_of_notMem hnotBefore
      (by simp [hnotAfter])).1 hsplit
    cases hcall
    exact ⟨rfl, after, rfl, hbefore, hafter⟩

end Within

/-! ## Loads -/

/-- What a load and what is put out around it is for the drive. -/
inductive Driving (system : System) (answers : Answers) (file : File) : List Effect → Prop
  /-- The file holds an image, which goes the way of every image. -/
  | image {image : List UInt8} {effects : List Effect} (hsystem : system = .vg5000)
      (hholds : file.Holds image) (hwithin : Within (driven answers image) effects) :
      Driving system answers file effects
  /-- The file holds no image, or there is no drive for it. -/
  | aside {effects : List Effect} (hnone : system = .vg5000 → ∀ image, ¬file.Holds image)
      (haside : Aside effects) : Driving system answers file effects

theorem Driving.append {system : System} {answers : Answers} {file : File}
    {effects others : List Effect} (h : Driving system answers file effects)
    (hothers : Aside others) : Driving system answers file (effects ++ others) := by
  cases h with
  | image hsystem hholds hwithin => exact .image hsystem hholds (hwithin.append hothers)
  | aside hnone haside => exact .aside hnone (haside.append hothers)

theorem within_insert (answers : Answers) (image : List UInt8) :
    Within (driven answers image) (insert answers image).outputs := by
  unfold driven
  cases hencode : Tape.encode image with
  | error error =>
    rw [insert_of_error hencode]
    exact ⟨[.log (.notEncoded error)], [], rfl, aside_cons rfl aside_nil, aside_nil⟩
  | ok tape =>
    rw [insert_of_ok hencode]
    exact ⟨[_], [], rfl, aside_cons rfl aside_nil, aside_nil⟩

/-- A file holds one image at most. -/
theorem File.Holds.unique {file : File} {image other : List UInt8} (h : file.Holds image)
    (hother : file.Holds other) : image = other := by
  cases h with
  | plain hextension hdata =>
    cases hother with
    | plain _ hotherData => rw [← hdata, hotherData]
    | packed hzip _ => exact absurd (hextension.symm.trans hzip) (by decide)
  | packed hextension himage =>
    cases hother with
    | plain hplain _ => exact absurd (hextension.symm.trans hplain) (by decide)
    | packed _ hotherImage => exact Except.ok.inj (himage.symm.trans hotherImage)

/-- Looking for a tape in an archive does not concern the drive. -/
theorem aside_image (archive : List UInt8) :
    Aside ((Archive.image archive).outputs.map .log) := by
  rcases Archive.image_cases archive with ⟨error, h⟩ | ⟨name, result, h⟩
  · rw [h]
    exact aside_nil
  · rw [h]
    exact aside_cons rfl aside_nil

theorem File.kind_eq_image_iff {system : System} {file : File} :
    file.kind system = .image ↔ system = .vg5000 ∧ Path.extension file.name = "k7" := by
  unfold File.kind
  generalize Path.extension file.name = extension
  split <;> simp_all

theorem File.kind_eq_archive_iff {system : System} {file : File} :
    file.kind system = .archive ↔ system = .vg5000 ∧ Path.extension file.name = "zip" := by
  unfold File.kind
  generalize Path.extension file.name = extension
  split <;> simp_all

/-- What is neither an image nor an archive to a machine holds no image for its drive. -/
theorem not_holds_of_kind {system : System} {file : File} (himage : file.kind system ≠ .image)
    (harchive : file.kind system ≠ .archive) (hsystem : system = .vg5000)
    (image : List UInt8) : ¬file.Holds image := by
  intro h
  cases h with
  | plain hextension _ => exact himage (File.kind_eq_image_iff.2 ⟨hsystem, hextension⟩)
  | packed hextension _ => exact harchive (File.kind_eq_archive_iff.2 ⟨hsystem, hextension⟩)

theorem driving_load (system : System) (answers : Answers) (file : File) :
    Driving system answers file (load system answers file).outputs := by
  unfold load
  cases hkind : file.kind system with
  | image =>
    obtain ⟨hsystem, hextension⟩ := File.kind_eq_image_iff.1 hkind
    exact .image hsystem (.plain hextension rfl) (within_insert answers file.data)
  | archive =>
    obtain ⟨hsystem, hextension⟩ := File.kind_eq_archive_iff.1 hkind
    have haside := aside_image file.data
    cases himage : Archive.image file.data with
    | mk records result =>
      rw [himage] at haside
      cases result with
      | error error =>
        refine .aside (fun _ image hholds => ?_) haside
        cases hholds with
        | plain hplain _ => exact absurd (hextension.symm.trans hplain) (by decide)
        | packed _ hok => rw [himage] at hok; cases hok
      | ok image =>
        have hholds : file.Holds image := .packed hextension (by rw [himage])
        exact .image hsystem hholds ((within_insert answers image).prepend haside)
  | listing =>
    exact .aside (not_holds_of_kind (by rw [hkind]; decide) (by rw [hkind]; decide)) aside_nil
  | program =>
    exact .aside (not_holds_of_kind (by rw [hkind]; decide) (by rw [hkind]; decide))
      (aside_cons rfl aside_nil)

/-! ## Steps -/

namespace Session

theorem driving_attempt (session : Session) (answers : Answers) (file : File) :
    Driving session.config.system answers file (session.attempt answers file).2 := by
  have hload := driving_load session.config.system answers file
  cases h : load session.config.system answers file with
  | mk outputs result =>
    rw [h] at hload
    cases result with
    | ok text =>
      rw [attempt_of_ok h]
      exact hload.append (aside_success session)
    | error error =>
      rw [attempt_of_error h]
      exact hload.append (aside_cons rfl (aside_cons rfl aside_nil))

/-- In a step with a trial the drive gets what the load of its file puts out. -/
theorem driving_step {session : Session} {step : Step} {trial : Trial}
    (h : session.trial? step = some trial) :
    Driving session.config.system trial.answers trial.file (session.step step).2 := by
  obtain ⟨time, typing, -, heffects, htyping⟩ := step_of_trial h
  rw [heffects]
  exact (driving_attempt (session.later time) trial.answers trial.file).append
    (aside_of_purpose htyping)

theorem aside_step {session : Session} {step : Step} (h : session.trial? step = none) :
    Aside (session.step step).2 :=
  aside_of_purpose fun _ hmem => purpose_of_no_trial h hmem

variable {config : Config} {file : Option File} {steps : List Step} {index : Nat}
  {effects : List Effect}

theorem aside_of_run (heffects : ((start config file).1.run steps).2[index]? = some effects)
    (h : (start config file).1.trialAt steps index = none) : Aside effects := by
  obtain ⟨step, hstep, rfl⟩ := exists_step heffects
  rw [trialAt, hstep] at h
  exact aside_step h

theorem driving_of_run {trial : Trial}
    (heffects : ((start config file).1.run steps).2[index]? = some effects)
    (h : (start config file).1.trialAt steps index = some trial) :
    Driving config.system trial.answers trial.file effects := by
  obtain ⟨step, hstep, rfl⟩ := exists_step heffects
  rw [trialAt, hstep] at h
  have hdriving := driving_step h
  rwa [before_config, start_config] at hdriving

/-- An image comes to the drive at a step of a run: the step is a frame of a VG5000 after the
delay before loading, and the file that waits holds the image. -/
structure ImageDue (config : Config) (file : Option File) (steps : List Step) (index : Nat)
    (answers : Answers) (image : List UInt8) : Prop where
  system : config.system = .vg5000
  frame : ∃ time, steps[index]? = some (.frame time answers)
  late : LateFrame config steps index
  holds : ∃ waiting, ((start config file).1.before steps index).pending = some waiting ∧
    waiting.Holds image

/-- An image comes to the drive where a file that holds it is tried. -/
theorem imageDue_iff {answers : Answers} {image : List UInt8} :
    ImageDue config file steps index answers image ↔ config.system = .vg5000 ∧
      ∃ waiting, (start config file).1.trialAt steps index = some ⟨waiting, answers⟩ ∧
        waiting.Holds image := by
  constructor
  · rintro ⟨hsystem, ⟨time, hframe⟩, hlate, waiting, hpending, hholds⟩
    exact ⟨hsystem, waiting, trialAt_eq_some_iff.2 ⟨time, hframe, hlate, hpending⟩, hholds⟩
  · rintro ⟨hsystem, waiting, htrial, hholds⟩
    obtain ⟨time, hframe, hlate, hpending⟩ := trialAt_eq_some_iff.1 htrial
    exact ⟨hsystem, ⟨time, hframe⟩, hlate, waiting, hpending, hholds⟩

/-- One image at most comes to the drive at a step. -/
theorem ImageDue.unique {answers otherAnswers : Answers} {image other : List UInt8}
    (h : ImageDue config file steps index answers image)
    (hother : ImageDue config file steps index otherAnswers other) :
    answers = otherAnswers ∧ image = other := by
  obtain ⟨-, waiting, htrial, hholds⟩ := imageDue_iff.1 h
  obtain ⟨-, otherWaiting, hotherTrial, hotherHolds⟩ := imageDue_iff.1 hother
  cases htrial.symm.trans hotherTrial
  exact ⟨rfl, hholds.unique hotherHolds⟩

/-- Where an image comes to the drive, it goes the way of every image. -/
theorem within_of_imageDue {answers : Answers} {image : List UInt8}
    (heffects : ((start config file).1.run steps).2[index]? = some effects)
    (h : ImageDue config file steps index answers image) :
    Within (driven answers image) effects := by
  obtain ⟨hsystem, waiting, htrial, hholds⟩ := imageDue_iff.1 h
  cases driving_of_run heffects htrial with
  | aside hnone haside => exact absurd hholds (hnone hsystem image)
  | image _ hother hwithin =>
    obtain rfl := hholds.unique hother
    exact hwithin

/-- What concerns the drive is put out where an image comes to it. -/
theorem exists_imageDue {effect : Effect}
    (heffects : ((start config file).1.run steps).2[index]? = some effects)
    (hmem : effect ∈ effects) (hdrive : effect.isOfDrive = true) :
    ∃ answers image, ImageDue config file steps index answers image := by
  cases htrial : (start config file).1.trialAt steps index with
  | none => exact absurd hmem ((aside_of_run heffects htrial).not_mem hdrive)
  | some trial =>
    cases driving_of_run heffects htrial with
    | aside hnone haside => exact absurd hmem (haside.not_mem hdrive)
    | image hsystem hholds hwithin =>
      exact ⟨trial.answers, _, imageDue_iff.2 ⟨hsystem, trial.file, htrial, hholds⟩⟩

/-- What the tape drive gets in a run.  The start only boots the machine, and the two kinds
of records about the drive tell the room of a tape and whether it was inserted (1).  A tape
is only inserted where an image comes to the drive of a VG5000, and it is the tape of that
image: it decodes to the image, and its room goes by the length of the image.  Right after
the call the room is given back, once, and the answer of the machine is logged, once (2).
Nothing else concerns the drive: where no image comes to it nothing is put out about it (3),
an image that has a tape is inserted (4), and for one that has none it is only logged that no
tape was inserted (5). -/
theorem tape_drive_of_run (config : Config) (file : Option File) (steps : List Step) :
    (start config file).2 = [.call (.boot config.model)] ∧
    (∀ bytes, (Log.Record.released bytes).text = s!"releasing tape buffer of {bytes} bytes") ∧
    (∀ taken, (Log.Record.inserting taken).text =
      if taken then "Inserting tape: success" else "Inserting tape: failure") ∧
    ∀ index effects, ((start config file).1.run steps).2[index]? = some effects →
      (∀ earlier tape later, effects = earlier ++ .call (.insertTape tape) :: later →
        ∃ answers image rest, ImageDue config file steps index answers image ∧
          Tape.encode image = .ok tape ∧
          (∃ decoded, DecodedTape.ofTrain tape.pulses.toList = .ok decoded ∧
            decoded.image = image) ∧
          tape.capacityBytes = 80 * (image.length + 30000) ∧
          later = .log (.released tape.capacityBytes) ::
            .log (.inserting answers.takesTape) :: rest ∧
          Aside earlier ∧ Aside rest) ∧
      (∀ effect ∈ effects, effect.isOfDrive = true →
        ∃ answers image, ImageDue config file steps index answers image) ∧
      ∀ answers image, ImageDue config file steps index answers image →
        (∀ tape, Tape.encode image = .ok tape → .call (.insertTape tape) ∈ effects) ∧
        ∀ error, Tape.encode image = .error error →
          ∃ earlier rest, effects = earlier ++ .log (.inserting false) :: rest ∧
            Aside earlier ∧ Aside rest := by
  refine ⟨rfl, fun _ => rfl, ?_, fun index effects heffects => ⟨?_, ?_, ?_⟩⟩
  · intro taken
    cases taken with
    | true => rfl
    | false => rfl
  · intro earlier tape later hsplit
    have hmem : Effect.call (.insertTape tape) ∈ effects := by
      rw [hsplit]
      exact List.mem_append_right _ List.mem_cons_self
    obtain ⟨answers, image, hdue⟩ := exists_imageDue heffects hmem rfl
    obtain ⟨hencode, rest, hlater, hearlier, hrest⟩ :=
      (within_of_imageDue heffects hdue).of_call hsplit
    exact ⟨answers, image, rest, hdue, hencode,
      ⟨_, Tape.ofTrain_of_encode hencode, DecodedTape.image_ofImage image⟩,
      Tape.capacityBytes_of_encode hencode, hlater, hearlier, hrest⟩
  · exact fun effect hmem hdrive => exists_imageDue heffects hmem hdrive
  · intro answers image hdue
    obtain ⟨earlier, later, rfl, hearlier, hlater⟩ := within_of_imageDue heffects hdue
    constructor
    · intro tape hencode
      rw [driven, hencode]
      simp
    · intro error hencode
      rw [driven, hencode]
      exact ⟨earlier, later, List.append_assoc _ _ _, hearlier, hlater⟩

/-- The machine refuses the tape of a first image, and a second one is too short to have
one. -/
theorem tape_drive_of_run_of_two_files :
    let config : Config := ⟨.vg5000v11, 0, 0, none⟩
    let image : List UInt8 := List.replicate 32 0
    let steps : List Step :=
      [.drop ⟨"game.K7", image⟩, .frame 20000 ⟨false, true⟩, .drop ⟨"a.k7", [1, 2]⟩,
        .frame 5 ⟨true, true⟩]
    ImageDue config none steps 1 ⟨false, true⟩ image ∧
    ImageDue config none steps 3 ⟨true, true⟩ [1, 2] ∧
    ∃ refused short, ((start config none).1.run steps).2[1]? = some refused ∧
      ((start config none).1.run steps).2[3]? = some short ∧
      (∃ earlier tape rest, refused = earlier ++ .call (.insertTape tape) ::
          .log (.released tape.capacityBytes) :: .log (.inserting false) :: rest ∧
        Aside earlier ∧ Aside rest ∧ tape.capacityBytes = 2402560 ∧
        ∃ decoded, DecodedTape.ofTrain tape.pulses.toList = .ok decoded ∧
          decoded.image = image) ∧
      ∃ earlier rest, short = earlier ++ .log (.inserting false) :: rest ∧
        Aside earlier ∧ Aside rest := by
  intro config image steps
  obtain ⟨-, -, -, hrun⟩ := tape_drive_of_run config none steps
  obtain ⟨refused, hrefused⟩ : ∃ effects, ((start config none).1.run steps).2[1]? = some effects :=
    exists_effects _ (by decide)
  obtain ⟨short, hshort⟩ : ∃ effects, ((start config none).1.run steps).2[3]? = some effects :=
    exists_effects _ (by decide)
  have hfirst : ImageDue config none steps 1 ⟨false, true⟩ image :=
    ⟨rfl, ⟨20000, rfl⟩, by decide, ⟨"game.K7", image⟩,
      pending_before_iff.2 ⟨1, rfl, by decide, by decide, by decide⟩, .plain (by decide) rfl⟩
  have hsecond : ImageDue config none steps 3 ⟨true, true⟩ [1, 2] :=
    ⟨rfl, ⟨5, rfl⟩, by decide, ⟨"a.k7", [1, 2]⟩,
      pending_before_iff.2 ⟨3, rfl, by decide, by decide, by decide⟩, .plain (by decide) rfl⟩
  refine ⟨hfirst, hsecond, refused, short, hrefused, hshort, ?_, ?_⟩
  · obtain ⟨hcall, -, himage⟩ := hrun 1 refused hrefused
    have hencode : Tape.encode image = .ok _ := Tape.encode_of_fits (by decide) (by decide)
    obtain ⟨earlier, later, hsplit⟩ := List.append_of_mem ((himage _ image hfirst).1 _ hencode)
    obtain ⟨answers, other, rest, hdue, -, hdecoded, hcapacity, rfl, hearlier, hrest⟩ :=
      hcall _ _ _ hsplit
    obtain ⟨rfl, rfl⟩ := hdue.unique hfirst
    have hlength : image.length = 32 := rfl
    rw [hlength] at hcapacity
    exact ⟨earlier, _, rest, hsplit, hearlier, hrest, hcapacity, hdecoded⟩
  · exact ((hrun 3 short hshort).2.2 _ [1, 2] hsecond).2 _ (Tape.encode_of_short (by decide))

end Session

end Cassette.Frontend
