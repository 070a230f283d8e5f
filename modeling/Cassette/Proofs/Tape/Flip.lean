import Cassette.Proofs.Signal.Places
import Cassette.Proofs.Signal.Runs
import Cassette.Proofs.Tape.Damage

/-!
# Tapes with one impulse of the wrong kind

A flipped impulse lasts longer or shorter than the right one, which moves all that
stands behind it against the frames.  Where no run can take up the difference the
signal is no tape any more; only the run in front of the data can, and only if what
it gives away or takes in is exactly a byte of data with all bits set.

`flip` is about impulses and `flipPair` about the two values of an impulse in a
train.  The synchronization in front of the data must be longer than any run
within frames, which that of an encoded tape is.
-/

namespace Cassette

open Signal

namespace Signal.Impulse

/-- The impulse of the other kind. -/
def other : Impulse → Impulse
  | short => long
  | long => short

/-- The impulses with the one at a place flipped. -/
def flip (place : Nat) (impulses : List Impulse) : List Impulse :=
  impulses.modify place other

theorem flip_append_cons (front back : List Impulse) (kind : Impulse) :
    flip front.length (front ++ kind :: back) = front ++ kind.other :: back := by
  induction front with
  | nil => rfl
  | cons first front ih => simpa [flip] using ih

theorem flip_append_left {place : Nat} {front : List Impulse} (h : place < front.length)
    (back : List Impulse) : flip place (front ++ back) = flip place front ++ back := by
  induction front generalizing place with
  | nil => simp at h
  | cons first front ih =>
      cases place with
      | zero => rfl
      | succ place =>
          simp only [List.length_cons] at h
          simpa [flip] using ih (by omega)

theorem flip_append_right (front back : List Impulse) (place : Nat) :
    flip (front.length + place) (front ++ back) = front ++ flip place back := by
  induction front with
  | nil => simp
  | cons first front ih =>
      rw [List.length_cons, Nat.succ_add]
      simpa [flip] using ih

/-- A place in one list behind another is in the first or in the second. -/
theorem flip_append_cases {place : Nat} {front back : List Impulse}
    (h : place < (front ++ back).length) :
    (place < front.length ∧ flip place (front ++ back) = flip place front ++ back) ∨
      ∃ further, place = front.length + further ∧ further < back.length ∧
        flip place (front ++ back) = front ++ flip further back := by
  rw [List.length_append] at h
  by_cases hfront : place < front.length
  · exact .inl ⟨hfront, flip_append_left hfront back⟩
  · obtain ⟨further, rfl⟩ : ∃ further, place = front.length + further :=
      ⟨place - front.length, by omega⟩
    exact .inr ⟨further, rfl, by omega, flip_append_right front back further⟩

/-- A flipped impulse lasts half or twice as long. -/
theorem durationOf_flip {place : Nat} {impulses : List Impulse} (h : place < impulses.length) :
    durationOf (flip place impulses) = durationOf impulses + 1 ∨
      durationOf (flip place impulses) + 1 = durationOf impulses := by
  induction impulses generalizing place with
  | nil => simp at h
  | cons first rest ih =>
      cases place with
      | zero =>
          cases first with
          | short =>
              left
              show 2 + durationOf rest = 1 + durationOf rest + 1
              omega
          | long =>
              right
              show 1 + durationOf rest + 1 = 2 + durationOf rest
              omega
      | succ place =>
          have hrest := ih (show place < rest.length by simpa using h)
          show first.duration + durationOf (flip place rest) = _ ∨
            first.duration + durationOf (flip place rest) + 1 = _
          simp only [durationOf_cons]
          omega

/-- A run in which a short impulse is flipped becomes two. -/
theorem flip_run (front back : Nat) :
    flip front (run (front + (back + 1))) = run front ++ run back := by
  have hflip := flip_append_cons (List.replicate front short) (run back) short
  rw [List.length_replicate] at hflip
  rw [run_add, run_succ, hflip]
  simp [run, other]

/-- A run of which the end is flipped is left open. -/
theorem flip_run_end (count : Nat) :
    flip count (run count) = List.replicate (count + 1) short := by
  have hflip := flip_append_cons (List.replicate count short) [] long
  rw [List.length_replicate] at hflip
  rw [run, hflip, List.replicate_succ']
  rfl

/-! ## What a flipped signal can be mistaken for

On the left-hand side stands what is read and on the right-hand side what was
written, up to the run in front of the data, which is longer than any run within
frames. -/

section

variable {header found data foundData : List UInt8} {count foundCount : Nat}

/-- A run more in front of the header is not taken for a part of it. -/
theorem not_run_before_frames {extra : Nat} (hheader : header ≠ [])
    (hlength : found.length = header.length) (hcount : 20 < count)
    (h : frames found ++ (run foundCount ++ frames foundData) =
      run extra ++ (frames header ++ (run count ++ frames data))) : False := by
  rw [← List.append_assoc (run extra)] at h
  obtain ⟨more, hfront, -, -⟩ := run_append_inj hcount h
  have hduration := congrArg durationOf hfront
  simp only [durationOf_append, durationOf_run, durationOf_frames, durationOf_shorts,
    hlength] at hduration
  obtain ⟨back, hback⟩ := frames_eq_append_long hheader
  rw [hback, ← List.append_assoc] at hfront
  have hmore := eq_zero_of_append_long hfront
  omega

/-- A header that lost its first run is not taken for a header. -/
theorem not_frames_after_run {lost : Nat} {rest : List Impulse}
    (hlost : frames header = run lost ++ rest) (hlength : found.length = header.length)
    (hcount : 20 < count)
    (h : frames found ++ (run foundCount ++ frames foundData) =
      rest ++ (run count ++ frames data)) : False := by
  obtain ⟨more, rfl, -, -⟩ := run_append_inj hcount h
  have hduration := congrArg durationOf hlost
  simp only [durationOf_append, durationOf_run, durationOf_frames, durationOf_shorts,
    hlength] at hduration
  omega

/-- The first run with a flipped impulse: the header does not fit behind it. -/
theorem not_flip_first_run {first foundFirst place : Nat} (hplace : place < first + 1)
    (hheader : header ≠ []) (hlength : found.length = header.length) (hcount : 20 < count)
    (h : run foundFirst ++ (frames found ++ (run foundCount ++ frames foundData)) =
      flip place (run first) ++ (frames header ++ (run count ++ frames data))) : False := by
  by_cases hend : place = first
  -- The run takes in the first run of the header.
  · rw [hend, flip_run_end] at h
    obtain ⟨lost, rest, hlost⟩ := exists_run_of_frames hheader
    obtain ⟨more, -, hrun⟩ := exists_run_of_shorts_append h.symm
    rw [hlost, List.append_assoc] at hrun
    obtain ⟨-, hrest⟩ := prefixFree_run hrun
    exact not_frames_after_run hlost hlength hcount hrest.symm
  -- The run gives away a run to the header.
  · obtain ⟨back, rfl⟩ : ∃ back, first = place + (back + 1) := ⟨first - place - 1, by omega⟩
    rw [flip_run, List.append_assoc] at h
    obtain ⟨-, hrest⟩ := prefixFree_run h
    exact not_run_before_frames hheader hlength hcount hrest

/-- A header with a flipped impulse is not taken for a header. -/
theorem not_flip_frames {place : Nat} (hplace : place < (frames header).length)
    (hlength : found.length = header.length) (hcount : 20 < count)
    (h : frames found ++ (run foundCount ++ frames foundData) =
      flip place (frames header) ++ (run count ++ frames data)) : False := by
  obtain ⟨more, hfront, -, -⟩ := run_append_inj hcount h
  have hduration := congrArg durationOf hfront
  have hflip := durationOf_flip hplace
  simp only [durationOf_append, durationOf_frames, durationOf_shorts, hlength] at hduration hflip
  have hheader : header ≠ [] := by
    rintro rfl
    simp at hplace
  obtain ⟨back, hback⟩ := frames_eq_append_long hheader
  have hwhole := congrArg durationOf hback
  simp only [durationOf_append, durationOf_frames] at hwhole
  rw [hback] at hplace hfront
  rcases flip_append_cases hplace with ⟨_, hlast⟩ | ⟨further, _, hfurther, hlast⟩
  -- The last impulse is still long, so no short ones are left over.
  · rw [hlast] at hfront
    have hmore := eq_zero_of_append_long hfront
    omega
  -- The last impulse itself became short, and with it the whole.
  · obtain rfl : further = 0 := Nat.lt_one_iff.1 hfurther
    rw [hback, hlast, durationOf_append] at hduration
    have hshort : durationOf (flip 0 [long]) = 1 := rfl
    have hlong : durationOf [long] = 2 := rfl
    omega

/-- Data with a flipped impulse is not taken for data. -/
theorem frames_ne_flip {place : Nat} (hplace : place < (frames data).length) :
    frames foundData ≠ flip place (frames data) := by
  intro h
  have hduration := congrArg durationOf h
  have hflip := durationOf_flip hplace
  simp only [durationOf_frames] at hduration hflip
  omega

/-- The run in front of the data with a flipped impulse: a full byte more is read,
and the flipped impulse ends the run, or a full byte less is read, and the flipped
impulse was the end of the run. -/
theorem eq_of_flip_run {place : Nat} (hplace : place < count + 1)
    (h : run foundCount ++ frames foundData = flip place (run count) ++ frames data) :
    (foundData = 0xff :: data ∧ foundCount + 21 = count ∧ place + 21 = count) ∨
      (data = 0xff :: foundData ∧ foundCount = count + 21 ∧ place = count) := by
  by_cases hend : place = count
  · subst hend
    rw [flip_run_end] at h
    obtain ⟨more, rfl, hdata⟩ := exists_run_of_shorts_append h.symm
    obtain ⟨rfl, hfull⟩ := eq_of_frames_eq_run_append hdata
    exact .inr ⟨hfull, by omega, rfl⟩
  · obtain ⟨back, rfl⟩ : ∃ back, count = place + (back + 1) := ⟨count - place - 1, by omega⟩
    rw [flip_run, List.append_assoc] at h
    obtain ⟨rfl, hdata⟩ := prefixFree_run h
    obtain ⟨rfl, hfull⟩ := eq_of_frames_eq_run_append hdata
    exact .inl ⟨hfull, by omega, by omega⟩

end

end Signal.Impulse

namespace DecodedTape

theorem impulses_eq_runs (tape : DecodedTape) :
    tape.impulses = Impulse.run (tape.headerSync + 4) ++ (Impulse.frames tape.header ++
      (Impulse.run (tape.dataSync + 4) ++ Impulse.frames tape.data)) := by
  rw [impulses, Impulse.synchronization_eq_run, Impulse.synchronization_eq_run]

/-- The number of impulses in front of the data. -/
def dataStart (tape : DecodedTape) : Nat :=
  tape.headerSync + 5 + (Impulse.frames tape.header).length + (tape.dataSync + 5)

/-- What is read of the impulses of a tape one of which is flipped. -/
theorem eq_of_impulses_eq_flip {tape found : DecodedTape} {place : Nat}
    (hlength : found.header.length = tape.header.length) (hheader : tape.header ≠ [])
    (hsync : 17 ≤ tape.dataSync) (hplace : place < tape.impulses.length)
    (h : found.impulses = Impulse.flip place tape.impulses) :
    (found = ⟨tape.header, 0xff :: tape.data, tape.headerSync, tape.dataSync - 21⟩ ∧
        21 ≤ tape.dataSync ∧ place + 22 = tape.dataStart) ∨
      (tape.data = 0xff :: found.data ∧
        found = ⟨tape.header, found.data, tape.headerSync, tape.dataSync + 21⟩ ∧
        place + 1 = tape.dataStart) := by
  have hlong : 20 < tape.dataSync + 4 := by omega
  obtain ⟨foundHeader, foundData, foundHeaderSync, foundDataSync⟩ := found
  obtain ⟨header, data, headerSync, dataSync⟩ := tape
  rw [impulses_eq_runs] at hplace
  rw [impulses_eq_runs, impulses_eq_runs] at h
  dsimp only at hlength hheader hsync hplace h hlong
  rcases Impulse.flip_append_cases hplace with
    ⟨hfirst, hflip⟩ | ⟨second, rfl, hbehindRun, hflip⟩
  · rw [hflip] at h
    rw [Impulse.length_run] at hfirst
    exact (Impulse.not_flip_first_run hfirst hheader hlength hlong h).elim
  rw [hflip] at h
  obtain ⟨hheaderSync, hheaders⟩ := Impulse.prefixFree_run h
  rcases Impulse.flip_append_cases hbehindRun with
    ⟨hsecond, hflip⟩ | ⟨third, rfl, hbehindHeader, hflip⟩
  · rw [hflip] at hheaders
    exact (Impulse.not_flip_frames hsecond hlength hlong hheaders).elim
  rw [hflip] at hheaders
  obtain ⟨hsame, hruns⟩ := Impulse.frames_append_inj hlength hheaders
  rcases Impulse.flip_append_cases hbehindHeader with
    ⟨hthird, hflip⟩ | ⟨fourth, rfl, hfourth, hflip⟩
  · rw [hflip] at hruns
    rw [Impulse.length_run] at hthird
    rcases Impulse.eq_of_flip_run hthird hruns with ⟨hdata, hcount, hend⟩ | ⟨hdata, hcount, hend⟩
    · left
      simp [dataStart, hsame, hdata]
      omega
    · right
      simp [dataStart, hsame, hdata]
      omega
  · rw [hflip] at hruns
    obtain ⟨-, hframes⟩ := Impulse.prefixFree_run hruns
    exact (Impulse.frames_ne_flip hfourth hframes).elim

/-- A flipped impulse of the run in front of the data. -/
theorem flip_impulses_of_dataRun {tape : DecodedTape} {place further : Nat}
    (hfurther : further ≤ tape.dataSync + 4)
    (hplace : place + (tape.dataSync + 5) = tape.dataStart + further) :
    Impulse.flip place tape.impulses =
      Impulse.run (tape.headerSync + 4) ++ (Impulse.frames tape.header ++
        (Impulse.flip further (Impulse.run (tape.dataSync + 4)) ++
          Impulse.frames tape.data)) := by
  have hsplit : place = (Impulse.run (tape.headerSync + 4)).length +
      ((Impulse.frames tape.header).length + further) := by
    rw [Impulse.length_run]
    unfold dataStart at hplace
    omega
  have hinside : further < (Impulse.run (tape.dataSync + 4)).length := by
    rw [Impulse.length_run]
    omega
  rw [impulses_eq_runs, hsplit, Impulse.flip_append_right, Impulse.flip_append_right,
    Impulse.flip_append_left hinside]

/-- With an earlier end of the run in front of the data its last impulses read as a
full byte. -/
theorem flip_impulses_before_end {tape : DecodedTape} {place : Nat} (hsync : 21 ≤ tape.dataSync)
    (hplace : place + 22 = tape.dataStart) :
    Impulse.flip place tape.impulses =
      impulses ⟨tape.header, 0xff :: tape.data, tape.headerSync, tape.dataSync - 21⟩ := by
  obtain ⟨count, hcount⟩ : ∃ count, tape.dataSync = count + 21 :=
    ⟨tape.dataSync - 21, by omega⟩
  have hrun : tape.dataSync + 4 = (count + 4) + (20 + 1) := by omega
  have hless : tape.dataSync - 21 = count := by omega
  rw [flip_impulses_of_dataRun (show count + 4 ≤ tape.dataSync + 4 by omega) (by omega), hrun,
    Impulse.flip_run, impulses_eq_runs, hless, Impulse.frames_cons, Impulse.frame_full,
    List.append_assoc]

/-- Without the end of the run in front of the data a full byte belongs to it. -/
theorem flip_impulses_end {tape : DecodedTape} {place : Nat} {data : List UInt8}
    (hfull : tape.data = 0xff :: data) (hplace : place + 1 = tape.dataStart) :
    Impulse.flip place tape.impulses =
      impulses ⟨tape.header, data, tape.headerSync, tape.dataSync + 21⟩ := by
  have hrun : tape.dataSync + 21 + 4 = (tape.dataSync + 4 + 1) + 20 := by omega
  rw [flip_impulses_of_dataRun (Nat.le_refl (tape.dataSync + 4)) (by omega), hfull,
    Impulse.flip_run_end, impulses_eq_runs, hrun, Impulse.run_add (tape.dataSync + 4 + 1),
    List.append_assoc, Impulse.frames_cons, Impulse.frame_full]

theorem dataStart_eq (tape : DecodedTape) :
    tape.dataStart = (tape.takeData 0).impulses.length := by
  simp [impulses_eq_runs, takeData, dataStart]
  omega

/-! ## Values of the other kind -/

/-- A half-period of the other kind; any other value stays. -/
def flipValue (value : UInt16) : UInt16 :=
  if value = 833 then 1666 else if value = 1666 then 833 else value

/-- The train with a value and the one behind it of the other kind. -/
def flipPair (place : Nat) (train : List UInt16) : List UInt16 :=
  (train.modify place flipValue).modify (place + 1) flipValue

theorem flipValue_halfPeriod (kind : Impulse) :
    flipValue kind.halfPeriod = kind.other.halfPeriod := by
  cases kind <;> rfl

theorem flipPair_train (place : Nat) (impulses : List Impulse) :
    flipPair (2 * place) (Impulse.train impulses) =
      Impulse.train (Impulse.flip place impulses) := by
  induction impulses generalizing place with
  | nil => simp [flipPair, Impulse.flip]
  | cons first rest ih =>
      cases place with
      | zero => simp [flipPair, Impulse.flip, flipValue_halfPeriod]
      | succ place =>
          have hrest := ih place
          simp only [flipPair, Impulse.flip] at hrest
          simp [flipPair, Impulse.flip, Nat.mul_succ, hrest]

theorem flipPair_trainOf (place : Nat) (image : List UInt8) :
    flipPair (2 * place + 1) (Tape.trainOf image) =
      Tape.leadingSilence :: Impulse.train (Impulse.flip place (ofImage image).impulses) := by
  rw [← flipPair_train]
  rfl

theorem byteBorder_zero (image : List UInt8) :
    Tape.byteBorder image 0 = 1 + 2 * (ofImage image).dataStart := by
  rw [Tape.byteBorder_eq, dataStart_eq]

/-- What is read if one impulse of a tape is flipped: nothing, unless that impulse
stands in the run in front of the data, at its end or a full byte before it. -/
theorem ofTrain_flipPair_trainOf {image : List UInt8} (hlength : headerLength ≤ image.length)
    {place : Nat} (hplace : place < (ofImage image).impulses.length) (found : DecodedTape) :
    ofTrain (flipPair (2 * place + 1) (Tape.trainOf image)) = .ok found ↔
      (found = ⟨image.take 32, 0xff :: image.drop 32, 30000, 7179⟩ ∧
          place + 22 = (ofImage image).dataStart) ∨
        (image.drop 32 = 0xff :: found.data ∧ found = ⟨image.take 32, found.data, 30000, 7221⟩ ∧
          place + 1 = (ofImage image).dataStart) := by
  have hheader := length_header_ofImage hlength
  rw [flipPair_trainOf, ofTrain_eq_ok_iff]
  constructor
  · rintro ⟨hfound, silence, htrain⟩
    have himpulses := Impulse.train_injective (List.cons.inj htrain).2
    have hnonempty : (ofImage image).header ≠ [] := by
      refine List.length_pos_iff.1 ?_
      rw [hheader]
      decide
    have hsync : 17 ≤ (ofImage image).dataSync := show 17 ≤ 7200 by omega
    rcases eq_of_impulses_eq_flip (hfound.trans hheader.symm) hnonempty hsync hplace
      himpulses.symm with ⟨heq, -, hend⟩ | ⟨hdata, heq, hend⟩
    · exact .inl ⟨heq, hend⟩
    · exact .inr ⟨hdata, heq, hend⟩
  · rintro (⟨rfl, hend⟩ | ⟨hdata, heq, hend⟩)
    · refine ⟨hheader, Tape.leadingSilence, ?_⟩
      rw [flip_impulses_before_end (show 21 ≤ 7200 by omega) hend]
      rfl
    · rw [heq]
      refine ⟨hheader, Tape.leadingSilence, ?_⟩
      rw [flip_impulses_end hdata hend]
      rfl

/-- A single flipped impulse is never passed over in silence: what is read then, if
anything, has another run in front of the data than any encoded tape.  The flipped
impulse belongs to that run or its marker, and a full byte of data was gained or
lost there. -/
theorem ofTrain_flipPair_of_encode {image : List UInt8} {tape : Tape}
    (h : Tape.encode image = .ok tape) {place : Nat} (hodd : place % 2 = 1)
    (hplace : place + 1 < tape.pulses.size) :
    (∀ found, ofTrain (flipPair place tape.pulses.toList) = .ok found →
      found.header = image.take 32 ∧ found.headerSync = 30000 ∧ found.dataSync ≠ 7200 ∧
      Tape.byteBorder image 0 ≤ place + 14410 ∧ place + 1 < Tape.byteBorder image 0 ∧
      ((found.data = 0xff :: image.drop 32 ∧ found.dataSync = 7179) ∨
        (image.drop 32 = 0xff :: found.data ∧ found.dataSync = 7221))) ∧
    (place + 44 = Tape.byteBorder image 0 →
      ofTrain (flipPair place tape.pulses.toList) =
        .ok ⟨image.take 32, 0xff :: image.drop 32, 30000, 7179⟩) ∧
    (∀ data, image.drop 32 = 0xff :: data → place + 2 = Tape.byteBorder image 0 →
      ofTrain (flipPair place tape.pulses.toList) = .ok ⟨image.take 32, data, 30000, 7221⟩) := by
  obtain ⟨hlength, rfl⟩ := Tape.eq_of_encode h
  obtain ⟨place, rfl⟩ : ∃ half, place = 2 * half + 1 := ⟨place / 2, by omega⟩
  have hinside : place < (ofImage image).impulses.length := by
    have htrain := Impulse.length_train (ofImage image).impulses
    have hsize : 2 * place + 1 + 1 < (Tape.trainOf image).length := hplace
    rw [Tape.trainOf, List.length_cons] at hsize
    omega
  have hread := ofTrain_flipPair_trainOf hlength hinside
  have hborder := byteBorder_zero image
  refine ⟨fun found hfound => ?_, fun hend => ?_, fun data hdata hend => ?_⟩
  · rcases (hread found).1 hfound with ⟨rfl, hend⟩ | ⟨hdata, heq, hend⟩
    · exact ⟨rfl, rfl, show 7179 ≠ 7200 by omega, by omega, by omega, .inl ⟨rfl, rfl⟩⟩
    · rw [heq]
      exact ⟨rfl, rfl, show 7221 ≠ 7200 by omega, by omega, by omega, .inr ⟨hdata, rfl⟩⟩
  · exact (hread _).2 (.inl ⟨rfl, by omega⟩)
  · exact (hread _).2 (.inr ⟨hdata, rfl, by omega⟩)

/-- One full byte of data: it is lost with the end of the run, doubled with an
earlier end, and any other flip is noticed, as that of the very first impulse. -/
theorem ofTrain_flipPair_of_encode_one_data_byte :
    ∃ tape, Tape.encode (List.replicate 32 0 ++ [0xff]) = .ok tape ∧
      ofTrain (flipPair 75251 tape.pulses.toList) =
        .ok ⟨List.replicate 32 0, [], 30000, 7221⟩ ∧
      ofTrain (flipPair 75209 tape.pulses.toList) =
        .ok ⟨List.replicate 32 0, [0xff, 0xff], 30000, 7179⟩ ∧
      ∀ found, ofTrain (flipPair 1 tape.pulses.toList) ≠ .ok found := by
  have hencode : Tape.encode (List.replicate 32 0 ++ [0xff]) = .ok _ :=
    Tape.encode_of_fits (by decide) (by decide)
  have hsize : (Tape.trainOf (List.replicate 32 0 ++ [0xff])).length = 75295 := by
    rw [Tape.length_trainOf]
    decide
  have hflip {place : Nat} (hodd : place % 2 = 1) (hplace : place + 1 < 75295) :=
    ofTrain_flipPair_of_encode hencode hodd (Nat.lt_of_lt_of_eq hplace hsize.symm)
  refine ⟨_, hencode, ?_, ?_, fun found hfound => ?_⟩
  · exact (hflip rfl (by omega)).2.2 [] rfl (by decide)
  · exact (hflip rfl (by omega)).2.1 (by decide)
  · obtain ⟨_, _, _, hstart, _⟩ := (hflip rfl (by omega)).1 found hfound
    exact absurd hstart (by decide)

end DecodedTape

end Cassette
