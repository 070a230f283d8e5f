import Cassette.Proofs.Console.Acceptance

/-!
# The debug log

The switch for the debug log does not reach a command: it decides which records of the
course are shown and nothing else (`Console.debug_switch_only_adds_records`).

What is shown is a text, and a record for debugging is a line in it that starts with
`DEBUG`, as long as no name and no path that the text quotes breaks a line.  So what is
quoted is listed (`Course.quoted`), and when all of it stays within its line
(`OneLine`), the lines of the short log are those of the long one that are no detail.
What the switch adds is little: whether there is a tape and whether it was given back
(`Console.details_of_run`).
-/

namespace Cassette

/-! ## Texts without a line break -/

/-- A text that breaks no line. -/
def OneLine (text : String) : Prop :=
  '\n' ∉ text.toList

namespace OneLine

theorem append_iff {front back : String} :
    OneLine (front ++ back) ↔ OneLine front ∧ OneLine back := by
  simp [OneLine]

/-- For texts that are written out: they are made of their characters. -/
theorem ofList {chars : List Char} (h : '\n' ∉ chars) : OneLine (String.ofList chars) := by
  rwa [OneLine, String.toList_ofList]

theorem toString_iff {text : String} : OneLine (toString text) ↔ OneLine text :=
  Iff.rfl

theorem toString_nat (number : Nat) : OneLine (toString number) := by
  intro h
  have hdigit : '\n' ∈ Nat.toDigits 10 number := by simpa using h
  simpa using Nat.isDigit_of_mem_toDigits (by decide) (by decide) hdigit

theorem intercalate {separator : String} (hseparator : OneLine separator) {texts : List String}
    (htexts : ∀ text ∈ texts, OneLine text) : OneLine (separator.intercalate texts) := by
  induction texts with
  | nil => simp [OneLine]
  | cons first rest ih =>
    have hfirst : OneLine first := htexts first List.mem_cons_self
    cases rest with
    | nil => simpa using hfirst
    | cons second rest =>
      rw [String.intercalate_cons_cons, append_iff, append_iff]
      exact ⟨⟨hfirst, hseparator⟩,
        ih fun text htext => htexts text (List.mem_cons_of_mem first htext)⟩

end OneLine

/-! ## What the wording of a failure or a record quotes -/

theorem Signal.Defect.oneLine_message (defect : Defect) : OneLine defect.message := by
  unfold message
  cases defect <;> exact .ofList (by decide)

theorem Signal.TapeError.oneLine_message (error : TapeError) : OneLine error.message := by
  unfold message
  cases error with
  | imageTooShort | capacityExceeded =>
    simp only [OneLine.append_iff, OneLine.toString_iff, OneLine.toString_nat, and_true]
    and_intros <;> exact .ofList (by decide)
  | malformed position defect =>
    simp only [OneLine.append_iff, OneLine.toString_iff, OneLine.toString_nat,
      defect.oneLine_message, and_true]
    and_intros <;> exact .ofList (by decide)

theorem Archive.ArchiveError.oneLine_message (error : ArchiveError) : OneLine error.message := by
  unfold message
  cases error <;> exact .ofList (by decide)

theorem Frontend.LoadError.oneLine_message (error : LoadError) : OneLine error.message := by
  unfold message
  cases error with
  | archive error => exact error.oneLine_message
  | tapeNotInserted | quickloadFailed => exact .ofList (by decide)

namespace Log

theorem oneLine_hexByte (byte : UInt8) : OneLine (hexByte byte) := by
  simp only [OneLine, hexByte, String.toList_ofList, List.mem_cons, List.not_mem_nil, or_false,
    not_or]
  exact ⟨(Nat.digitChar_ne '\n' (by decide)).symm, (Nat.digitChar_ne '\n' (by decide)).symm⟩

namespace Record

/-- The names and paths in the wording of a record. -/
def quoted : Record → List String
  | unzipping name | loadFailed name _ => [name]
  | written path .. | verified path .. => [path]
  | encoded .. | released .. | notEncoded .. | inserting .. | header .. => []

theorem oneLine_text {record : Record} (h : ∀ name ∈ record.quoted, OneLine name) :
    OneLine record.text := by
  unfold text
  cases record with
  | encoded | released =>
    simp only [OneLine.append_iff, OneLine.toString_iff, OneLine.toString_nat, and_true]
    and_intros <;> exact .ofList (by decide)
  | unzipping | written | verified =>
    have hname := h _ List.mem_cons_self
    simp only [OneLine.append_iff, OneLine.toString_iff, OneLine.toString_nat, hname, true_and,
      and_true]
    and_intros <;> exact .ofList (by decide)
  | loadFailed name error =>
    have hname : OneLine name := h name List.mem_cons_self
    simp only [OneLine.append_iff, OneLine.toString_iff, hname, error.oneLine_message, and_true]
    and_intros <;> exact .ofList (by decide)
  | notEncoded error => exact error.oneLine_message
  | inserting success =>
    rw [OneLine.append_iff]
    cases success <;> exact ⟨.ofList (by decide), .ofList (by decide)⟩
  | header bytes =>
    have hbytes : OneLine (" ".intercalate (bytes.map hexByte)) :=
      OneLine.intercalate (.ofList (by decide))
        (List.forall_mem_map.2 fun byte _ => oneLine_hexByte byte)
    exact OneLine.append_iff.2 ⟨.ofList (by decide), hbytes⟩

end Record

end Log

namespace Console

open Log

/-- The words of another program in the wording of an error. -/
def FileError.quoted : FileError → List String
  | other description _ => [description]
  | _ => []

theorem FileError.oneLine_message {error : FileError}
    (h : ∀ words ∈ error.quoted, OneLine words) : OneLine error.message := by
  unfold message
  cases error with
  | other description code =>
    have hdescription : OneLine description := h description List.mem_cons_self
    simp only [OneLine.append_iff, OneLine.toString_iff, OneLine.toString_nat, hdescription,
      true_and, and_true]
    and_intros <;> exact .ofList (by decide)
  | missing | isDirectory | notDirectory | nameTooLong => exact .ofList (by decide)

/-- The paths, and the words of another program, in the wording of a failure. -/
def Failure.quoted : Failure → List String
  | .file _ path error => path :: error.quoted
  | .mismatch path => [path]
  | .archive _ | .tape _ => []

theorem Failure.oneLine_message {failure : Failure} (h : ∀ words ∈ failure.quoted, OneLine words) :
    OneLine failure.message := by
  unfold message
  cases failure with
  | file access path error =>
    have hpath : OneLine path := h path List.mem_cons_self
    have hword : OneLine access.word := by
      cases access <;> exact .ofList (by decide)
    simp only [OneLine.append_iff, OneLine.toString_iff, hpath, hword, true_and, and_true]
    exact .ofList (by decide)
  | archive error => exact error.oneLine_message
  | tape error => exact error.oneLine_message
  | mismatch path =>
    have hpath : OneLine path := h path List.mem_cons_self
    simp only [OneLine.append_iff, OneLine.toString_iff, hpath, true_and]
    exact .ofList (by decide)

namespace Course

/-- What is shown behind the records. -/
def ending (course : Course Unit) : String :=
  match course.result with
  | .ok () => ""
  | .error failure => failure.text

/-- All that is quoted in what is shown of a course. -/
def quoted (course : Course Unit) : List String :=
  course.outputs.flatMap Record.quoted ++
    match course.result with
    | .ok () => []
    | .error failure => failure.quoted

theorem text_true (course : Course Unit) :
    text true course = String.join (course.outputs.map line) ++ course.ending := by
  have hshown : course.outputs.filter (isShown true) = course.outputs :=
    List.filter_eq_self.2 fun _ _ => rfl
  rw [text, hshown]
  rfl

theorem text_false (course : Course Unit) :
    text false course =
      String.join ((course.outputs.filter (·.level ≠ .debug)).map line) ++ course.ending :=
  rfl

end Course

/-! ## Lines -/

/-- The lines of a text; the last one is empty if the text ends with a line break. -/
def linesOf (text : String) : List (List Char) :=
  text.toList.splitOn '\n'

/-- Whether a line is a record for debugging by the column of its level. -/
def isDetail (line : List Char) : Bool :=
  "DEBUG ".toList.isPrefixOf line

theorem linesOf_append {line : String} (h : OneLine line) (rest : String) :
    linesOf (line ++ "\n" ++ rest) = line.toList :: linesOf rest := by
  have htext : (line ++ "\n" ++ rest).toList = line.toList ++ '\n' :: rest.toList := by simp
  rw [linesOf, htext]
  exact List.splitOn_append_cons_self_of_not_mem h rest.toList

theorem linesOf_ended {line : String} (h : OneLine line) :
    linesOf (line ++ "\n") = [line.toList, []] := by
  rw [← String.append_empty (s := line ++ "\n"), linesOf_append h]
  rfl

/-- The column of the level in front of a record. -/
def levelColumn : Level → String
  | .debug => "DEBUG "
  | .info => "INFO  "
  | .warn => "WARN  "

theorem oneLine_levelColumn (level : Level) : OneLine (levelColumn level) := by
  cases level <;> exact .ofList (by decide)

theorem line_eq (record : Record) :
    Course.line record = levelColumn record.level ++ record.text ++ "\n" := by
  have hcolumn : record.level.name.pushn ' ' (5 - record.level.name.length) ++ " " =
      levelColumn record.level := by
    cases record.level <;> decide
  rw [← hcolumn]
  rfl

/-- A record as a line of the log. -/
def lineOf (record : Record) : List Char :=
  (levelColumn record.level ++ record.text).toList

theorem isDetail_lineOf (record : Record) :
    isDetail (lineOf record) = decide (record.level = .debug) := by
  unfold isDetail lineOf
  cases record.level <;> simp [levelColumn, List.isPrefixOf]

/-- The records come first, each on its line. -/
theorem linesOf_records {records : List Record} (h : ∀ record ∈ records, OneLine record.text)
    (rest : String) :
    linesOf (String.join (records.map Course.line) ++ rest) =
      records.map lineOf ++ linesOf rest := by
  induction records with
  | nil => simp [linesOf]
  | cons record records ih =>
    have hline : OneLine (levelColumn record.level ++ record.text) :=
      OneLine.append_iff.2 ⟨oneLine_levelColumn record.level, h record List.mem_cons_self⟩
    rw [List.map_cons, String.join_cons, line_eq, String.append_assoc, linesOf_append hline,
      ih fun other hother => h other (List.mem_cons_of_mem record hother)]
    rfl

/-- The lines that are no detail are those of the other records. -/
theorem filter_lineOf (records : List Record) :
    (records.map lineOf).filter (!isDetail ·) =
      (records.filter (·.level ≠ .debug)).map lineOf := by
  rw [List.filter_map]
  congr 2
  funext record
  simp [isDetail_lineOf]

/-- The only line of most failures, and the first one of all. -/
theorem isDetail_error (message : String) : isDetail ("Error: " ++ message).toList = false := by
  simp [isDetail, List.isPrefixOf]

theorem isDetail_cause (message : String) : isDetail ("    " ++ message).toList = false := by
  simp [isDetail, List.isPrefixOf]

/-- No line of a failure looks like a record for debugging. -/
theorem isDetail_failure {failure : Failure} (h : ∀ words ∈ failure.quoted, OneLine words) :
    ∀ line ∈ linesOf failure.text, isDetail line = false := by
  have hmessage : OneLine ("Error: " ++ failure.message) :=
    OneLine.append_iff.2 ⟨.ofList (by decide), Failure.oneLine_message h⟩
  cases failure with
  | file access path error =>
    have herror : OneLine ("    " ++ error.message) :=
      OneLine.append_iff.2 ⟨.ofList (by decide), FileError.oneLine_message fun words hwords =>
        h words (List.mem_cons_of_mem path hwords)⟩
    have hcaused : "\n\nCaused by:\n    " =
        "\n" ++ ("\n" ++ ("Caused by:" ++ ("\n" ++ "    "))) := by decide
    have htext : (Failure.file access path error).text =
        "Error: " ++ (Failure.file access path error).message ++ "\n" ++ ("" ++ "\n" ++
          ("Caused by:" ++ "\n" ++ ("    " ++ error.message ++ "\n"))) := by
      simp only [Failure.text, toString, hcaused, String.append_assoc, String.empty_append]
    rw [htext, linesOf_append hmessage, linesOf_append (OneLine.ofList (by decide)),
      linesOf_append (OneLine.ofList (by decide)), linesOf_ended herror]
    simp only [List.forall_mem_cons, isDetail_error, isDetail_cause]
    decide
  | archive error | tape error | mismatch path =>
    show ∀ line ∈ linesOf ("Error: " ++ Failure.message _ ++ "\n"), _
    rw [linesOf_ended hmessage]
    simp only [List.forall_mem_cons, isDetail_error]
    decide

theorem Course.isDetail_ending {course : Course Unit} (h : ∀ words ∈ course.quoted, OneLine words) :
    ∀ line ∈ linesOf course.ending, isDetail line = false := by
  obtain ⟨records, _ | failure⟩ := course
  · exact isDetail_failure fun words hwords => h words (List.mem_append_right _ hwords)
  · intro line hline
    obtain rfl : line = [] := List.mem_singleton.1 hline
    rfl

/-- The lines of the short log are those of the long one that are no detail. -/
theorem Course.linesOf_text {course : Course Unit} (h : ∀ words ∈ course.quoted, OneLine words) :
    linesOf (text false course) = (linesOf (text true course)).filter (!isDetail ·) := by
  have hrecords : ∀ record ∈ course.outputs, OneLine record.text := fun record hrecord =>
    Record.oneLine_text fun name hname =>
      h name (List.mem_append_left _ (List.mem_flatMap_of_mem hrecord hname))
  have hending : (linesOf course.ending).filter (!isDetail ·) = linesOf course.ending :=
    List.filter_eq_self.2 fun line hline => by rw [isDetail_ending h line hline, Bool.not_false]
  calc linesOf (text false course)
      = (course.outputs.filter (·.level ≠ .debug)).map lineOf ++ linesOf course.ending := by
        rw [text_false, linesOf_records fun record hrecord =>
          hrecords record ((List.mem_filter.1 hrecord).1)]
    _ = (course.outputs.map lineOf).filter (!isDetail ·) ++
          (linesOf course.ending).filter (!isDetail ·) := by
        rw [filter_lineOf, hending]
    _ = (linesOf (text true course)).filter (!isDetail ·) := by
        rw [text_true, linesOf_records hrecords, List.filter_append]

/-! ## Runs of the program -/

/-- The file that a command reads. -/
def Command.input : Command → String
  | .encode input _ => input
  | .verify input => input

/-- The records of a course that are shown on demand only. -/
def Course.details (course : Course Unit) : List Record :=
  course.outputs.filter (·.level = .debug)

theorem Course.details_append (records others : List Record) (result : Except Failure Unit) :
    details ⟨records ++ others, result⟩ = details ⟨records, result⟩ ++ details ⟨others, result⟩ :=
  List.filter_append ..

/-- Nothing is shown on demand of how an image was read. -/
theorem details_of_imageIn {path : String} {content : Except FileError (List UInt8)}
    {records : List Record} {image : Except Failure (List UInt8)}
    (h : imageIn path content = ⟨records, image⟩) (result : Except Failure Unit) :
    Course.details ⟨records, result⟩ = [] := by
  refine List.filter_eq_nil_iff.2 fun record hrecord => ?_
  have hlevel : record.level ≠ .debug := level_of_mem_imageIn (by rwa [h])
  simpa using hlevel

/-- What the debug log tells of a run is how far it got: nothing if there is no tape, that
there is one, and that it was given back at the end, which only a run gets to that
succeeds. -/
theorem details_of_run (files : Files) (command : Command) :
    let course := ((command.run Files.disk).run files).1
    (course.details = [] ∧ course.exitCode = 1) ∨
      ∃ image tape, files.Holds command.input image ∧ Tape.encode image = .ok tape ∧
        ((course.details = [tape.encodedRecord image] ∧ course.exitCode = 1) ∨
          (course.details = [tape.encodedRecord image, tape.release] ∧ course.exitCode = 0)) := by
  intro course
  have hending := ending command.input (files.read command.input)
  generalize hencoded : encodeFile command.input (files.read command.input) = encoded at hending
  generalize hverified : verifyFile command.input (files.read command.input) = verified at hending
  cases command with
  | verify input =>
    rw [show course = verified from hverified]
    cases hending with
    | noImage himage | noTape himage =>
      exact .inl ⟨details_of_imageIn himage _, rfl⟩
    | @tape records image tape himage hencode =>
      refine .inr ⟨image, tape, imageIn_eq_ok_iff.1 (congrArg Traced.result himage), hencode,
        .inr ⟨?_, rfl⟩⟩
      rw [Course.details_append, details_of_imageIn himage]
      rfl
  | encode input output =>
    cases hending with
    | noImage himage | noTape himage =>
      rw [show course = _ from congrArg Prod.fst (encode_on_files_of_error hencoded)]
      exact .inl ⟨details_of_imageIn himage _, rfl⟩
    | @tape records image tape himage hencode =>
      refine .inr ⟨image, tape, imageIn_eq_ok_iff.1 (congrArg Traced.result himage), hencode, ?_⟩
      cases hwrite : files.write output tape.bytes with
      | error error =>
        rw [show course = _ from congrArg Prod.fst (encode_on_files_of_write_error hencoded hwrite)]
        refine .inl ⟨?_, rfl⟩
        rw [Course.details_append, details_of_imageIn himage]
        rfl
      | ok after =>
        rw [show course = _ from congrArg Prod.fst (encode_on_files_of_write hencoded hwrite)]
        refine .inr ⟨?_, rfl⟩
        rw [Course.details_append, Course.details_append, details_of_imageIn himage]
        rfl

end Console

end Cassette
