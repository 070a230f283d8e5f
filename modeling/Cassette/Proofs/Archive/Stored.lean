import Mathlib.Algebra.Ring.Nat
import Mathlib.Data.List.Nodup
import Cassette.Archive.Tape
import Cassette.Proofs.Archive.Records

/-!
# A plain archive reads back

The tape that comes out of a plain archive is the content of the first file whose name is
that of a tape (`StoredFile.image_of_archive`).  Files may hold anything, signatures of
archives too.

A search for signatures is led to the right records in two ways.  Whatever is found behind
the start of the end record leaves no room for another one (`Directory.at?_of_short`), so
the last end record that can be read is the one that was written.  The directory is looked
for from its own start on, and there its first signature stands, so that no content comes
into it.  From there on each record is read as it was written, and each entry leads to the
header of its own file.
-/

namespace Cassette.Archive

/-! ## Where a signature is found -/

/-- What is found behind some bytes does not depend on them. -/
theorem positionsFrom_append (signature : List UInt8) (position : Nat)
    (front rest : List UInt8) :
    ∃ earlier, positionsFrom signature position (front ++ rest) =
      earlier ++ positionsFrom signature (position + front.length) rest := by
  induction front generalizing position with
  | nil => exact ⟨[], rfl⟩
  | cons byte front ih =>
    obtain ⟨earlier, hearlier⟩ := ih (position + 1)
    have hposition : position + 1 + front.length = position + (byte :: front).length := by
      rw [List.length_cons]
      omega
    rw [hposition] at hearlier
    rw [List.cons_append, positionsFrom, hearlier]
    split
    · exact ⟨position :: earlier, rfl⟩
    · exact ⟨earlier, rfl⟩

/-- A signature is found where it stands, and after that only further on. -/
theorem positionsFrom_signature {signature : List UInt8} (h : signature ≠ []) (position : Nat)
    (rest : List UInt8) :
    ∃ bytes, positionsFrom signature position (signature ++ rest) =
      position :: positionsFrom signature (position + 1) bytes := by
  obtain ⟨byte, others, rfl⟩ := List.exists_cons_of_ne_nil h
  refine ⟨others ++ rest, ?_⟩
  rw [List.cons_append, positionsFrom, if_pos]
  rw [← List.cons_append, List.isPrefixOf_iff_prefix]
  exact List.prefix_append _ _

theorem le_of_mem_positionsFrom {signature bytes : List UInt8} {position found : Nat}
    (h : found ∈ positionsFrom signature position bytes) : position ≤ found := by
  induction bytes generalizing position with
  | nil => cases h
  | cons byte rest ih =>
    rw [positionsFrom] at h
    split at h
    · rcases List.mem_cons.1 h with rfl | hmem
      · exact Nat.le_refl _
      · exact Nat.le_of_succ_le (ih hmem)
    · exact Nat.le_of_succ_le (ih h)

namespace Directory

/-- Nothing is an end record if fewer bytes are left than one has. -/
theorem at?_of_short {archive : List UInt8} {position : Nat}
    (h : archive.length < position + 22) : at? archive position = none := by
  have hfields : EndRecord.fields.of? (archive.drop position) = none := by
    cases hread : EndRecord.fields (archive.drop position) with
    | none => simp [Fields.of?, hread]
    | some answer =>
      have huses := EndRecord.uses_fields _ answer.1 answer.2 hread
      rw [List.length_drop] at huses
      omega
  rw [at?, hfields]
  rfl

/-- Let the last signature of an end record that has room for one stand at a position.  The
entries of the archive are those to which this end record leads, if it leads to any. -/
theorem entriesOf_of_last {archive : List UInt8} {entries : List Entry}
    {position : Nat} {earlier later : List Nat}
    (hfound : positions EndRecord.signature archive 0 archive.length =
      earlier ++ position :: later)
    (hlater : ∀ other ∈ later, at? archive other = none)
    (hentries : (do (← at? archive position).entries? archive) = some entries) :
    entriesOf archive = .ok entries := by
  have hreverse : (earlier ++ position :: later).reverse =
      later.reverse ++ position :: earlier.reverse := by
    simp
  have hnone : later.reverse.findSome?
      (fun other => do (← at? archive other).entries? archive) = none := by
    refine List.findSome?_eq_none_iff.2 fun other hmem => ?_
    rw [hlater other (List.mem_reverse.1 hmem)]
    rfl
  unfold entriesOf
  rw [hfound, hreverse]
  split
  · simp_all
  · rw [List.findSome?_append, hnone, Option.none_or, List.findSome?_cons, hentries]

theorem foldl_addEntry {entries others : List Entry}
    (h : ((entries ++ others).map Entry.name).Nodup) :
    others.foldl addEntry entries = entries ++ others := by
  induction others generalizing entries with
  | nil => rw [List.append_nil, List.foldl_nil]
  | cons entry rest ih =>
    have hfresh : ∀ other ∈ entries, other.name ≠ entry.name := by
      intro other hmem heq
      rw [List.map_append, List.map_cons] at h
      have hdisjoint := List.disjoint_of_nodup_append h
      exact hdisjoint (List.mem_map_of_mem hmem) (heq ▸ List.mem_cons_self)
    have hadd : addEntry entries entry = entries ++ [entry] := by
      rw [addEntry, if_neg]
      simpa using hfresh
    rw [List.foldl_cons, hadd, ih (by rwa [List.append_assoc]), List.append_assoc]
    rfl

end Directory

/-! ## Names -/

namespace Name

/-- A byte below 128 is written as the character with its number. -/
theorem toUInt8_charOfByte {byte : UInt8} (h : byte < 128) :
    (charOfByte byte).toUInt8 = byte := by
  have hall : ∀ value : Fin 128,
      (charOfByte (UInt8.ofNat value)).toUInt8 = UInt8.ofNat value := by decide
  have hbyte := hall ⟨byte.toNat, h⟩
  rwa [UInt8.ofNat_toNat] at hbyte

theorem ofBytes_injective {name other : List UInt8} (hname : ∀ byte ∈ name, byte < 128)
    (hother : ∀ byte ∈ other, byte < 128) (h : ofBytes false name = ofBytes false other) :
    name = other := by
  have hchars : name.map charOfByte = other.map charOfByte := String.ofList_injective h
  have hback {bytes : List UInt8} (hascii : ∀ byte ∈ bytes, byte < 128) :
      (bytes.map charOfByte).map Char.toUInt8 = bytes := by
    rw [List.map_map]
    exact (List.map_congr_left fun byte hmem => toUInt8_charOfByte (hascii byte hmem)).trans
      (List.map_id bytes)
  rw [← hback hname, hchars, hback hother]

/-- The bytes below 128 that are written as a letter of the extension of a tape. -/
theorem toLower_charOfByte {byte : UInt8} (h : byte < 128) :
    ((charOfByte byte).toLower = '.' ↔ byte = 0x2e) ∧
      ((charOfByte byte).toLower = 'k' ↔ byte = 0x6b ∨ byte = 0x4b) ∧
      ((charOfByte byte).toLower = '7' ↔ byte = 0x37) := by
  have hall : ∀ value : Fin 128,
      ((charOfByte (UInt8.ofNat value)).toLower = '.' ↔ UInt8.ofNat value = 0x2e) ∧
        ((charOfByte (UInt8.ofNat value)).toLower = 'k' ↔
          UInt8.ofNat value = 0x6b ∨ UInt8.ofNat value = 0x4b) ∧
        ((charOfByte (UInt8.ofNat value)).toLower = '7' ↔ UInt8.ofNat value = 0x37) := by
    decide
  have hbyte := hall ⟨byte.toNat, h⟩
  rwa [UInt8.ofNat_toNat] at hbyte

end Name

namespace StoredFile

/-- The name ends in the extension of a tape, with a small letter or a capital. -/
def IsTape (file : StoredFile) : Prop :=
  [0x2e, 0x6b, 0x37] <:+ file.name ∨ [0x2e, 0x4b, 0x37] <:+ file.name

instance (file : StoredFile) : Decidable file.IsTape :=
  inferInstanceAs (Decidable (_ ∨ _))

theorem isTapeName_iff {file : StoredFile} (h : ∀ byte ∈ file.name, byte < 128) :
    isTapeName (Name.ofBytes false file.name) = true ↔ file.IsTape := by
  have hsuffix : isTapeName (Name.ofBytes false file.name) = true ↔
      ['.', 'k', '7'] <:+ file.name.map fun byte => (Name.charOfByte byte).toLower := by
    rw [isTapeName, List.isSuffixOf_iff_suffix, Name.ofBytes, String.toList_ofList]
    simp only [Bool.false_eq_true, if_false, List.map_map]
    rfl
  rw [hsuffix]
  constructor
  · rintro ⟨front, hfront⟩
    obtain ⟨earlier, last, hname, -, hlast⟩ := List.map_eq_append_iff.1 hfront.symm
    obtain ⟨dot, others, rfl, hdot, hothers⟩ := List.map_eq_cons_iff.1 hlast
    obtain ⟨letter, others, rfl, hletter, hothers⟩ := List.map_eq_cons_iff.1 hothers
    obtain ⟨digit, others, rfl, hdigit, hothers⟩ := List.map_eq_cons_iff.1 hothers
    obtain rfl := List.map_eq_nil_iff.1 hothers
    have hascii : ∀ byte ∈ [dot, letter, digit], byte < 128 := fun byte hmem =>
      h byte (hname ▸ List.mem_append_right earlier hmem)
    obtain rfl := (Name.toLower_charOfByte (hascii dot (by simp))).1.1 hdot
    obtain rfl := (Name.toLower_charOfByte (hascii digit (by simp))).2.2.1 hdigit
    rcases (Name.toLower_charOfByte (hascii letter (by simp))).2.1.1 hletter with rfl | rfl
    · exact .inl ⟨earlier, hname.symm⟩
    · exact .inr ⟨earlier, hname.symm⟩
  · rintro (⟨earlier, hname⟩ | ⟨earlier, hname⟩)
    · rw [← hname, List.map_append]
      exact ⟨_, rfl⟩
    · rw [← hname, List.map_append]
      exact ⟨_, rfl⟩

/-! ## The layout of a plain archive -/

/-- The files of an archive, each behind its header. -/
def records (files : List StoredFile) : List UInt8 :=
  files.flatMap localRecord

/-- The record at the end of an archive. -/
def endRecord (files : List StoredFile) : List UInt8 :=
  EndRecord.plainBytes files.length (directory 0 files).length (records files).length

theorem archive_eq (files : List StoredFile) :
    archive files = records files ++ (directory 0 files ++ endRecord files) := by
  simp only [archive, records, endRecord, EndRecord.plainBytes, List.append_assoc]

theorem length_endRecord (files : List StoredFile) : (endRecord files).length = 22 := by
  simp [endRecord, EndRecord.plainBytes, EndRecord.signature]

theorem length_localRecord (file : StoredFile) :
    file.localRecord.length = 30 + file.name.length + file.content.length := by
  simp only [localRecord, sharedFields, List.length_append, length_numberBytes, localSignature,
    List.length_cons, List.length_nil]

theorem records_cons (file : StoredFile) (rest : List StoredFile) :
    records (file :: rest) = file.localRecord ++ records rest :=
  List.flatMap_cons

/-- What the directory says of files that stand one after the other from an offset on. -/
def entries (offset : Nat) : List StoredFile → List Entry
  | [] => []
  | file :: rest => file.entry offset :: entries (offset + file.localRecord.length) rest

theorem map_name_entries (offset : Nat) (files : List StoredFile) :
    (entries offset files).map Entry.name =
      files.map fun file => Name.ofBytes false file.name := by
  induction files generalizing offset with
  | nil => rfl
  | cons file rest ih => rw [entries, List.map_cons, List.map_cons, ih]; rfl

/-! ## What is read -/

/-- A directory is read as it is written if all of its files stand in front of it. -/
theorem takes_directory {files : List StoredFile}
    (hnames : ∀ file ∈ files, file.name.length < 65536) {offset start count : Nat}
    (hle : offset + (records files).length ≤ start) (hstart : start < 4294967296) :
    (Directory.entriesFrom ⟨start, 0, count⟩ files.length).Takes
      (directory offset files) (entries offset files) := by
  induction files generalizing offset with
  | nil => exact Fields.takes_pure []
  | cons file rest ih =>
    have hfile := length_localRecord file
    rw [records_cons, List.length_append] at hle
    have hrest := ih (fun other hmem => hnames other (List.mem_cons_of_mem _ hmem))
      (show offset + file.localRecord.length + (records rest).length ≤ start by omega)
    have hentry := takes_directoryRecord (hnames file List.mem_cons_self)
      (show file.content.length < 4294967296 by omega)
      (show offset < 4294967296 by omega)
    have hbefore : (file.entry offset).headerStart < start := by
      show offset < start
      omega
    refine hentry.bind ?_
    -- That the header stands in front of the directory takes no bytes.
    exact (Fields.takes_guard hbefore).bind (hrest.bind_nil (Fields.takes_pure _))

section Member

variable {file : StoredFile} (hname : file.name.length < 65536)
  {archive : List UInt8} {offset : Nat} {rest : List UInt8}
  (hdrop : archive.drop offset = file.localRecord ++ rest)

include hname hdrop

theorem afterHeader?_entry :
    (file.entry offset).afterHeader? archive = some (file.content ++ rest) := by
  have hheader := takes_localHeader hname (file.content ++ rest)
  rw [← List.append_assoc, ← localRecord_eq, ← hdrop] at hheader
  rw [Entry.afterHeader?]
  show (Entry.localHeader (archive.drop offset)).map Prod.snd = _
  rw [hheader]
  rfl

theorem opening_entry : (file.entry offset).opening archive = .ok () := by
  rw [Entry.opening, afterHeader?_entry hname hdrop]
  rfl

theorem content_entry : (file.entry offset).content archive = .ok file.content := by
  have hbytes : ((some (file.content ++ rest)).getD []).take file.content.length =
      file.content := List.take_left
  rw [Entry.content, afterHeader?_entry hname hdrop]
  show (if checksum (((some (file.content ++ rest)).getD []).take file.content.length) =
    checksum file.content then _ else _) = _
  rw [hbytes, if_pos rfl]
  exact congrArg Except.ok hbytes

end Member

/-- The members of a plain archive are looked through as the files are. -/
theorem tapeAmong_entries {files : List StoredFile}
    (hnames : ∀ file ∈ files, file.name.length < 65536)
    (hascii : ∀ file ∈ files, ∀ byte ∈ file.name, byte < 128) {archive rest : List UInt8}
    {offset : Nat} (hdrop : archive.drop offset = records files ++ rest) :
    tapeAmong ((entries offset files).map fun entry => entry.member archive) =
      match files.find? fun file => file.IsTape with
      | some tape => ⟨[.unzipping (Name.ofBytes false tape.name)], .ok tape.content⟩
      | none => .fail .noTape := by
  induction files generalizing offset with
  | nil => rfl
  | cons file others ih =>
    have hname := hnames file List.mem_cons_self
    rw [records_cons, List.append_assoc] at hdrop
    have hnext : archive.drop (offset + file.localRecord.length) = records others ++ rest := by
      rw [← List.drop_drop, hdrop, List.drop_left]
    have hothers := ih (fun other hmem => hnames other (List.mem_cons_of_mem _ hmem))
      (fun other hmem => hascii other (List.mem_cons_of_mem _ hmem)) hnext
    have htape := isTapeName_iff (hascii file List.mem_cons_self)
    have hopening : ((file.entry offset).member archive).opening = .ok () :=
      opening_entry hname hdrop
    have hcontent : ((file.entry offset).member archive).content.get = .ok file.content :=
      content_entry hname hdrop
    have hmember : ((file.entry offset).member archive).name =
        Name.ofBytes false file.name := rfl
    rw [entries, List.map_cons, tapeAmong, hopening, hmember, hcontent, hothers]
    by_cases hfile : file.IsTape
    · rw [List.find?_cons_of_pos (by simpa using hfile)]
      show (if isTapeName (Name.ofBytes false file.name) = true then _ else _) = _
      rw [if_pos (htape.2 hfile)]
      rfl
    · rw [List.find?_cons_of_neg (by simpa using hfile)]
      show (if isTapeName (Name.ofBytes false file.name) = true then _ else _) = _
      rw [if_neg (mt htape.1 hfile)]

/-! ## The archive as a whole -/

section Archive

variable {files : List StoredFile} (hnames : ∀ file ∈ files, file.name.length < 65536)
  (hcount : files.length < 65535) (hsize : (archive files).length < 2 ^ 32 - 1)

theorem length_archive (files : List StoredFile) :
    (archive files).length = (records files).length + (directory 0 files).length + 22 := by
  rw [archive_eq, List.length_append, List.length_append, length_endRecord]
  omega

/-- A directory with entries begins with the signature of one. -/
theorem directory_cons (offset : Nat) (file : StoredFile) (rest : List StoredFile) :
    ∃ bytes, directory offset (file :: rest) = entrySignature ++ bytes := by
  simp only [directory, directoryRecord, List.append_assoc]
  exact ⟨_, rfl⟩

/-- What stands between the files and the end record is the directory. -/
theorem drop_take_archive (files : List StoredFile) :
    ((archive files).take ((records files).length + (directory 0 files).length)).drop
      (records files).length = directory 0 files := by
  rw [archive_eq, ← List.append_assoc, ← List.length_append, List.take_left, List.drop_left]

/-- The first entry in the directory is found at its start. -/
theorem ofEndRecord?_archive (files : List StoredFile) :
    Directory.ofEndRecord? (archive files)
        ((records files).length + (directory 0 files).length)
        ⟨0, 0, files.length, files.length, (directory 0 files).length, (records files).length,
          []⟩ =
      some ⟨(records files).length, 0, files.length⟩ := by
  have hsignature : entrySignature ≠ [] := by decide
  cases files with
  | nil => rfl
  | cons file rest =>
    have hhead : (positions entrySignature (archive (file :: rest))
        (records (file :: rest)).length
        ((records (file :: rest)).length + (directory 0 (file :: rest)).length)).head? =
          some (records (file :: rest)).length := by
      obtain ⟨bytes, hdirectory⟩ := directory_cons 0 file rest
      obtain ⟨others, hfound⟩ := positionsFrom_signature hsignature
        (records (file :: rest)).length bytes
      rw [positions, drop_take_archive, hdirectory, hfound]
      rfl
    have hentries : ¬(file :: rest).length = 0 := by simp
    rw [Directory.ofEndRecord?, if_neg hentries, hhead]
    exact congrArg (fun shift => some (⟨_, shift, _⟩ : Directory)) (Nat.sub_self _)

/-- The signature of an end record stands last where the end record does, or only where no
end record has room. -/
theorem positions_endRecord (files : List StoredFile) :
    ∃ earlier later, positions EndRecord.signature (archive files) 0 (archive files).length =
        earlier ++ ((records files).length + (directory 0 files).length) :: later ∧
      ∀ other ∈ later, Directory.at? (archive files) other = none := by
  have hlength := length_archive files
  have hsignature : EndRecord.signature ≠ [] := by decide
  have hend : endRecord files = EndRecord.signature ++ (endRecord files).drop 4 := rfl
  obtain ⟨bytes, hfound⟩ := positionsFrom_signature hsignature
    ((records files).length + (directory 0 files).length) ((endRecord files).drop 4)
  obtain ⟨earlier, hearlier⟩ := positionsFrom_append EndRecord.signature 0
    (records files ++ directory 0 files) (endRecord files)
  rw [List.append_assoc, ← archive_eq, Nat.zero_add, List.length_append, hend, hfound] at hearlier
  refine ⟨earlier, positionsFrom EndRecord.signature
    ((records files).length + (directory 0 files).length + 1) bytes, ?_, ?_⟩
  · rw [positions, List.take_length, List.drop_zero, hearlier]
  · intro other hmem
    have hle := le_of_mem_positionsFrom hmem
    exact Directory.at?_of_short (by omega)

include hcount hsize

/-- The end record that was written leads to the directory that was written. -/
theorem at?_endRecord :
    Directory.at? (archive files) ((records files).length + (directory 0 files).length) =
      some ⟨(records files).length, 0, files.length⟩ := by
  have hlength := length_archive files
  have hdrop : (archive files).drop ((records files).length + (directory 0 files).length) =
      endRecord files := by
    rw [archive_eq, ← List.append_assoc, ← List.length_append, List.drop_left]
  have hrecord : EndRecord.fields.of? (endRecord files) = some
      ⟨0, 0, files.length, files.length, (directory 0 files).length, (records files).length,
        []⟩ := by
    have htakes := EndRecord.takes_plainBytes (show files.length < 65536 by omega)
      (show (directory 0 files).length < 4294967296 by omega)
      (show (records files).length < 4294967296 by omega)
    have hread := htakes.of?_append []
    rwa [List.append_nil] at hread
  have hfull : EndRecord.isFull ⟨0, 0, files.length, files.length, (directory 0 files).length,
      (records files).length, []⟩ = false := by
    have hoffset : (records files).length ≠ 0xffffffff := by omega
    have hentries : files.length ≠ 0xffff := by omega
    simp [EndRecord.isFull, hoffset, hentries]
  simp only [Directory.at?, hdrop, hrecord, Option.bind_eq_bind, Option.bind_some, hfull,
    Bool.false_eq_true, if_false]
  exact ofEndRecord?_archive files

variable (hascii : ∀ file ∈ files, ∀ byte ∈ file.name, byte < 128)
  (hdistinct : (files.map StoredFile.name).Nodup)

include hnames hascii hdistinct

/-- The names that are read are distinct if those that are written are. -/
theorem entriesOf_archive : Directory.entriesOf (archive files) = .ok (entries 0 files) := by
  have hlength := length_archive files
  obtain ⟨earlier, later, hfound, hlater⟩ := positions_endRecord files
  refine Directory.entriesOf_of_last hfound hlater ?_
  have hdrop : (archive files).drop (records files).length =
      directory 0 files ++ endRecord files := by
    rw [archive_eq, List.drop_left]
  have htakes : (Directory.entriesFrom ⟨(records files).length, 0, files.length⟩
      files.length).Takes (directory 0 files) (entries 0 files) :=
    takes_directory hnames (by omega) (by omega)
  have hread := htakes.of?_append (endRecord files)
  have hfresh : (([] ++ entries 0 files).map Entry.name).Nodup := by
    rw [List.nil_append, map_name_entries, ← Function.comp_def, ← List.map_map]
    refine hdistinct.map_on fun name hname other hother h => ?_
    obtain ⟨file, hfile, rfl⟩ := List.mem_map.1 hname
    obtain ⟨otherFile, hotherFile, rfl⟩ := List.mem_map.1 hother
    exact Name.ofBytes_injective (hascii file hfile) (hascii otherFile hotherFile) h
  rw [at?_endRecord hcount hsize]
  show Directory.entries? _ _ = _
  rw [Directory.entries?]
  simp only [hdrop, hread, Option.bind_eq_bind, Option.bind_some]
  exact congrArg some (Directory.foldl_addEntry hfresh)

end Archive

/-- What comes out of a plain archive of files with distinct names in ASCII: the content of
the first file whose name is that of a tape, which is named in the only record, and if there
is none, the error that says so.  The contents may be any bytes, those of another archive
too. -/
theorem image_of_archive {files : List StoredFile}
    (hnames : ∀ file ∈ files, file.name.length < 65536)
    (hascii : ∀ file ∈ files, ∀ byte ∈ file.name, byte < 128)
    (hdistinct : (files.map StoredFile.name).Nodup) (hcount : files.length < 65535)
    (hsize : (archive files).length < 2 ^ 32 - 1) :
    image (archive files) =
        (match files.find? fun file => file.IsTape with
        | some tape => ⟨[.unzipping (Name.ofBytes false tape.name)], .ok tape.content⟩
        | none => ⟨[], .error .noTape⟩) ∧
      ArchiveError.noTape.message = "no .k7 file in the archive" := by
  have hdrop : (archive files).drop 0 = records files ++ (directory 0 files ++ endRecord files) :=
    archive_eq files
  have hentries := entriesOf_archive hnames hcount hsize hascii hdistinct
  refine ⟨?_, rfl⟩
  rw [image, membersOf, hentries]
  exact tapeAmong_entries hnames hascii hdrop

/-- The first file holds the signatures of an end record and of an entry, its name ends
almost as that of a tape, and a second tape follows the first one.  Without the tapes there
is none. -/
theorem image_of_archive_of_four_files :
    let text : StoredFile :=
      ⟨[0x6b, 0x37], EndRecord.signature ++ List.replicate 18 0 ++ entrySignature⟩
    let tape : StoredFile := ⟨[0x47, 0x2e, 0x4b, 0x37], EndRecord.signature⟩
    let other : StoredFile := ⟨[0x2e, 0x6b, 0x37], [1, 2, 3]⟩
    let last : StoredFile := ⟨[0x50, 0x4b, 5, 6], []⟩
    (image (archive [text, tape, other, last])).result = .ok EndRecord.signature ∧
      (image (archive [last, text])).result = .error .noTape ∧
      (image (archive [])).result = .error .noTape := by
  intro text tape other last
  obtain ⟨hfour, -⟩ := image_of_archive
    (show ∀ file ∈ [text, tape, other, last], file.name.length < 65536 by decide)
    (by decide +kernel) (by decide) (by decide) (by decide +kernel)
  obtain ⟨htwo, -⟩ := image_of_archive
    (show ∀ file ∈ [last, text], file.name.length < 65536 by decide)
    (by decide +kernel) (by decide) (by decide) (by decide +kernel)
  obtain ⟨hnone, -⟩ := image_of_archive
    (show ∀ file ∈ ([] : List StoredFile), file.name.length < 65536 by decide)
    (by decide +kernel) (by decide) (by decide) (by decide +kernel)
  exact ⟨congrArg Traced.result hfour, congrArg Traced.result htwo,
    congrArg Traced.result hnone⟩

end StoredFile

end Cassette.Archive
