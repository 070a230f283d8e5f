import Cassette.Archive.Member
import Cassette.Archive.Stored

/-!
# Records read off the front

A reader takes some bytes if it reads them off the front of anything that begins with
them and leaves the rest alone (`Fields.Takes`).  Readers in sequence take their bytes in
sequence, so a record is taken as it is written, field by field.  In the other direction a
reader that succeeds has used up the bytes of its fields (`Fields.Uses`), so that no
record is read from less.

The lemmas below the general part say what the records of a plain archive are read as.
-/

namespace Cassette.Archive

namespace Fields

variable {α β : Type} {fields : Fields α} {next : α → Fields β}

/-- Some bytes are read as a value, whatever follows them. -/
def Takes (fields : Fields α) (front : List UInt8) (value : α) : Prop :=
  ∀ rest, fields (front ++ rest) = some (value, rest)

/-- Nothing is read from fewer bytes than the given count, and as many are used up. -/
def Uses (fields : Fields α) (count : Nat) : Prop :=
  ∀ input value rest, fields input = some (value, rest) → count + rest.length ≤ input.length

theorem Takes.bind {front back : List UInt8} {value : α} {result : β}
    (h : fields.Takes front value) (hnext : (next value).Takes back result) :
    (fields >>= next).Takes (front ++ back) result := by
  intro rest
  change StateT.bind fields next (front ++ back ++ rest) = some (result, rest)
  rw [List.append_assoc]
  simp only [StateT.bind, h (back ++ rest)]
  exact hnext rest

/-- Nothing more is taken after some bytes. -/
theorem Takes.bind_nil {front : List UInt8} {value : α} {result : β}
    (h : fields.Takes front value) (hnext : (next value).Takes [] result) :
    (fields >>= next).Takes front result := by
  have hbind := h.bind hnext
  rwa [List.append_nil] at hbind

theorem takes_pure (value : α) : Takes (pure value) [] value := fun _ => rfl

/-- What is decided without reading takes no bytes. -/
theorem takes_lift {answer : Option α} {value : α} (h : answer = some value) :
    Takes (StateT.lift answer) [] value := by
  intro rest
  subst h
  rfl

theorem takes_guard {condition : Prop} [Decidable condition] (h : condition) :
    Takes (guard condition) [] () := by
  intro rest
  show (if condition then pure () else failure : Fields Unit) ([] ++ rest) = _
  rw [if_pos h]
  rfl

theorem takes_bytes {front : List UInt8} {count : Nat} (h : front.length = count) :
    Takes (.bytes count) front front := by
  subst h
  exact bytes_append front

theorem takes_natural {width value : Nat} (h : value < numberBound width) :
    Takes (.natural width) (numberBytes width value) value :=
  natural_append h

theorem takes_signature (expected : List UInt8) : Takes (.signature expected) expected () :=
  signature_append expected

/-- What is skipped is taken. -/
theorem takes_skip {front : List UInt8} {count : Nat} (h : front.length = count) :
    Takes (modify fun rest => rest.drop count) front () := by
  intro rest
  subst h
  show some ((), (front ++ rest).drop front.length) = some ((), rest)
  rw [List.drop_left]

theorem Takes.of?_append {front : List UInt8} {value : α} (h : fields.Takes front value)
    (rest : List UInt8) : fields.of? (front ++ rest) = some value := by
  rw [of?, h rest]
  rfl

theorem Uses.bind {count others : Nat} (h : fields.Uses count)
    (hnext : ∀ value, (next value).Uses others) : (fields >>= next).Uses (count + others) := by
  intro input result rest hread
  obtain ⟨⟨value, between⟩, hfirst, hlast⟩ := Option.bind_eq_some_iff.1 hread
  have hused := h input value between hfirst
  have husedNext := hnext value between result rest hlast
  omega

theorem Uses.mono {count least : Nat} (h : fields.Uses count) (hle : least ≤ count) :
    fields.Uses least := by
  intro input value rest hread
  exact Nat.le_trans (Nat.add_le_add_right hle _) (h input value rest hread)

theorem uses_pure (value : α) : Uses (pure value) 0 := by
  intro input found rest h
  cases h
  omega

theorem uses_bytes (count : Nat) : Uses (.bytes count) count := by
  intro input found rest h
  simp only [bytes] at h
  split at h
  · rename_i hlength
    cases h
    rw [List.length_take] at hlength
    rw [List.length_drop]
    omega
  · cases h

theorem uses_natural (width : Nat) : Uses (.natural width) width := by
  intro input value rest h
  obtain ⟨⟨found, between⟩, hbytes, hvalue⟩ := Option.map_eq_some_iff.1 h
  cases hvalue
  exact uses_bytes width input found rest hbytes

theorem uses_signature (expected : List UInt8) : Uses (.signature expected) expected.length := by
  intro input value rest h
  simp only [signature] at h
  split at h
  · rename_i hprefix
    cases h
    obtain ⟨rest, rfl⟩ := List.isPrefixOf_iff_prefix.1 hprefix
    exact Nat.le_of_eq (by rw [List.drop_left, List.length_append])
  · cases h

end Fields

open Fields

namespace EndRecord

/-- The end record of an archive on one disk and without a comment, as it is written. -/
def plainBytes (entries directorySize directoryOffset : Nat) : List UInt8 :=
  signature ++ (numberBytes 2 0 ++ (numberBytes 2 0 ++ (numberBytes 2 entries ++
    (numberBytes 2 entries ++ (numberBytes 4 directorySize ++
      (numberBytes 4 directoryOffset ++ numberBytes 2 0))))))

theorem takes_plainBytes {entries directorySize directoryOffset : Nat}
    (hentries : entries < 65536) (hsize : directorySize < 4294967296)
    (hoffset : directoryOffset < 4294967296) :
    fields.Takes (plainBytes entries directorySize directoryOffset)
      ⟨0, 0, entries, entries, directorySize, directoryOffset, []⟩ := by
  have hzero : 0 < numberBound 2 := by decide
  have hcomment : Takes (.bytes 0) [] [] := takes_bytes rfl
  refine (takes_signature signature).bind ?_
  refine (takes_natural hzero).bind ((takes_natural hzero).bind ?_)
  refine (takes_natural hentries).bind ((takes_natural hentries).bind ?_)
  refine (takes_natural hsize).bind ((takes_natural hoffset).bind ?_)
  exact (takes_natural hzero).bind_nil (hcomment.bind_nil (takes_pure _))

/-- An end record has at least twenty-two bytes, as many as its fields before the
comment. -/
theorem uses_fields : fields.Uses 22 := by
  have hcomment (disk directoryDisk entriesHere entries size offset count : Nat) :
      Uses (do
        let comment ← .bytes count
        pure (⟨disk, directoryDisk, entriesHere, entries, size, offset, comment⟩ :
          EndRecord)) 0 :=
    ((uses_bytes count).bind fun comment => uses_pure _).mono (Nat.zero_le _)
  show fields.Uses (4 + (2 + (2 + (2 + (2 + (4 + (4 + (2 + 0))))))))
  refine (uses_signature signature).bind fun _ => ?_
  refine (uses_natural 2).bind fun disk => (uses_natural 2).bind fun directoryDisk => ?_
  refine (uses_natural 2).bind fun entriesHere => (uses_natural 2).bind fun entries => ?_
  refine (uses_natural 4).bind fun size => (uses_natural 4).bind fun offset => ?_
  exact (uses_natural 2).bind fun count => hcomment _ _ _ _ _ _ count

end EndRecord

namespace StoredFile

/-- What the directory says of a file whose own header is at an offset. -/
def entry (offset : Nat) (file : StoredFile) : Entry :=
  ⟨Name.ofBytes false file.name, false, false, 0, checksum file.content, file.content.length,
    offset⟩

/-- The bytes of a file in front of its content. -/
def localHeader (file : StoredFile) : List UInt8 :=
  localSignature ++ file.sharedFields ++ file.name

theorem localRecord_eq (file : StoredFile) :
    file.localRecord = file.localHeader ++ file.content := rfl

variable {file : StoredFile} {offset : Nat} (hname : file.name.length < 65536)

include hname

theorem takes_directoryRecord (hcontent : file.content.length < 4294967296)
    (hoffset : offset < 4294967296) :
    (Entry.fields 0).Takes (file.directoryRecord offset) (file.entry offset) := by
  have hzero : 0 < numberBound 2 := by decide
  have hversion : version < numberBound 2 := by decide
  have hchecksum : (checksum file.content).toNat < numberBound 4 := UInt32.toNat_lt _
  have hempty : Takes (.bytes 0) [] [] := takes_bytes rfl
  have hmethod : 0 ≠ Entry.cipherMethod := by decide
  have hrecord : file.directoryRecord offset =
      entrySignature ++ (numberBytes 2 version ++ (numberBytes 2 version ++
        (numberBytes 2 0 ++ (numberBytes 2 0 ++ (numberBytes 2 0 ++ (numberBytes 2 0 ++
          (numberBytes 4 (checksum file.content).toNat ++
            (numberBytes 4 file.content.length ++ (numberBytes 4 file.content.length ++
              (numberBytes 2 file.name.length ++ (numberBytes 2 0 ++ (numberBytes 2 0 ++
                (numberBytes 2 0 ++ (numberBytes 2 0 ++ (numberBytes 4 0 ++
                  (numberBytes 4 offset ++ file.name)))))))))))))))) := by
    simp only [directoryRecord, sharedFields, List.append_assoc]
  rw [hrecord]
  refine (takes_signature entrySignature).bind ((takes_natural hversion).bind ?_)
  refine (takes_natural hversion).bind ((takes_natural hzero).bind ?_)
  refine (takes_natural hzero).bind ((takes_natural hzero).bind ?_)
  refine (takes_natural hzero).bind ((takes_natural hchecksum).bind ?_)
  refine (takes_natural hcontent).bind ((takes_natural hcontent).bind ?_)
  refine (takes_natural hname).bind ((takes_natural hzero).bind ?_)
  refine (takes_natural hzero).bind ((takes_natural hzero).bind ?_)
  refine (takes_natural hzero).bind ((takes_natural (by decide)).bind ?_)
  refine (takes_natural hoffset).bind ((takes_bytes rfl).bind_nil ?_)
  -- Neither extra fields nor a comment follow the name.
  refine hempty.bind_nil (hempty.bind_nil ?_)
  refine (takes_lift (Details.withExtra_nil _)).bind_nil ?_
  refine (takes_guard (.inl hmethod)).bind_nil ?_
  rw [UInt32.ofNat_toNat]
  exact takes_pure (file.entry offset)

theorem takes_localHeader : Entry.localHeader.Takes file.localHeader () := by
  have hzero : 0 < numberBound 2 := by decide
  -- All that counts are the two lengths behind the first twenty-two bytes.
  obtain ⟨fixed, hlength, hfields⟩ : ∃ fixed : List UInt8, fixed.length = 22 ∧
      file.sharedFields =
        fixed ++ numberBytes 2 file.name.length ++ numberBytes 2 0 :=
    ⟨_, by simp, rfl⟩
  have hheader : file.localHeader = localSignature ++ (fixed ++
      (numberBytes 2 file.name.length ++ (numberBytes 2 0 ++ file.name))) := by
    simp only [localHeader, hfields, List.append_assoc]
  rw [hheader]
  refine (takes_signature localSignature).bind ((takes_bytes hlength).bind ?_)
  exact (takes_natural hname).bind ((takes_natural hzero).bind (takes_skip rfl))

end StoredFile

end Cassette.Archive
