import Cassette.Proofs.Archive.Stored

/-!
# The choice of the tape in an archive

Members are looked through in their order up to the first one that settles the search,
because it does not open or because its name is that of a tape (`Member.Settles`).  Name
and opening decide that alone.  How the search ends is a matter of this one member
(`tapeAmong_of_settledAt`): it ends with the error of its opening and without a record, or
it names the member in its only record and gives its content.  So nothing behind it can
do harm, and no content in front of it can (`image_of_presented`).

Two things follow for any archive: its search logs at most the name of an entry, and an
image never comes out of it without that record.
-/

namespace Cassette.Archive

/-! ## The names of tapes -/

/-- Only the letters of ASCII have a small form, 32 places behind. -/
theorem toNat_toLower (char : Char) :
    char.toLower.toNat =
      if 65 ≤ char.toNat ∧ char.toNat ≤ 90 then char.toNat + 32 else char.toNat := by
  have hcapital : (char.val ≥ 'A'.val ∧ char.val ≤ 'Z'.val) ↔
      65 ≤ char.toNat ∧ char.toNat ≤ 90 := Iff.rfl
  unfold Char.toLower
  by_cases h : 65 ≤ char.toNat ∧ char.toNat ≤ 90
  · have hle : char.val.toNat ≤ 90 := h.2
    have hsum : (char.val + 32).toNat = char.val.toNat + 32 := by
      rw [UInt32.toNat_add]
      exact Nat.mod_eq_of_lt (show char.val.toNat + 32 < 2 ^ 32 by omega)
    rw [dif_pos (hcapital.2 h), if_pos h]
    exact hsum
  · rw [dif_neg (mt hcapital.1 h), if_neg h]

/-- The name ends in the extension of a tape, with a small letter or a capital. -/
def NamesTape (name : String) : Prop :=
  ∃ stem, name = stem ++ ".k7" ∨ name = stem ++ ".K7"

/-- Two spellings become the extension in small letters. -/
theorem map_toLower_eq_extension_iff (chars : List Char) :
    chars.map Char.toLower = ['.', 'k', '7'] ↔
      chars = ['.', 'k', '7'] ∨ chars = ['.', 'K', '7'] := by
  have hdot : '.'.toNat = 46 ∧ '7'.toNat = 55 ∧ 'k'.toNat = 107 ∧ 'K'.toNat = 75 := by decide
  have hsign {char sign : Char} (h : char.toLower = sign) (hsign : sign.toNat < 65) :
      char = sign := by
    rw [← Char.toNat_inj, toNat_toLower] at h
    rw [← Char.toNat_inj]
    split at h <;> omega
  have hletter {char : Char} (h : char.toLower = 'k') : char = 'k' ∨ char = 'K' := by
    rw [← Char.toNat_inj, toNat_toLower] at h
    rw [← Char.toNat_inj, ← Char.toNat_inj]
    split at h <;> omega
  constructor
  · intro h
    obtain ⟨first, others, rfl, hfirst, h⟩ := List.map_eq_cons_iff.1 h
    obtain ⟨second, others, rfl, hsecond, h⟩ := List.map_eq_cons_iff.1 h
    obtain ⟨third, others, rfl, hthird, h⟩ := List.map_eq_cons_iff.1 h
    obtain rfl := List.map_eq_nil_iff.1 h
    obtain rfl := hsign hfirst (by omega)
    obtain rfl := hsign hthird (by omega)
    rcases hletter hsecond with rfl | rfl
    · exact .inl rfl
    · exact .inr rfl
  · rintro (rfl | rfl) <;> decide

theorem isTapeName_iff_namesTape (name : String) : isTapeName name = true ↔ NamesTape name := by
  have hends (chars : List Char) : chars <:+ name.toList ↔
      ∃ stem, name = stem ++ String.ofList chars := by
    constructor
    · rintro ⟨stem, hstem⟩
      refine ⟨String.ofList stem, String.toList_inj.1 ?_⟩
      simp [hstem]
    · rintro ⟨stem, rfl⟩
      exact ⟨stem.toList, by simp⟩
  rw [isTapeName, List.isSuffixOf_iff_suffix, List.suffix_map_iff]
  constructor
  · rintro ⟨chars, hsuffix, hchars⟩
    obtain ⟨stem, hstem⟩ := (hends chars).1 hsuffix
    rcases (map_toLower_eq_extension_iff chars).1 hchars.symm with rfl | rfl
    · exact ⟨stem, .inl hstem⟩
    · exact ⟨stem, .inr hstem⟩
  · rintro ⟨stem, hname | hname⟩
    · exact ⟨_, (hends ['.', 'k', '7']).2 ⟨stem, hname⟩, by decide⟩
    · exact ⟨_, (hends ['.', 'K', '7']).2 ⟨stem, hname⟩, by decide⟩

instance (name : String) : Decidable (NamesTape name) :=
  decidable_of_iff _ (isTapeName_iff_namesTape name)

/-! ## The member that settles the search -/

namespace Member

/-- The search ends at the member: it does not open, or it does and has the name of a
tape. -/
def Settles (member : Member) : Prop :=
  (∃ error, member.opening = .error error) ∨ (member.opening = .ok () ∧ NamesTape member.name)

instance (member : Member) : Decidable member.Settles :=
  match h : member.opening with
  | .error error => isTrue (.inl ⟨error, h⟩)
  | .ok () => decidable_of_iff (NamesTape member.name)
      ⟨fun hname => .inr ⟨h, hname⟩, fun hsettles => hsettles.elim
        (fun ⟨_, herror⟩ => nomatch h.symm.trans herror) And.right⟩

/-- What can be told of a member without reading it. -/
def face (member : Member) : String × Except ArchiveError Unit :=
  (member.name, member.opening)

theorem settles_iff_of_face_eq {member other : Member} (h : other.face = member.face) :
    other.Settles ↔ member.Settles := by
  obtain ⟨hname, hopening⟩ := Prod.mk.inj h
  rw [Settles, Settles, hname, hopening]

/-- How the search ends at a member that settles it. -/
def outcome (member : Member) : Traced Log.Record ArchiveError (List UInt8) :=
  match member.opening with
  | .error error => ⟨[], .error error⟩
  | .ok () => ⟨[.unzipping member.name], member.content.get⟩

theorem outcome_of_error {member : Member} {error : ArchiveError}
    (h : member.opening = .error error) : member.outcome = ⟨[], .error error⟩ := by
  rw [outcome, h]

theorem outcome_of_ok {member : Member} (h : member.opening = .ok ()) :
    member.outcome = ⟨[.unzipping member.name], member.content.get⟩ := by
  rw [outcome, h]

theorem outcome_eq_of_face_eq {member other : Member} (h : other.face = member.face)
    (hcontent : other.content.get = member.content.get) : other.outcome = member.outcome := by
  obtain ⟨hname, hopening⟩ := Prod.mk.inj h
  rw [outcome, outcome, hname, hopening, hcontent]

end Member

theorem tapeAmong_cons_of_settles {member : Member} (h : member.Settles) (rest : List Member) :
    tapeAmong (member :: rest) = member.outcome := by
  rcases h with ⟨error, herror⟩ | ⟨hok, hname⟩
  · rw [tapeAmong, herror, Member.outcome_of_error herror]
    rfl
  · rw [tapeAmong, hok, Member.outcome_of_ok hok]
    exact if_pos ((isTapeName_iff_namesTape _).2 hname)

/-- A member that does not settle the search is passed over. -/
theorem tapeAmong_cons_of_not_settles {member : Member} (h : ¬member.Settles)
    (rest : List Member) : tapeAmong (member :: rest) = tapeAmong rest := by
  cases hopening : member.opening with
  | error error => exact absurd (.inl ⟨error, hopening⟩) h
  | ok _ =>
    have hname : ¬isTapeName member.name = true := fun hname =>
      h (.inr ⟨hopening, (isTapeName_iff_namesTape _).1 hname⟩)
    rw [tapeAmong, hopening]
    exact if_neg hname

theorem tapeAmong_append {front : List Member} (h : ∀ member ∈ front, ¬member.Settles)
    (rest : List Member) : tapeAmong (front ++ rest) = tapeAmong rest := by
  induction front with
  | nil => rfl
  | cons member front ih =>
    rw [List.cons_append, tapeAmong_cons_of_not_settles (h member List.mem_cons_self),
      ih fun other hmem => h other (List.mem_cons_of_mem _ hmem)]

theorem tapeAmong_of_not_settles {members : List Member}
    (h : ∀ member ∈ members, ¬member.Settles) : tapeAmong members = ⟨[], .error .noTape⟩ := by
  have hend := tapeAmong_append h []
  rwa [List.append_nil] at hend

/-- The first member that settles the search, and its place. -/
structure SettledAt (members : List Member) (index : Nat) (member : Member) : Prop where
  getElem?_eq : members[index]? = some member
  settles : member.Settles
  before : ∀ other ∈ members.take index, ¬other.Settles

theorem tapeAmong_of_settledAt {members : List Member} {index : Nat} {member : Member}
    (h : SettledAt members index member) : tapeAmong members = member.outcome := by
  obtain ⟨hlt, hget⟩ := List.getElem?_eq_some_iff.1 h.getElem?_eq
  calc
    tapeAmong members = tapeAmong (members.take index ++ members.drop index) := by
      rw [List.take_append_drop]
    _ = tapeAmong (members.drop index) := tapeAmong_append h.before _
    _ = tapeAmong (member :: members.drop (index + 1)) := by
      rw [List.drop_eq_getElem_cons hlt, hget]
    _ = member.outcome := tapeAmong_cons_of_settles h.settles _

/-- No member settles the search, or one does as the first. -/
theorem settledAt_cases (members : List Member) :
    (∀ member ∈ members, ¬member.Settles) ∨ ∃ index member, SettledAt members index member := by
  induction members with
  | nil => exact .inl nofun
  | cons first rest ih =>
    by_cases hfirst : first.Settles
    · exact .inr ⟨0, first, rfl, hfirst, nofun⟩
    · refine ih.imp (fun h => List.forall_mem_cons.2 ⟨hfirst, h⟩) ?_
      rintro ⟨index, member, h⟩
      exact ⟨index + 1, member, h.getElem?_eq, h.settles,
        List.forall_mem_cons.2 ⟨hfirst, h.before⟩⟩

/-- Where the search is settled in one list of members it is settled in any other one that
looks alike up to there, and if the contents there agree it ends alike. -/
theorem SettledAt.tapeAmong_eq {members others : List Member} {index : Nat} {member : Member}
    (h : SettledAt members index member)
    (hfaces : (others.take (index + 1)).map Member.face =
      (members.take (index + 1)).map Member.face)
    (hcontent : others[index]?.map (fun other => other.content.get) = some member.content.get) :
    tapeAmong others = tapeAmong members := by
  obtain ⟨other, hother, hcontent⟩ := Option.map_eq_some_iff.1 hcontent
  rw [List.take_add_one, List.take_add_one, hother, h.getElem?_eq, List.map_append,
    List.map_append] at hfaces
  obtain ⟨hbefore, hface⟩ := List.append_inj' hfaces rfl
  obtain ⟨hface, -⟩ := List.cons.inj hface
  have hothers : SettledAt others index other := by
    refine ⟨hother, (Member.settles_iff_of_face_eq hface).2 h.settles, fun earlier hmem => ?_⟩
    have hsame : earlier.face ∈ (members.take index).map Member.face :=
      hbefore ▸ List.mem_map_of_mem hmem
    obtain ⟨same, hsame, heq⟩ := List.mem_map.1 hsame
    rw [Member.settles_iff_of_face_eq heq.symm]
    exact h.before same hsame
  rw [tapeAmong_of_settledAt h, tapeAmong_of_settledAt hothers]
  exact Member.outcome_eq_of_face_eq hface hcontent

/-! ## What a search logs -/

/-- Looking through some members ends without a record, or with the content of one of
them and its name as the only record. -/
theorem tapeAmong_cases (members : List Member) :
    (∃ error, tapeAmong members = ⟨[], .error error⟩) ∨
      ∃ member ∈ members,
        tapeAmong members = ⟨[.unzipping member.name], member.content.get⟩ := by
  rcases settledAt_cases members with hnone | ⟨index, member, h⟩
  · exact .inl ⟨.noTape, tapeAmong_of_not_settles hnone⟩
  · rw [tapeAmong_of_settledAt h]
    rcases h.settles with ⟨error, herror⟩ | ⟨hok, -⟩
    · exact .inl ⟨error, Member.outcome_of_error herror⟩
    · exact .inr ⟨member, List.mem_of_getElem? h.getElem?_eq, Member.outcome_of_ok hok⟩

theorem image_cases (archive : List UInt8) :
    (∃ error, image archive = ⟨[], .error error⟩) ∨
      ∃ name result, image archive = ⟨[.unzipping name], result⟩ := by
  unfold image
  cases membersOf archive with
  | error error => exact .inl ⟨error, rfl⟩
  | ok members =>
    show (∃ error, tapeAmong members = _) ∨ ∃ name result, tapeAmong members = _
    refine (tapeAmong_cases members).imp id ?_
    rintro ⟨member, -, h⟩
    exact ⟨member.name, _, h⟩

/-- An image that comes out of an archive is that of an entry that was named. -/
theorem image_of_ok {archive content : List UInt8} (h : (image archive).result = .ok content) :
    ∃ name, image archive = ⟨[.unzipping name], .ok content⟩ := by
  rcases image_cases archive with ⟨error, hcase⟩ | ⟨name, result, hcase⟩
  · rw [hcase] at h
    cases h
  · rw [hcase] at h
    obtain rfl : result = .ok content := h
    exact ⟨name, hcase⟩

/-! ## Any way to present an archive -/

/-- The tape in an archive whose members are presented in some way. -/
def imageBy (present : List UInt8 → Except ArchiveError (List Member)) (archive : List UInt8) :
    Traced Log.Record ArchiveError (List UInt8) := do
  tapeAmong (← .ofExcept (present archive))

/-- The tape in an archive, for any way to present bytes as members or to reject them.
What is rejected fails as it was rejected.  If no member settles the search, there is no
tape.  Otherwise the first one that does decides: if it does not open, the search fails as
its opening did, and if it does, its name is the only record and what reading it gives is
the result.  Any other archive ends alike if it has the same names and openings up to that
place and the same content in it. -/
theorem image_of_presented (present : List UInt8 → Except ArchiveError (List Member)) :
    imageBy membersOf = image ∧
    (∀ archive error, present archive = .error error →
      imageBy present archive = ⟨[], .error error⟩) ∧
    (∀ archive members, present archive = .ok members →
      ((∀ member ∈ members, ¬member.Settles) →
        imageBy present archive = ⟨[], .error .noTape⟩) ∧
      ∀ index member, SettledAt members index member →
        (∀ error, member.opening = .error error →
          imageBy present archive = ⟨[], .error error⟩) ∧
        (member.opening = .ok () →
          imageBy present archive = ⟨[.unzipping member.name], member.content.get⟩) ∧
        ∀ other others, present other = .ok others →
          (others.take (index + 1)).map Member.face =
            (members.take (index + 1)).map Member.face →
          others[index]?.map (fun other => other.content.get) = some member.content.get →
          imageBy present other = imageBy present archive) ∧
    ArchiveError.noTape.message = "no .k7 file in the archive" ∧
    ∀ name, (Log.Record.unzipping name).text = "unzipping K7 " ++ name := by
  have hmembers {archive : List UInt8} {members : List Member}
      (h : present archive = .ok members) : imageBy present archive = tapeAmong members := by
    rw [imageBy, h]
    rfl
  refine ⟨rfl, fun archive error herror => ?_, fun archive members harchive => ⟨?_, ?_⟩, rfl,
    fun _ => rfl⟩
  · rw [imageBy, herror]
    rfl
  · intro hnone
    rw [hmembers harchive, tapeAmong_of_not_settles hnone]
  · intro index member hsettled
    have houtcome : imageBy present archive = member.outcome := by
      rw [hmembers harchive, tapeAmong_of_settledAt hsettled]
    refine ⟨fun error herror => ?_, fun hok => ?_, fun other others hother hfaces hcontent => ?_⟩
    · rw [houtcome, Member.outcome_of_error herror]
    · rw [houtcome, Member.outcome_of_ok hok]
    · rw [hmembers hother, hmembers harchive, hsettled.tapeAmong_eq hfaces hcontent]

theorem membersOf_of_entriesOf {archive : List UInt8} {entries : List Entry}
    (h : Directory.entriesOf archive = .ok entries) :
    membersOf archive = .ok (entries.map fun entry => entry.member archive) := by
  rw [membersOf, h]
  rfl

/-- Behind a text stands a tape, and behind that another one.  The text and the second tape
may be damaged; but if the text is locked, or if it stands alone, no tape is found. -/
theorem image_of_presented_of_damaged_archives :
    let text : StoredFile := ⟨[0x61], [1, 2]⟩
    let tape : StoredFile := ⟨[0x61, 0x2e, 0x4b, 0x37], [3]⟩
    let other : StoredFile := ⟨[0x2e, 0x6b, 0x37], [4]⟩
    let archive := StoredFile.archive [text, tape, other]
    -- Damage is done to the content of the text and to the header of the second tape.
    let damaged := (archive.set 31 9).set 68 0
    let locked := archive.set 110 1
    image archive = ⟨[.unzipping "a.K7"], .ok [3]⟩ ∧
      image damaged = image archive ∧
      image locked = ⟨[], .error .passwordRequired⟩ ∧
      image (StoredFile.archive [text]) = ⟨[], .error .noTape⟩ ∧
      image [] = ⟨[], .error .noEndRecord⟩ := by
  intro text tape other archive damaged locked
  let lockedText := { text.entry 0 with encrypted := true }
  let entries := StoredFile.entries 0 [text, tape, other]
  have hplain : Directory.entriesOf archive = .ok entries := by decide +kernel
  have hdamaged : Directory.entriesOf damaged = .ok entries := by decide +kernel
  have hlocked : Directory.entriesOf locked = .ok (lockedText :: entries.tail) := by
    decide +kernel
  have htext : Directory.entriesOf (StoredFile.archive [text]) = .ok [text.entry 0] := by
    decide +kernel
  have htape : SettledAt (entries.map fun entry => entry.member archive) 1
      ((tape.entry 33).member archive) :=
    ⟨rfl, by decide +kernel, by decide +kernel⟩
  have hlock : SettledAt ((lockedText :: entries.tail).map fun entry => entry.member locked) 0
      (lockedText.member locked) :=
    ⟨rfl, by decide +kernel, nofun⟩
  obtain ⟨himage, hrejected, hpresented, -, -⟩ := image_of_presented membersOf
  rw [himage] at hrejected hpresented
  obtain ⟨-, hfound⟩ := hpresented archive _ (membersOf_of_entriesOf hplain)
  obtain ⟨-, hopens, hsame⟩ := hfound 1 _ htape
  obtain ⟨-, hfirst⟩ := hpresented locked _ (membersOf_of_entriesOf hlocked)
  obtain ⟨hfails, -, -⟩ := hfirst 0 _ hlock
  obtain ⟨hnone, -⟩ := hpresented _ _ (membersOf_of_entriesOf htext)
  have hcontent : ((tape.entry 33).member archive).content.get = .ok [3] := by
    decide +kernel
  refine ⟨?_, ?_, ?_, ?_, ?_⟩
  · rw [hopens (by decide +kernel), hcontent]
    rfl
  · exact hsame damaged _ (membersOf_of_entriesOf hdamaged) (by decide +kernel)
      (by decide +kernel)
  · exact hfails .passwordRequired (by decide +kernel)
  · exact hnone (by decide +kernel)
  · exact hrejected [] .noEndRecord rfl

end Cassette.Archive
