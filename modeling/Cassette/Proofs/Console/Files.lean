import Cassette.Console.Files

/-!
# Reading and writing files

Writing stores a file at the place that its path names, and whether that works does not
depend on what is written: `Files.storage` decides it alone (`Files.write_eq_ok_iff`).  It
changes no other file (`Files.get?_put`), and reading the path afterwards gives back what
was written (`Files.read_of_write`).

The last law is the only one with more than one step of a path in it.  It holds because
writing takes no directory away: what led somewhere before still leads there
(`Files.target_of_keeps`).
-/

namespace Cassette.Console.Files

variable {files : Files} {place other : Place} {content : List UInt8}

/-! ## Places -/

/-- The places at which there are files. -/
def places (files : Files) : List Place :=
  files.entries.map Prod.fst

theorem isSome_get?_iff : (files.get? place).isSome = true ↔ place ∈ files.places := by
  unfold get? places
  induction files.entries with
  | nil => simp
  | cons entry rest ih =>
    obtain ⟨found, bytes⟩ := entry
    rw [List.lookup_cons]
    by_cases h : place = found
    · simp [h]
    · simp [beq_false_of_ne h, h, ih]

theorem places_put (files : Files) (place : Place) (content : List UInt8) :
    (files.put place content).places =
      if place ∈ files.places then files.places else files.places ++ [place] := by
  unfold put
  by_cases h : place ∈ files.places
  · rw [if_pos (isSome_get?_iff.2 h), if_pos h]
    show List.map Prod.fst (List.map _ files.entries) = files.entries.map Prod.fst
    rw [List.map_map]
    refine List.map_congr_left fun entry _ => ?_
    show (if entry.1 = place then (place, content) else entry).1 = entry.1
    split
    · next heq => exact heq.symm
    · rfl
  · rw [if_neg fun hsome => h (isSome_get?_iff.1 hsome), if_neg h]
    exact List.map_append

theorem mem_places_put :
    other ∈ (files.put place content).places ↔ other ∈ files.places ∨ other = place := by
  rw [places_put]
  by_cases h : place ∈ files.places
  · rw [if_pos h]
    refine ⟨.inl, ?_⟩
    rintro (hmem | rfl)
    · exact hmem
    · exact h
  · rw [if_neg h, List.mem_append, List.mem_singleton]

theorem isDirectory_iff :
    files.isDirectory place = true ↔
      place = [] ∨ ∃ other ∈ files.places, place <+: other ∧ other ≠ place := by
  simp [isDirectory, places]

theorem isDirectory_put_iff :
    (files.put place content).isDirectory other = true ↔
      files.isDirectory other = true ∨ other <+: place ∧ place ≠ other := by
  simp only [isDirectory_iff, mem_places_put]
  constructor
  · rintro (hroot | ⟨below, hmem | rfl, hbelow⟩)
    · exact .inl (.inl hroot)
    · exact .inl (.inr ⟨below, hmem, hbelow⟩)
    · exact .inr hbelow
  · rintro ((hroot | ⟨below, hmem, hbelow⟩) | hbelow)
    · exact .inl hroot
    · exact .inr ⟨below, .inl hmem, hbelow⟩
    · exact .inr ⟨place, .inr rfl, hbelow⟩

/-- Writing takes no directory away. -/
theorem isDirectory_put (h : files.isDirectory other = true) :
    (files.put place content).isDirectory other = true :=
  isDirectory_put_iff.2 (.inl h)

/-- A file that is written is no directory. -/
theorem isDirectory_put_self :
    (files.put place content).isDirectory place = files.isDirectory place := by
  rw [Bool.eq_iff_iff, isDirectory_put_iff]
  simp

/-! ## Contents -/

theorem lookup_replace (entries : List (Place × List UInt8)) :
    (entries.map fun entry => if entry.1 = place then (place, content) else entry).lookup other =
      if other = place then (entries.lookup place).map fun _ => content
      else entries.lookup other := by
  induction entries with
  | nil => simp
  | cons entry rest ih =>
    obtain ⟨first, bytes⟩ := entry
    rw [List.map_cons]
    by_cases hfirst : first = place
    · subst hfirst
      by_cases h : other = first
      · simp [h]
      · simp [List.lookup_cons, ih, h, beq_false_of_ne h]
    · by_cases h : other = place
      · subst h
        simp [List.lookup_cons, ih, hfirst, beq_false_of_ne (Ne.symm hfirst)]
      · simp [List.lookup_cons, ih, hfirst, h]

/-- Writing a file changes that file and no other. -/
theorem get?_put :
    (files.put place content).get? other =
      if other = place then some content else files.get? other := by
  unfold put
  by_cases hsome : (files.get? place).isSome
  · obtain ⟨found, hfound⟩ := Option.isSome_iff_exists.1 hsome
    rw [if_pos hsome]
    show List.lookup _ (List.map _ files.entries) = _
    rw [lookup_replace, show files.entries.lookup place = some found from hfound]
    rfl
  · have hnone : files.entries.lookup place = none := Option.not_isSome_iff_eq_none.1 hsome
    rw [if_neg hsome]
    show List.lookup _ (files.entries ++ _) = if _ then _ else files.entries.lookup other
    rw [List.lookup_append]
    by_cases h : other = place
    · simp [h, hnone]
    · simp [h, List.lookup_cons, beq_false_of_ne h]

/-! ## Paths -/

section Paths

variable {others : Files}
  (hkeeps : ∀ place, files.isDirectory place = true → others.isDirectory place = true)

include hkeeps

/-- A step along a path can still be taken when no directory was taken away. -/
theorem enter_of_keeps {position next : Position} {name : Name}
    (h : files.enter position name = .ok next) : others.enter position name = .ok next := by
  unfold enter at h ⊢
  split
  · next hhere => rwa [if_pos hhere] at h
  · next hhere =>
    rw [if_neg hhere] at h
    split
    · next hlong =>
      rw [if_pos hlong] at h
      cases h
    · next hlong =>
      rw [if_neg hlong] at h
      cases hup : decide (name = ['.', '.']) with
      | true =>
        rw [hup] at h
        cases position <;> exact h
      | false =>
        rw [hup] at h
        cases position with
        | outside => exact h
        | inside parent =>
          simp only at h ⊢
          by_cases hdirectory : files.isDirectory (parent ++ [name]) = true
          · rw [if_pos hdirectory] at h
            rw [if_pos (hkeeps _ hdirectory)]
            exact h
          · rw [if_neg hdirectory] at h
            split at h <;> cases h

theorem foldlM_enter_of_keeps {names : List Name} {position last : Position}
    (h : names.foldlM files.enter position = .ok last) :
    names.foldlM others.enter position = .ok last := by
  induction names generalizing position with
  | nil => exact h
  | cons name rest ih =>
    rw [List.foldlM_cons] at h ⊢
    cases hnext : files.enter position name with
    | error error =>
      rw [hnext] at h
      cases h
    | ok next =>
      rw [hnext] at h
      rw [enter_of_keeps hkeeps hnext]
      exact ih h

theorem target_of_keeps {path : String} {target : Target}
    (h : files.target path = .ok target) : others.target path = .ok target := by
  unfold Files.target at h ⊢
  split
  · next hlong =>
    rw [if_pos hlong] at h
    cases h
  · next hlong =>
    rw [if_neg hlong] at h
    dsimp only at h ⊢
    split
    · next hnone =>
      rw [hnone] at h
      exact h
    · next last hlast =>
      rw [hlast] at h
      dsimp only at h
      generalize (if List.isPrefixOf ['/'] path.toList = true then Position.outside
        else Position.inside []) = start at h ⊢
      cases hwalk : List.foldlM files.enter start
          ((Path.pieces '/' path.toList).filter (· ≠ [])).dropLast with
      | error error =>
        rw [hwalk] at h
        cases h
      | ok position =>
        rw [hwalk] at h
        rw [foldlM_enter_of_keeps hkeeps hwalk]
        exact h

end Paths

/-- The place that a path names, whether there is a file or not. -/
def place? (files : Files) (path : String) : Option Place :=
  match files.target path with
  | .ok (.entry (.inside parent) name) => some (parent ++ [name])
  | .ok (.entry .outside _) | .ok .directory | .error _ => none

/-- The place at which a path lets a file be stored, or why it does not. -/
def storage (files : Files) (path : String) : Except FileError Place := do
  match ← files.target path with
  | .directory => .error .isDirectory
  | .entry parent name =>
      if endsInSlash path then .error .isDirectory
      else if name.isTooLong then .error .nameTooLong
      else
        match parent with
        | .outside => .error .missing
        | .inside parent =>
            if files.isDirectory (parent ++ [name]) then .error .isDirectory
            else .ok (parent ++ [name])

theorem write_eq (files : Files) (path : String) (content : List UInt8) :
    files.write path content = (files.storage path).map (files.put · content) := by
  unfold write storage
  cases files.target path with
  | error error => rfl
  | ok target =>
    cases target with
    | directory => rfl
    | entry parent name =>
      simp only [bind, Except.bind]
      split
      · rfl
      · split
        · rfl
        · cases parent with
          | outside => rfl
          | inside parent =>
            simp only
            split <;> rfl

/-- Writing stores the content at the place that the path names. -/
theorem write_eq_ok_iff {path : String} {after : Files} :
    files.write path content = .ok after ↔
      ∃ place, files.storage path = .ok place ∧ files.put place content = after := by
  rw [write_eq]
  cases files.storage path with
  | error error => simp [Except.map]
  | ok place => simp [Except.map]

theorem write_eq_error_iff {path : String} {error : FileError} :
    files.write path content = .error error ↔ files.storage path = .error error := by
  rw [write_eq]
  cases files.storage path with
  | error found => simp [Except.map]
  | ok place => simp [Except.map]

/-- A path that lets a file be stored names its place in a directory, and there is no
directory in its way. -/
theorem target_of_storage {path : String} (h : files.storage path = .ok place) :
    ∃ parent name, files.target path = .ok (.entry (.inside parent) name) ∧
      endsInSlash path = false ∧ Name.isTooLong name = false ∧ place = parent ++ [name] ∧
      files.isDirectory place = false := by
  unfold storage at h
  cases htarget : files.target path with
  | error error =>
    rw [htarget] at h
    cases h
  | ok target =>
    rw [htarget] at h
    cases target with
    | directory => cases h
    | entry parent name =>
      simp only [bind, Except.bind] at h
      split at h
      · cases h
      · next hslash =>
        split at h
        · cases h
        · next hlong =>
          cases parent with
          | outside => cases h
          | inside parent =>
            simp only at h
            split at h
            · cases h
            · next hdirectory =>
              cases h
              exact ⟨parent, name, rfl, Bool.eq_false_iff.2 hslash, Bool.eq_false_iff.2 hlong,
                rfl, Bool.eq_false_iff.2 hdirectory⟩

theorem place?_of_storage {path : String} (h : files.storage path = .ok place) :
    files.place? path = some place := by
  obtain ⟨parent, name, htarget, -, -, rfl, -⟩ := target_of_storage h
  rw [place?, htarget]

/-- What was written is read back by the same path. -/
theorem read_of_write {path : String} {after : Files}
    (h : files.write path content = .ok after) : after.read path = .ok content := by
  obtain ⟨place, hstorage, rfl⟩ := write_eq_ok_iff.1 h
  obtain ⟨parent, name, htarget, hslash, hlong, rfl, hdirectory⟩ := target_of_storage hstorage
  have hkeeps : ∀ other, files.isDirectory other = true →
      (files.put (parent ++ [name]) content).isDirectory other = true :=
    fun _ => isDirectory_put
  rw [read, target_of_keeps hkeeps htarget]
  simp [bind, Except.bind, hslash, hlong, isDirectory_put_self, hdirectory, get?_put]

end Cassette.Console.Files
