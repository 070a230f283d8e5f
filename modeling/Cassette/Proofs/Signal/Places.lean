import Cassette.Signal.Impulse

/-!
# The values of a train, counted

Each impulse stands for two values of a train.  This is how a place among the
values belongs to an impulse, and what becomes of the train if it is cut at a
place or if a value there is replaced.
-/

namespace Cassette.Signal.Impulse

/-- Every half-period is one of the two of some impulse. -/
theorem exists_impulse {impulses : List Impulse} {place : Nat}
    (h : place < (train impulses).length) :
    ∃ heard kind more half, impulses = heard ++ kind :: more ∧ half < 2 ∧
      place = 2 * heard.length + half := by
  rw [length_train] at h
  have hwhole : place / 2 < impulses.length := by omega
  refine ⟨impulses.take (place / 2), impulses[place / 2], impulses.drop (place / 2 + 1),
    place % 2, ?_, Nat.mod_lt place (by omega), ?_⟩
  · rw [← List.drop_eq_getElem_cons, List.take_append_drop]
  · rw [List.length_take]
    omega

section

variable {heard more : List Impulse} {kind : Impulse} {half : Nat}

theorem getElem?_train (hhalf : half < 2) :
    (train (heard ++ kind :: more))[2 * heard.length + half]? = some kind.halfPeriod := by
  rw [train_append, ← length_train, List.getElem?_append_right (by omega),
    Nat.add_sub_cancel_left, train_cons]
  obtain rfl | rfl : half = 0 ∨ half = 1 := by omega
  · rfl
  · rfl

theorem set_train (hhalf : half < 2) (value : UInt16) :
    (train (heard ++ kind :: more)).set (2 * heard.length + half) value =
      train heard ++ ([kind.halfPeriod, kind.halfPeriod].set half value ++ train more) := by
  rw [train_append, ← length_train, List.set_append_right _ _ (by omega),
    Nat.add_sub_cancel_left, train_cons]
  obtain rfl | rfl : half = 0 ∨ half = 1 := by omega
  · rfl
  · rfl

end

/-- Whole impulses and at most one value more are left of impulses that break
off. -/
theorem take_train {impulses : List Impulse} {whole : Nat} (h : whole ≤ impulses.length)
    (half : Nat) :
    (train impulses).take (2 * whole + half) =
      train (impulses.take whole) ++ (train (impulses.drop whole)).take half := by
  have hlength : 2 * whole = (train (impulses.take whole)).length := by
    rw [length_train, List.length_take, Nat.min_eq_left h]
  have hsplit : train impulses = train (impulses.take whole) ++ train (impulses.drop whole) := by
    rw [← train_append, List.take_append_drop]
  rw [hlength, hsplit, List.take_length_add_append]

/-- A half-period forms an impulse only with another one of its kind. -/
theorem ofPair?_eq_none {kind : Impulse} {value : UInt16} (h : value ≠ kind.halfPeriod) :
    ofPair? value kind.halfPeriod = none ∧ ofPair? kind.halfPeriod value = none := by
  constructor
  · refine Option.eq_none_iff_forall_ne_some.2 fun found hfound => ?_
    obtain ⟨hvalue, hkind⟩ := ofPair?_eq_some_iff.1 hfound
    exact h (hvalue.trans hkind.symm)
  · refine Option.eq_none_iff_forall_ne_some.2 fun found hfound => ?_
    obtain ⟨hkind, hvalue⟩ := ofPair?_eq_some_iff.1 hfound
    exact h (hvalue.trans hkind.symm)

end Cassette.Signal.Impulse
