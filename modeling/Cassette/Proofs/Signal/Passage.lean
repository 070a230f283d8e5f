import Cassette.Signal.Reader

/-!
# What a reader takes off the train

A step of a reader that succeeds has taken whole impulses, and its answer alone
says which ones.  Every step but the leading silence is described here in this
way, in both directions: it succeeds with an answer exactly if the impulses of
that answer stand at the front of the train.

Nothing is said about the steps that fail; where and how they do is the subject
of `Cassette.Proofs.Signal.Orderly`.
-/

namespace Cassette.Signal

/-- Bytes one after the other, each closed by its marker. -/
def Impulse.frames (bytes : List UInt8) : List Impulse :=
  bytes.flatMap Impulse.frame

@[simp]
theorem Impulse.frames_nil : Impulse.frames [] = [] := rfl

@[simp]
theorem Impulse.frames_cons (byte : UInt8) (bytes : List UInt8) :
    Impulse.frames (byte :: bytes) = Impulse.frame byte ++ Impulse.frames bytes := rfl

/-- A synchronization run and the marker that closes it. -/
def Impulse.synchronization (count : Nat) : List Impulse :=
  List.replicate count .short ++ Impulse.endOfByte

/-- The last four short impulses of a closed run belong to its marker. -/
theorem Impulse.synchronization_eq (count : Nat) :
    Impulse.synchronization count = List.replicate (count + 4) .short ++ [.long] := by
  rw [Impulse.synchronization, ← List.replicate_append_replicate, List.append_assoc]
  rfl

namespace Reader

/-- The given impulses stand at the front of the train, and `after` is the
reader once they were taken. -/
def Passes (reader : Reader) (impulses : List Impulse) (after : Reader) : Prop :=
  reader.rest = Impulse.train impulses ++ after.rest ∧
    after.position = reader.position + 2 * impulses.length

theorem passes_train (position : Nat) (impulses : List Impulse) (tail : List UInt16) :
    Passes ⟨position, Impulse.train impulses ++ tail⟩ impulses
      ⟨position + 2 * impulses.length, tail⟩ :=
  ⟨rfl, rfl⟩

@[simp]
theorem passes_nil {reader after : Reader} : reader.Passes [] after ↔ after = reader := by
  obtain ⟨position, rest⟩ := reader
  obtain ⟨position', rest'⟩ := after
  simp only [Passes, Impulse.train_nil, List.nil_append, List.length_nil, Reader.mk.injEq]
  constructor
  · rintro ⟨h₁, h₂⟩
    exact ⟨h₂, h₁.symm⟩
  · rintro ⟨h₁, h₂⟩
    exact ⟨h₂.symm, h₁⟩

/-- Impulses are taken one part after the other. -/
theorem passes_append {reader after : Reader} {front back : List Impulse} :
    reader.Passes (front ++ back) after ↔
      ∃ between, reader.Passes front between ∧ between.Passes back after := by
  constructor
  · rintro ⟨hrest, hposition⟩
    -- The reader in between stands where the train of `front` ends.
    refine ⟨⟨reader.position + 2 * front.length, Impulse.train back ++ after.rest⟩,
      ⟨?_, rfl⟩, ⟨rfl, ?_⟩⟩
    · rw [hrest, Impulse.train_append, List.append_assoc]
    · rw [hposition, List.length_append]
      show _ = reader.position + 2 * front.length + 2 * back.length
      omega
  · rintro ⟨between, ⟨hrest, hposition⟩, ⟨hrest', hposition'⟩⟩
    constructor
    · rw [hrest, hrest', Impulse.train_append, List.append_assoc]
    · rw [hposition', hposition, List.length_append]
      omega

theorem passes_cons {reader after : Reader} {first : Impulse} {rest : List Impulse} :
    reader.Passes (first :: rest) after ↔
      ∃ between, reader.Passes [first] between ∧ between.Passes rest after := by
  rw [← List.singleton_append, passes_append]

end Reader

namespace Reads

open Reader

variable {reader after : Reader}

theorem impulse_eq_ok_iff_passes {ahead : Impulse} :
    impulse reader = .ok ahead after ↔ reader.Passes [ahead] after :=
  impulse_eq_ok_iff

/-- A bit is read where its impulses stand. -/
theorem bit_eq_ok_iff {value : Bool} :
    bit reader = .ok value after ↔ reader.Passes (Impulse.ofBit value) after := by
  constructor
  · intro h
    obtain ⟨first, between, h₁, h₂⟩ := bind_eq_ok_iff.1 h
    have hfirst := impulse_eq_ok_iff_passes.1 h₁
    cases first with
    | long =>
        cases h₂
        exact hfirst
    | short =>
        -- A short impulse is half of a bit 1, so the other half was read as well.
        obtain ⟨second, last, h₃, h₄⟩ := bind_eq_ok_iff.1 h₂
        have hsecond := impulse_eq_ok_iff_passes.1 h₃
        cases second with
        | long => cases h₄
        | short =>
            cases h₄
            exact passes_cons.2 ⟨between, hfirst, hsecond⟩
  · intro h
    cases value with
    | false => exact bind_eq_ok_iff.2 ⟨.long, after, impulse_eq_ok_iff_passes.2 h, rfl⟩
    | true =>
        obtain ⟨between, hfirst, hsecond⟩ := passes_cons.1 h
        refine bind_eq_ok_iff.2 ⟨.short, between, impulse_eq_ok_iff_passes.2 hfirst, ?_⟩
        exact bind_eq_ok_iff.2 ⟨.short, after, impulse_eq_ok_iff_passes.2 hsecond, rfl⟩

/-- A step made the given number of times. -/
def repeated {α : Type} (step : Reads α) : Nat → Reads (List α)
  | 0 => pure []
  | count + 1 => do
      let first ← step
      let rest ← repeated step count
      pure (first :: rest)

theorem bits_eq_repeated (count : Nat) : bits count = repeated bit count := by
  induction count with
  | zero => rfl
  | succ count ih => simp only [bits, repeated, ih]

theorem framedBytes_eq_repeated (count : Nat) :
    framedBytes count = repeated framedByte count := by
  induction count with
  | zero => rfl
  | succ count ih => simp only [framedBytes, repeated, ih]

/-- What a step takes for one answer, its repetition takes for a list of them. -/
theorem repeated_eq_ok_iff {α : Type} {step : Reads α} {spelling : α → List Impulse}
    (hstep : ∀ {reader after : Reader} {value : α},
      step reader = .ok value after ↔ reader.Passes (spelling value) after)
    {count : Nat} {values : List α} :
    repeated step count reader = .ok values after ↔
      values.length = count ∧ reader.Passes (values.flatMap spelling) after := by
  induction count generalizing reader values with
  | zero =>
      constructor
      · intro h
        cases h
        exact ⟨rfl, passes_nil.2 rfl⟩
      · rintro ⟨hlength, h⟩
        obtain rfl := List.eq_nil_of_length_eq_zero hlength
        obtain rfl := passes_nil.1 h
        rfl
  | succ count ih =>
      constructor
      · intro h
        obtain ⟨first, between, h₁, h₂⟩ := bind_eq_ok_iff.1 h
        obtain ⟨rest, last, h₃, h₄⟩ := bind_eq_ok_iff.1 h₂
        cases h₄
        obtain ⟨hlength, hrest⟩ := ih.1 h₃
        exact ⟨by rw [List.length_cons, hlength],
          passes_append.2 ⟨between, hstep.1 h₁, hrest⟩⟩
      · rintro ⟨hlength, h⟩
        cases values with
        | nil => cases hlength
        | cons first rest =>
            obtain ⟨between, hfirst, hrest⟩ := passes_append.1 h
            refine bind_eq_ok_iff.2 ⟨first, between, hstep.2 hfirst, ?_⟩
            refine bind_eq_ok_iff.2 ⟨rest, after, ih.2 ⟨?_, hrest⟩, rfl⟩
            exact Nat.succ.inj hlength

theorem bits_eq_ok_iff {count : Nat} {values : List Bool} :
    bits count reader = .ok values after ↔
      values.length = count ∧ reader.Passes (values.flatMap Impulse.ofBit) after := by
  rw [bits_eq_repeated]
  exact repeated_eq_ok_iff bit_eq_ok_iff

theorem byte_eq_ok_iff {value : UInt8} :
    byte reader = .ok value after ↔ reader.Passes (Impulse.ofByte value) after := by
  constructor
  · intro h
    obtain ⟨digits, between, h₁, h₂⟩ := bind_eq_ok_iff.1 h
    cases h₂
    obtain ⟨hlength, hpasses⟩ := bits_eq_ok_iff.1 h₁
    rw [Impulse.ofByte, Bits.ofByte_toByte hlength]
    exact hpasses
  · intro h
    refine bind_eq_ok_iff.2 ⟨Bits.ofByte value, after, ?_, ?_⟩
    · exact bits_eq_ok_iff.2 ⟨Bits.length_ofByte value, h⟩
    · rw [Bits.toByte_ofByte]
      rfl

theorem marker_eq_ok_iff {expected : List Impulse} :
    marker expected reader = .ok () after ↔ reader.Passes expected after := by
  induction expected generalizing reader with
  | nil =>
      rw [passes_nil]
      constructor
      · intro h
        cases h
        rfl
      · rintro rfl
        rfl
  | cons first rest ih =>
      rw [passes_cons]
      constructor
      · intro h
        obtain ⟨found, between, h₁, h₂⟩ := bind_eq_ok_iff.1 h
        split at h₂
        · next hfound =>
            subst hfound
            exact ⟨between, impulse_eq_ok_iff_passes.1 h₁, ih.1 h₂⟩
        · cases h₂
      · rintro ⟨between, hfirst, hrest⟩
        refine bind_eq_ok_iff.2 ⟨first, between, impulse_eq_ok_iff_passes.2 hfirst, ?_⟩
        rw [if_pos rfl]
        exact ih.2 hrest

theorem endOfByte_eq_ok_iff :
    endOfByte reader = .ok () after ↔ reader.Passes Impulse.endOfByte after :=
  marker_eq_ok_iff

/-- A framed byte is read where its frame stands. -/
theorem framedByte_eq_ok_iff {value : UInt8} :
    framedByte reader = .ok value after ↔ reader.Passes (Impulse.frame value) after := by
  rw [Impulse.frame, passes_append]
  constructor
  · intro h
    obtain ⟨read, between, h₁, h₂⟩ := bind_eq_ok_iff.1 h
    obtain ⟨_, last, h₃, h₄⟩ := bind_eq_ok_iff.1 h₂
    cases h₄
    exact ⟨between, byte_eq_ok_iff.1 h₁, endOfByte_eq_ok_iff.1 h₃⟩
  · rintro ⟨between, hbyte, hmarker⟩
    refine bind_eq_ok_iff.2 ⟨value, between, byte_eq_ok_iff.2 hbyte, ?_⟩
    exact bind_eq_ok_iff.2 ⟨(), after, endOfByte_eq_ok_iff.2 hmarker, rfl⟩

theorem framedBytes_eq_ok_iff {count : Nat} {values : List UInt8} :
    framedBytes count reader = .ok values after ↔
      values.length = count ∧ reader.Passes (Impulse.frames values) after := by
  rw [framedBytes_eq_repeated]
  exact repeated_eq_ok_iff framedByte_eq_ok_iff

/-! ## Synchronization runs -/

/-- One turn of the loop, without the bookkeeping of its termination. -/
theorem shortRun_eq (shorts : Nat) (reader : Reader) :
    shortRun shorts reader =
      match impulse reader with
      | .ok .short after => shortRun (shorts + 1) after
      | .ok .long after => .ok shorts after
      | .error error after => .error error after := by
  rw [shortRun]
  split
  · next h => rw [h]
  · next h => rw [h]
  · next h => rw [h]

theorem shortRun_of_error {shorts : Nat} {error : TapeError}
    (h : impulse reader = .error error after) :
    shortRun shorts reader = .error error after := by
  rw [shortRun_eq, h]

/-- Short impulses are counted and passed over. -/
theorem shortRun_of_passes {shorts run : Nat}
    (h : reader.Passes (List.replicate run .short) after) :
    shortRun shorts reader = shortRun (shorts + run) after := by
  induction run generalizing reader shorts with
  | zero =>
      obtain rfl := passes_nil.1 h
      rfl
  | succ run ih =>
      obtain ⟨between, hfirst, hrest⟩ := passes_cons.1 h
      rw [shortRun_eq, impulse_eq_ok_iff_passes.2 hfirst]
      show shortRun (shorts + 1) between = _
      rw [ih hrest]
      congr 1
      omega

theorem shortRun_eq_ok_iff {shorts total : Nat} :
    shortRun shorts reader = .ok total after ↔
      ∃ run, total = shorts + run ∧
        reader.Passes (List.replicate run .short ++ [.long]) after := by
  constructor
  · intro h
    fun_induction shortRun shorts reader with
    | case1 shorts reader between hshort ih =>
        obtain ⟨run, htotal, hpasses⟩ := ih h
        refine ⟨run + 1, by omega, ?_⟩
        exact passes_cons.2 ⟨between, impulse_eq_ok_iff_passes.1 hshort, hpasses⟩
    | case2 shorts reader between hlong =>
        cases h
        exact ⟨0, rfl, impulse_eq_ok_iff_passes.1 hlong⟩
    | case3 shorts reader error between herror => cases h
  · rintro ⟨run, rfl, h⟩
    obtain ⟨between, hrun, hlong⟩ := passes_append.1 h
    rw [shortRun_of_passes hrun, shortRun_eq, impulse_eq_ok_iff_passes.2 hlong]

/-- A synchronization is read where its short impulses and its marker stand. -/
theorem sync_eq_ok_iff {count : Nat} :
    sync reader = .ok count after ↔ reader.Passes (Impulse.synchronization count) after := by
  rw [Impulse.synchronization_eq]
  constructor
  · intro h
    obtain ⟨shorts, between, h₁, h₂⟩ := bind_eq_ok_iff.1 h
    obtain ⟨run, hrun, hpasses⟩ := shortRun_eq_ok_iff.1 h₁
    -- The answer leaves out four of the impulses that were counted.
    split at h₂
    · cases h₂
    · next hfour =>
        cases h₂
        obtain rfl : run = shorts - 4 + 4 := by omega
        exact hpasses
  · intro h
    refine bind_eq_ok_iff.2 ⟨count + 4, after, ?_, ?_⟩
    · exact shortRun_eq_ok_iff.2 ⟨count + 4, by omega, h⟩
    · rw [if_neg (by omega)]
      rfl

/-! ## Framed bytes up to the end -/

theorem framedBytesToEnd_eq (read : List UInt8) (reader : Reader) :
    framedBytesToEnd read reader =
      if reader.atEnd then .ok read.reverse reader
      else
        match framedByte reader with
        | .ok value after => framedBytesToEnd (value :: read) after
        | .error error after => .error error after := by
  rw [framedBytesToEnd]
  split
  · rfl
  · split
    · next h => rw [h]
    · next h => rw [h]

theorem framedBytesToEnd_of_end {read : List UInt8} (hend : reader.rest = []) :
    framedBytesToEnd read reader = .ok read.reverse reader := by
  rw [framedBytesToEnd_eq, atEnd, hend]
  rfl

theorem framedBytesToEnd_of_error {read : List UInt8} {error : TapeError}
    (hend : reader.rest ≠ []) (h : framedByte reader = .error error after) :
    framedBytesToEnd read reader = .error error after := by
  rw [framedBytesToEnd_eq, atEnd, List.isEmpty_eq_false_iff.2 hend, h]
  rfl

theorem framedBytesToEnd_of_ok {read : List UInt8} {value : UInt8}
    (h : framedByte reader = .ok value after) :
    framedBytesToEnd read reader = framedBytesToEnd (value :: read) after := by
  have hlength := length_rest_of_framedByte h
  have hend : reader.rest ≠ [] := List.length_pos_iff.1 (by omega)
  rw [framedBytesToEnd_eq, atEnd, List.isEmpty_eq_false_iff.2 hend, h]
  rfl

/-- Frames are read and passed over. -/
theorem framedBytesToEnd_of_passes {read bytes : List UInt8}
    (h : reader.Passes (Impulse.frames bytes) after) :
    framedBytesToEnd read reader = framedBytesToEnd (bytes.reverse ++ read) after := by
  induction bytes generalizing reader read with
  | nil =>
      obtain rfl := passes_nil.1 h
      rfl
  | cons byte bytes ih =>
      obtain ⟨between, hfirst, hrest⟩ := passes_append.1 h
      rw [framedBytesToEnd_of_ok (framedByte_eq_ok_iff.2 hfirst), ih hrest,
        List.reverse_cons, List.append_assoc]
      rfl

/-- The data is read if the rest of the train consists of frames. -/
theorem framedBytesToEnd_eq_ok_iff {read bytes : List UInt8} :
    framedBytesToEnd read reader = .ok bytes after ↔
      ∃ data, bytes = read.reverse ++ data ∧
        reader.Passes (Impulse.frames data) after ∧ after.rest = [] := by
  constructor
  · intro h
    fun_induction framedBytesToEnd read reader with
    | case1 read reader hend =>
        cases h
        exact ⟨[], by rw [List.append_nil], passes_nil.2 rfl, List.isEmpty_iff.1 hend⟩
    | case2 read reader hend value between hvalue ih =>
        obtain ⟨data, rfl, hpasses, hafter⟩ := ih h
        refine ⟨value :: data, ?_, passes_append.2 ⟨between, ?_, hpasses⟩, hafter⟩
        · rw [List.reverse_cons, List.append_assoc]
          rfl
        · exact framedByte_eq_ok_iff.1 hvalue
    | case3 read reader hend error between herror => cases h
  · rintro ⟨data, rfl, hpasses, hafter⟩
    rw [framedBytesToEnd_of_passes hpasses, framedBytesToEnd_of_end hafter,
      List.reverse_append, List.reverse_reverse]

end Reads

end Cassette.Signal
