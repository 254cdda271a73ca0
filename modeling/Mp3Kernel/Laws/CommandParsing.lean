import Mp3Kernel.Kernel.ArrayAccess
import Mp3Kernel.Laws.Arguments

/-!
# The array bounds of `execute`

The scanning loops store each part of a command one character after the other and its
terminator behind it (`scanCommand_program`, `scanCommand_argument`), and test nothing but the
characters: a part of 255 characters or more runs past the end of its array. The copy into
`execute_arg` tests its index, and stays inside whatever was scanned.
-/

namespace Mp3Kernel

/-! ## The loops -/

/-- The first loop stores the program's characters. -/
theorem Scan.readProgram_eq (rest : List UInt8) (s : Scan) :
    readProgram rest s =
      ({ s with
          program := Traced.fill (scanProgram rest).1 s.i s.program
          i := s.i + (scanProgram rest).1.length },
        (scanProgram rest).2) := by
  induction rest generalizing s with
  | nil => rfl
  | cons c rest ih =>
    unfold readProgram scanProgram
    split
    next => rfl
    next =>
      rw [ih]
      simp only [Traced.fill, List.length_cons, Nat.add_assoc, Nat.add_comm 1]

/-- The second loop stores nothing. -/
theorem Scan.skipSpaces_eq (rest : List UInt8) (s : Scan) :
    ∃ i, skipSpaces rest s = ({ s with i := i }, Mp3Kernel.skipSpaces rest) := by
  induction rest generalizing s with
  | nil => exact ⟨s.i, rfl⟩
  | cons c rest ih =>
    unfold skipSpaces Mp3Kernel.skipSpaces
    split
    next => exact ih { s with i := s.i + 1 }
    next => exact ⟨s.i, rfl⟩

/-- The third loop stores the argument's characters. -/
theorem Scan.readArgument_eq (rest : List UInt8) (s : Scan) :
    readArgument rest s =
      { s with
        argument := Traced.fill (scanArgument rest) s.j s.argument
        j := s.j + (scanArgument rest).length
        i := s.i + (scanArgument rest).length } := by
  induction rest generalizing s with
  | nil => rfl
  | cons c rest ih =>
    unfold readArgument scanArgument
    split
    next => rfl
    next =>
      rw [ih]
      simp only [Traced.fill, List.length_cons, Nat.add_assoc, Nat.add_comm 1]

section Scan

variable (command : List UInt8) (program argument : Buf)

/-- Each part is stored as a string, and `j` is the argument's length. -/
theorem scanCommand_eq :
    (scanCommand command program argument).program =
        Traced.fillString 0 (parseCommand command).1 (.start program) ∧
      (scanCommand command program argument).argument =
        Traced.fillString 0 (parseCommand command).2 (.start argument) ∧
      (scanCommand command program argument).j = (parseCommand command).2.length := by
  obtain ⟨i, hskip⟩ := Scan.skipSpaces_eq (scanProgram command).2
    { i := 0 + (scanProgram command).1.length
      j := 0
      program := Traced.fillString 0 (scanProgram command).1 (.start program)
      argument := .start argument }
  unfold scanCommand
  dsimp only
  rw [Scan.readProgram_eq]
  dsimp only
  rw [Nat.zero_add] at hskip ⊢
  unfold Traced.fillString at hskip
  rw [hskip, Scan.readArgument_eq]
  dsimp only
  rw [Nat.zero_add]
  exact ⟨rfl, rfl, rfl⟩

theorem scanCommand_stores :
    (scanCommand command program argument).program.stores =
        List.range ((parseCommand command).1.length + 1) ∧
      (scanCommand command program argument).argument.stores =
        List.range ((parseCommand command).2.length + 1) := by
  obtain ⟨hprogram, hargument, -⟩ := scanCommand_eq command program argument
  rw [hprogram, hargument]
  exact ⟨Traced.fillString_stores 0 _ program, Traced.fillString_stores 0 _ argument⟩

end Scan

/-! ## The parts of a command -/

theorem scanProgram_programByte (command : List UInt8) :
    ∀ c ∈ (scanProgram command).1, ProgramByte c := by
  induction command with
  | nil => exact fun c hc => absurd hc List.not_mem_nil
  | cons d command ih =>
    unfold scanProgram
    split
    next => exact fun c hc => absurd hc List.not_mem_nil
    next hd =>
      rw [not_or, not_or] at hd
      intro c hc
      rcases List.mem_cons.mp hc with rfl | hc
      · exact hd
      · exact ih c hc

theorem scanArgument_argumentByte (command : List UInt8) :
    ∀ c ∈ scanArgument command, ArgumentByte c := by
  induction command with
  | nil => exact fun c hc => absurd hc List.not_mem_nil
  | cons d command ih =>
    unfold scanArgument
    split
    next => exact fun c hc => absurd hc List.not_mem_nil
    next hd =>
      rw [not_or] at hd
      intro c hc
      rcases List.mem_cons.mp hc with rfl | hc
      · exact hd.symm
      · exact ih c hc

theorem parseCommand_program (command : List UInt8) :
    0 ∉ (parseCommand command).1 ∧ newline ∉ (parseCommand command).1 :=
  ⟨fun h => (scanProgram_programByte command 0 h).2.2 rfl,
    fun h => (scanProgram_programByte command newline h).2.1 rfl⟩

theorem parseCommand_argument (command : List UInt8) : 0 ∉ (parseCommand command).2 :=
  fun h => (scanArgument_argumentByte _ 0 h).2 rfl

/-! ## The copying loop -/

section CopyLoop

variable {source : Buf} {reads : Nat → Bool}

theorem copyLoop_stores (n i : Nat) (t : ArgCopy) :
    (copyLoop source reads n i t).out.stores = t.out.stores ++ List.range' i n := by
  induction n generalizing i t with
  | zero => exact (List.append_nil _).symm
  | succ n ih =>
    have hone : (if reads i then t.move source i else t.pad i).out.stores = t.out.stores ++ [i] := by
      split <;> rfl
    rw [copyLoop, ih, hone, List.range'_succ, List.append_assoc, List.singleton_append]

/-- It loads at the turns that pass the test. -/
theorem copyLoop_loads (n i : Nat) (t : ArgCopy) :
    (copyLoop source reads n i t).loads = t.loads ++ (List.range' i n).filter reads := by
  induction n generalizing i t with
  | zero => exact (List.append_nil _).symm
  | succ n ih =>
    rw [copyLoop, ih, List.range'_succ, List.filter_cons]
    split
    · rw [ArgCopy.move, List.append_assoc, List.singleton_append]
    · rfl

theorem copyLoop_cells (n i : Nat) (t : ArgCopy) (x : Nat) :
    (copyLoop source reads n i t).out.cells x =
      if i ≤ x ∧ x < i + n then if reads x then source x else 0 else t.out.cells x := by
  induction n generalizing i t with
  | zero => rw [copyLoop, if_neg (by omega)]
  | succ n ih =>
    have hone : (if reads i then t.move source i else t.pad i).out.cells =
        Function.update t.out.cells i (if reads i then source i else 0) := by
      split <;> rfl
    rw [copyLoop, ih, hone]
    by_cases hx : x = i
    · subst hx
      have hpast : ¬ (x + 1 ≤ x ∧ x < x + 1 + n) := by omega
      have hhere : x ≤ x ∧ x < x + (n + 1) := by omega
      rw [if_neg hpast, if_pos hhere, Function.update_self]
    · rw [Function.update_of_ne hx]
      refine if_congr ?_ rfl rfl
      omega

end CopyLoop

/-! ## The bounds -/

section Bounds

variable (command : List UInt8) (program argument executeArg : Buf) (k : Kernel)

/-- The scan and the copy are those of the handler's model: the arrays hold the parts, and
`execute_arg` the argument padded with zeros. -/
theorem scanCommand_refines :
    let s := scanCommand command program argument
    Field.Holds 0 s.program.cells (parseCommand command).1 ∧
      Field.Holds 0 s.argument.cells (parseCommand command).2 ∧
      (s.storeArgument executeArg).out.cells = fun i =>
        if i < 255 then
          if i ≤ (parseCommand command).2.length then cstr (parseCommand command).2 i else 0
        else executeArg i := by
  intro s
  obtain ⟨hprogram, hargument, hj⟩ : s.program = _ ∧ s.argument = _ ∧ s.j = _ :=
    scanCommand_eq command program argument
  have hholds : Field.Holds 0 s.argument.cells (parseCommand command).2 := by
    rw [hargument]
    exact Traced.fillString_holds (parseCommand_argument command) _
  refine ⟨?_, hholds, ?_⟩
  · rw [hprogram]
    exact Traced.fillString_holds (parseCommand_program command).1 _
  · funext i
    rw [Scan.storeArgument, copyLoop_cells, hj]
    refine if_congr (by omega) ?_ rfl
    by_cases hi : i ≤ (parseCommand command).2.length
    · rw [if_pos (decide_eq_true hi), if_pos hi, hholds.chars i hi]
      rfl
    · rw [if_neg fun h => hi (of_decide_eq_true h), if_neg hi]

/-- Everything a call of `execute` touches of its three arrays lies in them. -/
def AccessesInBounds : Prop :=
  ∀ s, handlerScan (some command) program argument k = some s →
    ((∀ x ∈ s.program.stores, x < 255) ∧ ∀ x ∈ s.argument.stores, x < 255) ∧
      (∀ x ∈ (s.storeArgument executeArg).loads, x < 255) ∧
      ∀ x ∈ (s.storeArgument executeArg).out.stores, x < 255

theorem range_succ_bounded {n m : Nat} : (∀ x ∈ List.range (n + 1), x < m) ↔ n < m := by
  constructor
  · exact fun h => h n (List.mem_range.mpr (Nat.lt_succ_self n))
  · intro h x hx
    have := List.mem_range.mp hx
    omega

theorem scanCommand_bounded_iff :
    ((∀ x ∈ (scanCommand command program argument).program.stores, x < 255) ∧
        ∀ x ∈ (scanCommand command program argument).argument.stores, x < 255) ↔
      commandFits command := by
  obtain ⟨hprogram, hargument⟩ := scanCommand_stores command program argument
  rw [hprogram, hargument]
  exact and_congr (range_succ_bounded.trans Nat.lt_succ_iff)
    (range_succ_bounded.trans Nat.lt_succ_iff)

/-- The copy into `execute_arg` has its own test. -/
theorem Scan.storeArgument_bounded (s : Scan) :
    (∀ x ∈ (s.storeArgument executeArg).loads, x < 255) ∧
      ∀ x ∈ (s.storeArgument executeArg).out.stores, x < 255 := by
  unfold Scan.storeArgument
  rw [copyLoop_loads, copyLoop_stores]
  refine ⟨fun x hx => ?_, fun x hx => ?_⟩
  · have := List.mem_range'_1.mp (List.mem_of_mem_filter hx)
    omega
  · have := List.mem_range'_1.mp hx
    omega

/-- `execute` keeps to its arrays just when it is refused a pid before it scans, or both parts
of the command have at most 254 characters. -/
theorem executeHandler_inBounds_iff :
    AccessesInBounds command program argument executeArg k ↔
      findPid k.proc.idArray maximumProcess 0 = none ∨ commandFits command := by
  unfold AccessesInBounds handlerScan
  dsimp only
  cases hpid : findPid k.proc.idArray maximumProcess 0 with
  | none => exact iff_of_true nofun (.inl rfl)
  | some pid =>
    constructor
    · intro h
      exact .inr ((scanCommand_bounded_iff command program argument).mp (h _ rfl).1)
    · rintro h s hs
      obtain rfl := Option.some.inj hs
      have hfits := h.resolve_left nofun
      exact ⟨(scanCommand_bounded_iff command program argument).mpr hfits,
        Scan.storeArgument_bounded executeArg _⟩

end Bounds

/-- A program's name of 255 characters: its terminator is stored past the end. -/
theorem executeHandler_overruns :
    ¬ AccessesInBounds (List.replicate 255 0x61) (fun _ => 0) (fun _ => 0) (fun _ => 0)
      coldBoot := by
  intro h
  have hfits := (scanCommand_bounded_iff _ _ _).mp (h _ rfl).1
  exact absurd hfits (by decide +kernel)

end Mp3Kernel
