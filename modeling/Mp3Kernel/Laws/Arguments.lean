import Mathlib.Data.List.GetD
import Mp3Kernel.Laws.Calls

/-!
# The argument a program was started with

`execute` cuts a command into a program and an argument and stores the argument in the PCB,
padded with zeros; `getargs` copies it out, as far as its caller asks and no further. In
between nothing but the end of the process touches it: starting and ending other processes,
mapping the screen and every descriptor call leave it alone.
-/

namespace Mp3Kernel

/-! ## Cutting a command -/

/-- A character of a program's name, to `execute`. -/
def ProgramByte (c : UInt8) : Prop := c ≠ blank ∧ c ≠ newline ∧ c ≠ 0

instance (c : UInt8) : Decidable (ProgramByte c) := inferInstanceAs (Decidable (_ ∧ _))

/-- A character of an argument, to `execute`. -/
def ArgumentByte (c : UInt8) : Prop := c ≠ newline ∧ c ≠ 0

instance (c : UInt8) : Decidable (ArgumentByte c) := inferInstanceAs (Decidable (_ ∧ _))

/-- What may follow an argument: the end of the command, or a line's end and anything. -/
def Terminates (rest : List UInt8) : Prop := ∀ c ∈ rest.head?, c = newline ∨ c = 0

instance (rest : List UInt8) : Decidable (Terminates rest) :=
  inferInstanceAs (Decidable (∀ c ∈ rest.head?, _))

/-- A program's name is read up to the blank after it. -/
theorem scanProgram_append {program rest : List UInt8} (name : ∀ c ∈ program, ProgramByte c)
    (stop : rest.head? = some blank) : scanProgram (program ++ rest) = (program, rest) := by
  induction program with
  | nil =>
    cases rest with
    | nil => cases stop
    | cons c rest =>
      obtain rfl := Option.some.inj stop
      rfl
  | cons c program ih =>
    obtain ⟨hblank, hline, hnul⟩ := name c (by simp)
    rw [List.cons_append, scanProgram, if_neg (by simp [hblank, hline, hnul]),
      ih fun d hd => name d (by simp [hd])]

/-- The blanks are skipped, up to something else. -/
theorem skipSpaces_append (spaces : Nat) {rest : List UInt8} (stop : rest.head? ≠ some blank) :
    skipSpaces (List.replicate spaces blank ++ rest) = rest := by
  induction spaces with
  | zero =>
    cases rest with
    | nil => rfl
    | cons c rest =>
      have hc : c ≠ blank := fun e => stop (congrArg some e)
      simp [skipSpaces, hc]
  | succ spaces ih =>
    rw [List.replicate_succ, List.cons_append, skipSpaces, if_pos rfl, ih]

/-- An argument is read up to what terminates it, its own blanks included. -/
theorem scanArgument_append {argument rest : List UInt8}
    (text : ∀ c ∈ argument, ArgumentByte c) (stop : Terminates rest) :
    scanArgument (argument ++ rest) = argument := by
  induction argument with
  | nil =>
    cases rest with
    | nil => rfl
    | cons c rest =>
      have hc := stop c rfl
      rw [List.nil_append, scanArgument, if_pos hc.symm]
  | cons c argument ih =>
    obtain ⟨hline, hnul⟩ := text c (by simp)
    rw [List.cons_append, scanArgument, if_neg (by simp [hline, hnul]),
      ih fun d hd => text d (by simp [hd])]

/-- A name, blanks, an argument and its terminator are cut where they were joined. -/
theorem parseCommand_joined {program argument rest : List UInt8} {spaces : Nat}
    (name : ∀ c ∈ program, ProgramByte c) (some_space : 1 ≤ spaces)
    (text : ∀ c ∈ argument, ArgumentByte c) (unpadded : argument.head? ≠ some blank)
    (stop : Terminates rest) :
    parseCommand (program ++ (List.replicate spaces blank ++ (argument ++ rest))) =
      (program, argument) := by
  have hblank : (List.replicate spaces blank ++ (argument ++ rest)).head? = some blank := by
    obtain ⟨more, rfl⟩ := Nat.exists_eq_add_of_le' some_space
    rfl
  have hstop : (argument ++ rest).head? ≠ some blank := by
    cases argument with
    | cons c argument => exact unpadded
    | nil =>
      cases rest with
      | nil => simp
      | cons c rest =>
        rcases stop c rfl with rfl | rfl
        · exact show some newline ≠ some blank by decide
        · exact show some (0 : UInt8) ≠ some blank by decide
  rw [parseCommand, scanProgram_append name hblank, skipSpaces_append spaces hstop,
    scanArgument_append text stop]

/-! ## The argument in the new PCB -/

/-- What `execute` stores for an argument that fits: the argument and zeros, over its 255
bytes. -/
def Stores (arg : Buf) (argument : List UInt8) : Prop :=
  argument.length ≤ 254 ∧ ∀ i < 255, arg i = cstr argument i

/-- A program that starts runs with the PCB built for it. -/
theorem startProgram_pcb {img : FsImage} {frame : Frame} {pid : Int} {child : Pcb}
    {k k' : Kernel} {eip esp : Nat}
    (h : startProgram img frame pid child k = some (k', .iret eip esp)) :
    k'.proc.currentId = pid ∧ child.SameButRegs (k'.proc.pcb pid) := by
  rcases startProgram_some h with ⟨_, hexit, _⟩ | ⟨_, _, _, _, rfl⟩
  · cases hexit
  · have hat := Proc.enter_pcbAt frame pid child k.proc (pcbAddr pid)
    rw [Function.update_self] at hat
    exact ⟨Proc.enter_currentId frame pid child k.proc, hat⟩

theorem Pcb.SameButRegs.executeArg {a b : Pcb} (h : a.SameButRegs b) :
    b.executeArg = a.executeArg := by
  rw [h]

/-- The argument copied out of the stack, over what the array held. -/
theorem stores_padded {argument : List UInt8} (fits : argument.length ≤ 254) (stale : Buf) :
    Stores (fun i =>
      if i < 255 then if i ≤ argument.length then cstr argument i else 0 else stale i)
      argument := by
  refine ⟨fits, fun i hi => ?_⟩
  dsimp only
  rw [if_pos hi]
  split
  next => rfl
  next hend => exact (List.getD_eq_default _ _ (by omega)).symm

/-- A program started by a command has that command's argument. -/
theorem executeHandler_stores {img : FsImage} {frame : Frame} {command : List UInt8}
    {k k' : Kernel} {eip esp : Nat}
    (h : executeHandler img frame (some command) k = some (k', .iret eip esp)) :
    Stores (k'.proc.pcb k'.proc.currentId).executeArg (parseCommand command).2 := by
  unfold executeHandler at h
  dsimp only at h
  split at h
  next => cases h
  next pid _ =>
    split at h
    next => cases h
    next hfits =>
      split at h
      next => cases h
      next =>
        obtain ⟨hpid, hpcb⟩ := startProgram_pcb h
        rw [hpid, hpcb.executeArg]
        exact stores_padded (not_not.mp hfits).2 _

/-! ## A life -/

/-- The calls of a process's lifetime: any but its own `halt`. -/
def inLife (pid : Int) (k : Kernel) (e : ProcEvent ⊕ FdEvent) : Prop :=
  callsLeaf k e ∧ ∀ frame status, e = .inl (.halt frame status) → k.proc.currentId ≠ pid

/-- A live process and its argument. -/
structure Carries (pid : Int) (arg : Buf) (k : Kernel) : Prop where
  table : Proc.Table k.proc
  live : k.proc.Live pid
  arg : (k.proc.pcb pid).executeArg = arg

section Life

variable {img : FsImage} {term : TerminalDriver} {k k' : Kernel} {pid : Int} {arg : Buf}

/-- A start of another process, from a state in which this one is live. -/
theorem Carries.started {frame : Frame} {parentPtr parentId new : Int}
    (live : k.proc.Live pid) (has : (k.proc.pcb pid).executeArg = arg)
    (h : Started frame parentPtr parentId k k' new) :
    k'.proc.Live pid ∧ (k'.proc.pcb pid).executeArg = arg := by
  have hne : pid ≠ new := fun e => h.not_live (e ▸ live)
  exact ⟨(h.live pid).mpr (.inr live), by rw [(h.pcb_old hne).executeArg, has]⟩

/-- What one process call in a life preserves. -/
theorem Carries.step {e : ProcEvent} (C : Carries pid arg k) (ok : inLife pid k (.inl e))
    (h : procStep img e k = some k') : Carries pid arg k' := by
  have T : Proc.Table k'.proc := C.table.step ok.1 h
  suffices hkept : k'.proc.Live pid ∧ (k'.proc.pcb pid).executeArg = arg from
    ⟨T, hkept.1, hkept.2⟩
  cases procStep_some h with
  | noShell _ hsame | noChild _ hsame =>
    rw [hsame.proc]
    exact ⟨C.live, C.arg⟩
  | shell _ hstarted | child _ hstarted => exact Carries.started C.live C.arg hstarted
  | restarted hnew =>
    obtain ⟨_, hstarted⟩ := hnew.started
    have hother : pid ≠ k.proc.currentId := (ok.2 _ _ rfl).symm
    exact Carries.started ((k.released_live pid).mpr ⟨C.live, hother⟩) C.arg hstarted
  | stray hstray => exact absurd hstray C.table.not_stray
  | returned hback =>
    have hother : pid ≠ k.proc.currentId := (ok.2 _ _ rfl).symm
    refine ⟨(hback.live pid).mpr ⟨C.live, hother⟩, ?_⟩
    rw [hback.handed.keeps Pcb.executeArg (fun _ => rfl) (fun _ => rfl)]
    exact C.arg
  | notMapped _ hsame =>
    rw [hsame]
    exact ⟨C.live, C.arg⟩
  | mapped _ hmapped =>
    refine ⟨by simpa only [Proc.Live, hmapped.idArray] using C.live, ?_⟩
    exact (hmapped.keeps Pcb.executeArg (fun _ => rfl) _).trans C.arg
  | unmapped hsame | remapped hsame | switched hsame | scheduled _ hsame =>
    rw [hsame]
    exact ⟨C.live, C.arg⟩

/-- What any call in a life preserves. -/
theorem Carries.call (keeps : term.KeepsProcesses) {e : ProcEvent ⊕ FdEvent}
    (C : Carries pid arg k) (ok : inLife pid k e) (h : sysStep img term e k = some k') :
    Carries pid arg k' := by
  cases e with
  | inl e => exact C.step ok h
  | inr e =>
    obtain ⟨fdArray, hfds⟩ := @fdStep_proc img term keeps e k
    rw [sysStep_fd h]
    refine ⟨?_, ?_, ?_⟩
    · rw [hfds]
      exact C.table.withFds fdArray
    · rw [hfds]
      exact C.live
    · rw [hfds, Proc.withFds_keeps Pcb.executeArg (fun _ _ => rfl)]
      exact C.arg

/-- A process carries its argument for life. -/
theorem Carries.run (keeps : term.KeepsProcesses) (C : Carries pid arg k)
    (life : Runs.Reach (sysStep img term) (inLife pid) k k') : Carries pid arg k' :=
  life.invariant (Carries pid arg) C fun _ _ _ C ok h => C.call keeps ok h

end Life

/-! ## Reading it back -/

/-- The copying loop, in closed form. -/
theorem copyArg_eq (arg : Buf) (n i : Nat) (buf : Buf) (j : Nat) :
    copyArg arg n i buf j =
      if i ≤ j ∧ j < i + n then if j < 255 then arg j else 0 else buf j := by
  induction n generalizing i buf with
  | zero =>
    rw [copyArg, if_neg (by omega)]
  | succ n ih =>
    rw [copyArg, ih]
    by_cases hij : j = i
    · have hin : i ≤ j ∧ j < i + (n + 1) := by omega
      rw [if_neg (by omega), if_pos hin, hij, Function.update_self]
    · rw [Function.update_of_ne hij]
      by_cases hin : i ≤ j ∧ j < i + (n + 1)
      · rw [if_pos hin, if_pos (by omega)]
      · rw [if_neg hin, if_neg (by omega)]

/-- What `getargs` copies of a stored argument is the argument, then zeros. -/
theorem Stores.byte {arg : Buf} {argument : List UInt8} (S : Stores arg argument) (i : Nat) :
    (if i < 255 then arg i else 0) = argument.getD i 0 := by
  obtain ⟨hfits, hbytes⟩ := S
  split
  next hi => exact hbytes i hi
  next hi => exact (List.getD_eq_default _ _ (by omega)).symm

/-- `getargs` where no argument is stored. -/
theorem getargsHandler_empty {arg : Buf} {k : Kernel} (S : Stores arg [])
    (has : k.currentPcb.executeArg = arg) (buf : Buf) (nbytes : Int) :
    getargsHandler (some buf) nbytes k = (some buf, -1) := by
  have hnul : k.currentPcb.executeArg 0 = 0 := by
    rw [has]
    exact S.2 0 (by omega)
  simp only [getargsHandler]
  rw [if_pos (.inl hnul)]

/-- `getargs` where an argument is stored. -/
theorem getargsHandler_some {arg : Buf} {argument : List UInt8} {k : Kernel}
    (S : Stores arg argument) (has : k.currentPcb.executeArg = arg)
    (text : ∀ c ∈ argument, ArgumentByte c) (nonempty : argument ≠ []) (buf : Buf)
    {nbytes : Int} (pos : 1 ≤ nbytes) :
    ∃ out, getargsHandler (some buf) nbytes k = (some out, 0) ∧
      ∀ i : Nat, out i =
        if (i : Int) < nbytes - 1 then argument.getD i 0
        else if (i : Int) = nbytes - 1 then 0
        else buf i := by
  have hfirst : k.currentPcb.executeArg 0 ≠ 0 := by
    obtain ⟨c, more, rfl⟩ := List.exists_cons_of_ne_nil nonempty
    rw [has, S.2 0 (by omega)]
    exact (text c (by simp)).2
  have hturns : ((nbytes - 1).toNat : Int) = nbytes - 1 := Int.toNat_of_nonneg (by omega)
  refine ⟨Function.update (copyArg arg (nbytes - 1).toNat 0 buf) (nbytes - 1).toNat 0, ?_, ?_⟩
  · simp only [getargsHandler]
    rw [if_neg (not_or.mpr ⟨hfirst, by omega⟩), has]
  · intro i
    by_cases hi : i = (nbytes - 1).toNat
    · rw [hi, Function.update_self, if_neg (by omega), if_pos hturns]
    · rw [Function.update_of_ne hi, copyArg_eq, S.byte]
      by_cases hlt : (i : Int) < nbytes - 1
      · rw [if_pos (by omega), if_pos hlt]
      · rw [if_neg (by omega), if_neg hlt, if_neg (by omega)]

/-- A program started with a name, blanks and an argument reads that argument back with
`getargs`, whatever it and the processes it starts have called since: the first bytes of the
argument, zeros after it, a final zero, and nothing past the size it asked for; or an error
and nothing written, when the argument is empty. -/
theorem getargs_of_execute {img : FsImage} {term : TerminalDriver} (keeps : term.KeepsProcesses)
    {frame₀ frame : Frame} {k₀ k₁ k k₂ k₃ : Kernel} {eip₀ esp₀ eip esp : Nat}
    (boot : Booted k₀) (first : initShell img frame₀ k₀ = some (k₁, .iret eip₀ esp₀))
    (run : Runs.Reach (sysStep img term) callsLeaf k₁ k)
    {program argument rest : List UInt8} {spaces : Nat}
    (name : ∀ c ∈ program, ProgramByte c) (some_space : 1 ≤ spaces)
    (text : ∀ c ∈ argument, ArgumentByte c) (unpadded : argument.head? ≠ some blank)
    (stop : Terminates rest)
    (exec : executeHandler img frame
      (some (program ++ (List.replicate spaces blank ++ (argument ++ rest)))) k =
        some (k₂, .iret eip esp))
    (life : Runs.Reach (sysStep img term) (inLife k₂.proc.currentId) k₂ k₃)
    (current : k₃.proc.currentId = k₂.proc.currentId) (buf : Buf) {nbytes : Int}
    (pos : 1 ≤ nbytes) :
    (argument ≠ [] → ∃ out, getargsHandler (some buf) nbytes k₃ = (some out, 0) ∧
      ∀ i : Nat, out i =
        if (i : Int) < nbytes - 1 then argument.getD i 0
        else if (i : Int) = nbytes - 1 then 0
        else buf i) ∧
      (argument = [] → getargsHandler (some buf) nbytes k₃ = (some buf, -1)) := by
  have T : Proc.Table k.proc := table_of_calls keeps boot first run
  have hstep : procStep img (.execute frame
      (some (program ++ (List.replicate spaces blank ++ (argument ++ rest))))) k = some k₂ := by
    rw [procStep, exec]
    rfl
  have T₂ : Proc.Table k₂.proc := T.step (e := .execute frame _) trivial hstep
  have S := executeHandler_stores exec
  rw [parseCommand_joined name some_space text unpadded stop] at S
  have C := Carries.run keeps ⟨T₂, T₂.current, rfl⟩ life
  have has : k₃.currentPcb.executeArg = (k₂.proc.pcb k₂.proc.currentId).executeArg := by
    rw [Kernel.currentPcb, C.table.currentPcb_eq, current]
    exact C.arg
  constructor
  · exact fun nonempty => getargsHandler_some S has text nonempty buf pos
  · rintro rfl
    exact getargsHandler_empty S has buf nbytes

/-- The first shell runs a second one with two blanks and `a b`, and that one a third, which
halts: the second still reads its three bytes back, and no fourth. -/
theorem getargs_of_execute_nested :
    ∃ k₁ k₂ k₃, initShell shellImage zeroFrame coldBoot = some (k₁, .iret 0x08048018 newUserBottom) ∧
      executeHandler shellImage zeroFrame (some (bytes "shell  a b\n?")) k₁ =
        some (k₂, .iret 0x08048018 newUserBottom) ∧
      Runs.Reach (sysStep shellImage quietTerminal) (inLife k₂.proc.currentId) k₂ k₃ ∧
      ∃ out, getargsHandler (some fun _ => 7) 5 k₃ = (some out, 0) ∧
        out 0 = 97 ∧ out 1 = 32 ∧ out 2 = 98 ∧ out 3 = 0 ∧ out 4 = 0 ∧ out 5 = 7 := by
  have start : ∃ k₁ k₂ k₃,
      initShell shellImage zeroFrame coldBoot = some (k₁, .iret 0x08048018 newUserBottom) ∧
      executeHandler shellImage zeroFrame (some (bytes "shell  a b\n?")) k₁ =
        some (k₂, .iret 0x08048018 newUserBottom) ∧
      Runs.Reach (sysStep shellImage quietTerminal) (inLife k₂.proc.currentId) k₂ k₃ ∧
      k₃.proc.currentId = k₂.proc.currentId := by
    refine ⟨_, _, _, rfl, rfl, .tail (e := .inl (.halt zeroFrame 0))
      (.tail (e := .inl (.execute zeroFrame (some (bytes "shell")))) .refl ?_ rfl) ?_ rfl, rfl⟩
    · exact ⟨trivial, fun _ _ h => nomatch h⟩
    · exact ⟨trivial, fun _ _ _ => show (2 : Int) ≠ 1 by decide⟩
  obtain ⟨k₁, k₂, k₃, first, exec, life, current⟩ := start
  obtain ⟨out, hcall, hout⟩ := (@getargs_of_execute shellImage quietTerminal quietTerminal_keeps
    _ _ _ _ _ _ _ _ _ _ _ coldBoot_booted first .refl (bytes "shell") (bytes "a b")
    (bytes "\n?") 2 (by decide +kernel) (by decide) (by decide +kernel) (by decide +kernel)
    (by decide +kernel) exec life current
    (fun _ => 7) 5 (by decide)).1 (by decide)
  refine ⟨k₁, k₂, k₃, first, exec, life, out, hcall, ?_⟩
  simp only [hout]
  decide

end Mp3Kernel
