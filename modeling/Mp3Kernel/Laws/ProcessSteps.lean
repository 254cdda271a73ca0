import Mp3Kernel.Kernel.Machine

/-!
# What a process call can do

One inversion per call: from the fact that the call returned, everything it can have
changed. `execute` and `init_shell` either leave the process table and the page tables
alone or start one process (`Started`); `halt` either does that, for a base shell, or
hands over to the parent. Every invariant over runs is derived from these.
-/

namespace Mp3Kernel

/-! ## PCB addresses -/

theorem pcbAddr_inj {a b : Int} : pcbAddr a = pcbAddr b ↔ a = b := by
  unfold pcbAddr
  omega

theorem pcbAddr_ne_zero {a : Int} (h : ValidPid a) : pcbAddr a ≠ 0 := by
  obtain ⟨_, hi⟩ := h
  unfold pcbAddr
  omega

/-! ## Frames -/

section Frames

variable (img : FsImage) (filename : Buf) (k : Kernel)

/-- A lookup changes the file system's globals and what it prints. -/
theorem readDentryByName_frame {β : Type} (get : Kernel → β)
    (fs : ∀ v k, get { k with fs := v } = get k)
    (print : ∀ s k, get (Kernel.printfPlain s k) = get k) :
    get (readDentryByName img filename k).1 = get k := by
  unfold readDentryByName
  split
  · exact print _ _
  · dsimp only
    split
    · exact fs _ _
    · exact (print _ _).trans (fs _ _)

@[simp] theorem readDentryByName_proc : (readDentryByName img filename k).1.proc = k.proc :=
  readDentryByName_frame img filename k Kernel.proc (fun _ _ => rfl)
    (fun s k => k.printfPlain_proc s)

@[simp] theorem readDentryByName_mmu : (readDentryByName img filename k).1.mmu = k.mmu :=
  readDentryByName_frame img filename k Kernel.mmu (fun _ _ => rfl) (fun s k => k.printfPlain_mmu s)

@[simp] theorem readDentryByName_curVisTerm :
    (readDentryByName img filename k).1.curVisTerm = k.curVisTerm :=
  readDentryByName_frame img filename k Kernel.curVisTerm (fun _ _ => rfl)
    (fun s k => k.printfPlain_curVisTerm s)

@[simp] theorem readDentryByName_curExecuteTerm :
    (readDentryByName img filename k).1.curExecuteTerm = k.curExecuteTerm :=
  readDentryByName_frame img filename k Kernel.curExecuteTerm (fun _ _ => rfl)
    (fun s k => k.printfPlain_curExecuteTerm s)

@[simp] theorem readDentryByName_fs :
    (readDentryByName img filename k).1.fs =
      if nameTooLong filename then k.fs
      else (searchFrom img filename img.boot.numEntry 0 k.fs).1 := by
  unfold readDentryByName
  split
  next => rw [Kernel.printfPlain_fs]
  next =>
    dsimp only
    split
    · rfl
    · rw [Kernel.printfPlain_fs]

/-- A lookup leaves the same file-system globals whatever pid has been claimed. -/
theorem lookup_setId_fs (pid v : Int) :
    (readDentryByName img filename (k.setId pid v)).1.fs =
      (readDentryByName img filename k).1.fs := by
  rw [readDentryByName_fs, readDentryByName_fs]
  rfl

theorem searchFrom_found (n i : Nat) (v w : FsVars) :
    (searchFrom img filename n i v).2 = (searchFrom img filename n i w).2 := by
  induction n generalizing i v w with
  | zero => rfl
  | succ n ih =>
    unfold searchFrom
    dsimp only
    split
    · rfl
    · exact ih _ _ _

/-- A lookup's result depends on the image and the name alone. -/
theorem readDentryByName_found (k₁ k₂ : Kernel) :
    (readDentryByName img filename k₁).2 = (readDentryByName img filename k₂).2 := by
  have hsearch := searchFrom_found img filename img.boot.numEntry 0 k₁.fs k₂.fs
  unfold readDentryByName
  split
  · rfl
  · dsimp only
    rw [hsearch]
    split <;> rfl

theorem readDentryByName_result :
    (readDentryByName img filename k).2 = 0 ∨ (readDentryByName img filename k).2 = -1 := by
  unfold readDentryByName
  split
  · exact .inr rfl
  · dsimp only
    split
    · exact .inl rfl
    · exact .inr rfl

end Frames

/-- The parts of the state the process results speak of are as they were. -/
structure SameProcesses (k k' : Kernel) : Prop where
  proc : k'.proc = k.proc
  mmu : k'.mmu = k.mmu
  vis : k'.curVisTerm = k.curVisTerm
  exe : k'.curExecuteTerm = k.curExecuteTerm

/-! ## Choosing a pid -/

/-- The pid chosen is in range of the search, free, and the first such. -/
theorem findPid_some {ids : Int → Int} {pid i : Int} {n : Nat} (h : findPid ids n i = some pid) :
    i ≤ pid ∧ pid < i + n ∧ ids pid = 0 ∧ ∀ j, i ≤ j → j < pid → ids j ≠ 0 := by
  induction n generalizing i with
  | zero => cases h
  | succ n ih =>
    unfold findPid at h
    split at h
    next hfree =>
      cases h
      exact ⟨by omega, by omega, hfree, fun j _ _ => by omega⟩
    next hused =>
      obtain ⟨hlo, hhi, hfree, hfirst⟩ := ih h
      refine ⟨by omega, by omega, hfree, fun j hj hj' => ?_⟩
      by_cases hji : j = i
      · exact hji ▸ hused
      · exact hfirst j (by omega) hj'

theorem findPid_maximum {ids : Int → Int} {pid : Int}
    (h : findPid ids maximumProcess 0 = some pid) : ValidPid pid ∧ ids pid = 0 := by
  obtain ⟨hlo, hhi, hfree, _⟩ := findPid_some h
  unfold maximumProcess at hhi
  exact ⟨⟨hlo, by omega⟩, hfree⟩

/-! ## Starting a process -/

/-- A slot taken and given back is as it was. -/
theorem Proc.setId_setId {p : Proc} {pid v : Int} (h : p.idArray pid = v) (w : Int) :
    (p.setId pid w).setId pid v = p := by
  unfold Proc.setId
  rw [Function.update_idem, ← h, Function.update_eq_self]

/-- One process was started: a free pid was claimed, its page mapped, and the process
table is what `Proc.enter` leaves. -/
structure Started (frame : Frame) (parentPtr parentId : Int) (k k' : Kernel) (pid : Int) : Prop where
  valid : ValidPid pid
  free : k.proc.idArray pid = 0
  proc : ∃ executeArg, k'.proc =
    (k.proc.setId pid 1).enter frame pid (newPcb frame parentPtr parentId executeArg)
  mmu : k'.mmu = k.mmu.setPage pid
  vis : k'.curVisTerm = k.curVisTerm
  exe : k'.curExecuteTerm = k.curExecuteTerm

/-- What is checked before a program starts: a pid is free, the name is known, and the file
begins as an ELF does. -/
def Launches (img : FsImage) (frame : Frame) (program : List UInt8) (k : Kernel) : Prop :=
  (findPid k.proc.idArray maximumProcess 0).isSome ∧
    (readDentryByName img (cstr program) k).2 = 0 ∧
    isExecutable
      (executeRead img frame.fileData 28 (readDentryByName img (cstr program) k).1.fs).buf

/-- `Launches` for a command; the null pointer launches nothing. -/
def LaunchesCommand (img : FsImage) (frame : Frame) (k : Kernel) : Option (List UInt8) → Prop
  | none => False
  | some command => Launches img frame (parseCommand command).1 k

theorem loadProgram_some {img : FsImage} {k k' : Kernel} (h : loadProgram img k = some k') :
    ∃ mem, k' = { k with mem := mem } := by
  unfold loadProgram at h
  dsimp only at h
  split at h
  · exact ⟨_, (Option.some.inj h).symm⟩
  · cases h

/-- The tail that `execute_handler` and `init_shell` share. -/
theorem startProgram_some {img : FsImage} {frame : Frame} {pid : Int} {child : Pcb}
    {k k' : Kernel} {exit : Exit} (h : startProgram img frame pid child k = some (k', exit)) :
    (isExecutable (executeRead img frame.fileData 28 k.fs).buf = false ∧
        exit = .ret (-1) ∧ k' = k.setId pid 0) ∨
      (isExecutable (executeRead img frame.fileData 28 k.fs).buf ∧
        ∃ eip mem, exit = .iret eip newUserBottom ∧ k' =
          { k.setPage pid with proc := k.proc.enter frame pid child, mem := mem }) := by
  unfold startProgram at h
  dsimp only at h
  split at h
  next helf =>
    split at h
    next => cases h
    next k₁ hload =>
      obtain ⟨mem, rfl⟩ := loadProgram_some hload
      obtain ⟨rfl, rfl⟩ := Prod.mk.inj (Option.some.inj h)
      exact .inr ⟨helf, _, mem, rfl, rfl⟩
  next helf =>
    obtain ⟨rfl, rfl⟩ := Prod.mk.inj (Option.some.inj h)
    exact .inl ⟨Bool.eq_false_iff.mpr helf, rfl, rfl⟩

/-- The lookup and the tail together, once a pid is claimed. -/
theorem lookupAndStart_some {img : FsImage} {frame : Frame} {pid : Int} {program : List UInt8}
    {parentPtr parentId : Int} {arg : Buf} {k k' : Kernel} {exit : Exit}
    (hpid : findPid k.proc.idArray maximumProcess 0 = some pid)
    (h : (if (readDentryByName img (cstr program) (k.setId pid 1)).2 = -1 then
        some ((readDentryByName img (cstr program) (k.setId pid 1)).1.setId pid 0, Exit.ret (-1))
      else startProgram img frame pid (newPcb frame parentPtr parentId arg)
        (readDentryByName img (cstr program) (k.setId pid 1)).1) = some (k', exit)) :
    (¬ Launches img frame program k ∧ exit = .ret (-1) ∧ SameProcesses k k') ∨
      (Launches img frame program k ∧
        ∃ eip, exit = .iret eip newUserBottom ∧ Started frame parentPtr parentId k k' pid) := by
  obtain ⟨hvalid, hfree⟩ := findPid_maximum hpid
  have hback : (k.proc.setId pid 1).setId pid 0 = k.proc := Proc.setId_setId hfree 1
  have hfound := readDentryByName_found img (cstr program) (k.setId pid 1) k
  have hfs : (readDentryByName img (cstr program) (k.setId pid 1)).1.fs =
      (readDentryByName img (cstr program) k).1.fs := by
    rw [readDentryByName_fs, readDentryByName_fs]
    rfl
  split at h
  next hmissing =>
    obtain ⟨rfl, rfl⟩ := Prod.mk.inj (Option.some.inj h)
    refine .inl ⟨?_, rfl, ⟨?_, ?_, ?_, ?_⟩⟩
    · rintro ⟨_, hname, _⟩
      omega
    · simpa [Kernel.setId] using hback
    all_goals simp [Kernel.setId]
  next hknown =>
    have hname : (readDentryByName img (cstr program) k).2 = 0 := by
      have := readDentryByName_result img (cstr program) k
      omega
    rcases startProgram_some h with ⟨helf, rfl, rfl⟩ | ⟨helf, eip, mem, rfl, rfl⟩
    · refine .inl ⟨?_, rfl, ⟨?_, ?_, ?_, ?_⟩⟩
      · rintro ⟨_, _, helf'⟩
        rw [hfs] at helf
        rw [helf] at helf'
        cases helf'
      · simpa [Kernel.setId] using hback
      all_goals simp [Kernel.setId]
    · rw [hfs] at helf
      refine .inr ⟨⟨by rw [hpid]; rfl, hname, helf⟩, eip, rfl,
        ⟨hvalid, hfree, ⟨arg, ?_⟩, ?_, ?_, ?_⟩⟩
      all_goals simp [Kernel.setId, Kernel.setPage]

/-- The parent pointer `execute_handler` starts from. -/
def callerPtr (p : Proc) : Int := if p.currentId ≠ -1 then p.pcbArr p.currentId else 0

/-- What `execute_handler` can do: refuse and change nothing, or start a process under the
caller. -/
theorem executeHandler_some {img : FsImage} {frame : Frame} {command : Option (List UInt8)}
    {k k' : Kernel} {exit : Exit} (h : executeHandler img frame command k = some (k', exit)) :
    (¬ LaunchesCommand img frame k command ∧ exit = .ret (-1) ∧ SameProcesses k k') ∨
      (LaunchesCommand img frame k command ∧
        ∃ pid eip, exit = .iret eip newUserBottom ∧
          Started frame (callerPtr k.proc) k.proc.currentId k k' pid) := by
  unfold executeHandler at h
  split at h
  next =>
    obtain ⟨rfl, rfl⟩ := Prod.mk.inj (Option.some.inj h)
    exact .inl ⟨id, rfl, ⟨rfl, rfl, rfl, rfl⟩⟩
  next command =>
    dsimp only at h
    split at h
    next hfull =>
      obtain ⟨rfl, rfl⟩ := Prod.mk.inj (Option.some.inj h)
      refine .inl ⟨?_, rfl, ⟨rfl, rfl, rfl, rfl⟩⟩
      rintro ⟨hfree, _⟩
      rw [hfull] at hfree
      cases hfree
    next pid hpid =>
      split at h
      · cases h
      · rcases lookupAndStart_some hpid h with hsame | ⟨hlaunch, eip, hexit, hstarted⟩
        · exact .inl hsame
        · exact .inr ⟨hlaunch, pid, eip, hexit, hstarted⟩

/-- What `init_shell` can do: refuse and change nothing, or start a process without a
parent. -/
theorem initShell_some {img : FsImage} {frame : Frame} {k k' : Kernel} {exit : Exit}
    (h : initShell img frame k = some (k', exit)) :
    (¬ Launches img frame (bytes "shell") k ∧ exit = .ret (-1) ∧ SameProcesses k k') ∨
      (Launches img frame (bytes "shell") k ∧
        ∃ pid eip, exit = .iret eip newUserBottom ∧ Started frame 0 (-1) k k' pid) := by
  unfold initShell at h
  split at h
  next hfull =>
    obtain ⟨rfl, rfl⟩ := Prod.mk.inj (Option.some.inj h)
    refine .inl ⟨?_, rfl, ⟨rfl, rfl, rfl, rfl⟩⟩
    rintro ⟨hfree, _⟩
    rw [hfull] at hfree
    cases hfree
  next pid hpid =>
    rcases lookupAndStart_some hpid h with hsame | ⟨hlaunch, eip, hexit, hstarted⟩
    · exact .inl hsame
    · exact .inr ⟨hlaunch, pid, eip, hexit, hstarted⟩

/-! ## Halting -/

/-- The slots picked are closed: their flags are clear. -/
def Pcb.clearSlots (pick : Int → Bool) (pcb : Pcb) : Pcb :=
  { pcb with
    fdArray := fun fd =>
      if pick fd then { pcb.fdArray fd with flags := 0 } else pcb.fdArray fd }

/-- Clearing twice clears what either picks. -/
theorem Pcb.clearSlots_clearSlots (p q : Int → Bool) (pcb : Pcb) :
    (pcb.clearSlots p).clearSlots q = pcb.clearSlots fun fd => p fd || q fd := by
  simp only [Pcb.clearSlots, Pcb.mk.injEq, and_true]
  funext fd
  cases p fd <;> cases q fd <;> rfl

/-- The assignment that clears one slot. -/
theorem Pcb.clearSlots_single (fd : Int) (pcb : Pcb) :
    { pcb with
      fdArray := Function.update pcb.fdArray fd { pcb.fdArray fd with flags := 0 } } =
      pcb.clearSlots (· == fd) := by
  simp only [Pcb.clearSlots, Pcb.mk.injEq, and_true]
  funext i
  by_cases h : i = fd
  · subst h; simp
  · simp [h]

/-- Slots 0 and 1, which `halt` clears without a call. -/
def stdSlot (fd : Int) : Bool := fd == 0 || fd == 1

/-- Slots 2 to 7, which `halt` passes to `close`. -/
def userSlot (fd : Int) : Bool := decide (2 ≤ fd ∧ fd ≤ 7)

@[simp] theorem userSlot_eq_true {fd : Int} : userSlot fd = true ↔ 2 ≤ fd ∧ fd ≤ 7 :=
  decide_eq_true_iff

/-- What `halt` does to the PCB of the process that halts. -/
def Pcb.retire (pcb : Pcb) : Pcb :=
  { pcb.clearSlots stdSlot with vidmapFlag := if pcb.vidmapFlag = 1 then 0 else pcb.vidmapFlag }

/-- Two changes to one PCB are one. -/
theorem Kernel.modifyPcb_modifyPcb (k : Kernel) (addr : Int) (f g : Pcb → Pcb) :
    (k.modifyPcb addr f).modifyPcb addr g = k.modifyPcb addr fun pcb => g (f pcb) := by
  simp [Kernel.modifyPcb]

@[simp] theorem Kernel.modifyPcb_currentPcbPtr (k : Kernel) (addr : Int) (f : Pcb → Pcb) :
    (k.modifyPcb addr f).proc.currentPcbPtr = k.proc.currentPcbPtr := rfl

/-- On a slot of 2 to 7, `close` leaves the slot's flags clear whether or not it was open. -/
theorem closeCall_state {fd : Int} (lo : 2 ≤ fd) (hi : fd ≤ 7) (k : Kernel) :
    (closeCall fd k).1 = k.modifyPcb k.proc.currentPcbPtr (Pcb.clearSlots (· == fd)) := by
  rw [← funext (Pcb.clearSlots_single fd)]
  unfold closeCall
  split
  next h =>
    have hflags : (k.currentPcb.fdArray fd).flags = 0 := by omega
    have hslot : { k.currentPcb.fdArray fd with flags := 0 } = k.currentPcb.fdArray fd := by
      rw [← hflags]
    simp only [Kernel.currentPcb, Proc.currentPcb] at hslot
    simp [Kernel.modifyPcb, hslot]
  next => rfl

/-- Turns of the closing loop below slot 2. -/
theorem haltCloseSlot_std (currPcb : Int) (k : Kernel) {fd : Nat} (h : fd < 2) :
    haltCloseSlot currPcb k fd = k.modifyPcb currPcb (Pcb.clearSlots (· == (fd : Int))) := by
  unfold haltCloseSlot
  rw [if_pos (by omega), ← funext (Pcb.clearSlots_single fd)]

/-- Turns of the closing loop from slot 2 on. -/
theorem haltCloseSlot_user (currPcb : Int) (k : Kernel) {fd : Nat} (lo : 2 ≤ fd) (hi : fd ≤ 7) :
    haltCloseSlot currPcb k fd =
      k.modifyPcb k.proc.currentPcbPtr (Pcb.clearSlots (· == (fd : Int))) := by
  unfold haltCloseSlot
  rw [if_neg (by omega)]
  exact closeCall_state (by omega) (by omega) k

/-- The closing loop: slots 0 and 1 of the halting process, slots 2 to 7 of the current
one. -/
theorem haltClose_eq (currPcb : Int) (k : Kernel) :
    haltClose currPcb k =
      (k.modifyPcb currPcb (Pcb.clearSlots stdSlot)).modifyPcb k.proc.currentPcbPtr
        (Pcb.clearSlots userSlot) := by
  have hrange : List.range 8 = [0, 1, 2, 3, 4, 5, 6, 7] := rfl
  unfold haltClose
  rw [hrange]
  simp only [List.foldl_cons, List.foldl_nil]
  rw [haltCloseSlot_std currPcb k (by omega : 0 < 2),
    haltCloseSlot_std currPcb _ (by omega : 1 < 2)]
  simp only [haltCloseSlot_user, Nat.le_refl, Nat.reduceLeDiff, Kernel.modifyPcb_modifyPcb,
    Kernel.modifyPcb_currentPcbPtr, Pcb.clearSlots_clearSlots]
  have hstd : (fun fd : Int => fd == ((0 : Nat) : Int) || fd == ((1 : Nat) : Int)) = stdSlot := rfl
  have huser : (fun fd : Int => fd == ((2 : Nat) : Int) || fd == ((3 : Nat) : Int)
      || fd == ((4 : Nat) : Int) || fd == ((5 : Nat) : Int) || fd == ((6 : Nat) : Int)
      || fd == ((7 : Nat) : Int)) = userSlot := by
    funext fd
    rw [Bool.eq_iff_iff]
    simp only [Bool.or_eq_true, beq_iff_eq, userSlot_eq_true]
    omega
  rw [hstd, huser]

/-- The state `halt_handler` hands to `haltTail`, and what comes out: the process `pid` whose
PCB is at `currPcb` is gone, and the current process of `k` stays current. -/
structure HandedOver (pid currPcb : Int) (k k' : Kernel) : Prop where
  ptr_ne : k.proc.currentPcbPtr ≠ 0
  parentPtr_ne : (k.proc.pcbAt currPcb).parentPtr ≠ 0
  ids : k'.proc.idArray = Function.update k.proc.idArray pid 0
  arr : k'.proc.pcbArr = Function.update k.proc.pcbArr pid 0
  current : k'.proc.currentId = k.proc.currentId
  ptr : k'.proc.currentPcbPtr = k.proc.currentPcbPtr
  esp0 : k'.proc.tssEsp0 = kernelStack (k.proc.pcbAt currPcb).parentProcessId
  pcbs : k'.proc.pcbAt =
    ((k.modifyPcb currPcb Pcb.retire).modifyPcb k.proc.currentPcbPtr
      (Pcb.clearSlots userSlot)).proc.pcbAt
  flags : k'.proc.pidVidmapFlag =
    if (k.proc.pcbAt currPcb).vidmapFlag = 1 then Function.update k.proc.pidVidmapFlag pid 0
    else k.proc.pidVidmapFlag
  mmu : k'.mmu =
    if (k.proc.pcbAt currPcb).vidmapFlag = 1 then
      (k.mmu.setPage (k.proc.pcbAt currPcb).parentProcessId).undoVidmap
    else k.mmu.setPage (k.proc.pcbAt currPcb).parentProcessId
  vis : k'.curVisTerm = k.curVisTerm
  exe : k'.curExecuteTerm = k.curExecuteTerm

theorem haltTail_some {pid currPcb status : Int} {k k' : Kernel} {exit : Exit}
    (h : haltTail pid currPcb status k = some (k', exit)) :
    (∃ esp ebp, exit = .leave esp ebp status) ∧ HandedOver pid currPcb k k' := by
  unfold haltTail at h
  dsimp only at h
  split at h
  next => cases h
  next hptrs =>
    obtain ⟨hptr, hparent⟩ := not_or.mp hptrs
    obtain ⟨rfl, rfl⟩ := Prod.mk.inj (Option.some.inj h)
    refine ⟨⟨_, _, rfl⟩, ?_⟩
    rw [haltClose_eq]
    by_cases hflag : (k.proc.pcbAt currPcb).vidmapFlag = 1
    all_goals
      constructor
      case ptr_ne => exact hptr
      case parentPtr_ne => exact hparent
      all_goals
        simp [haltVidmap, haltRelease, Kernel.setPage, Kernel.undoVidmap, Kernel.modifyPcb,
          Pcb.retire, Pcb.clearSlots, hflag]

/-- What `halt` does to `global_flag_exception`. -/
def Proc.takeException (p : Proc) : Proc :=
  { p with globalFlagException := if p.globalFlagException = 1 then 0 else p.globalFlagException }

/-- A base shell that halts, before the restart. -/
def Kernel.released (k : Kernel) : Kernel :=
  { k with
    proc :=
      { k.proc.takeException with
        idArray := Function.update k.proc.idArray k.proc.currentId 0
        pcbArr := Function.update k.proc.pcbArr k.proc.currentId 0
        currentId := -1 } }

/-- A process with a parent that halts: the parent is current before anything is undone. -/
def Kernel.toParent (k : Kernel) : Kernel :=
  { k with
    proc :=
      { k.proc.takeException with
        currentId := k.currentPcb.parentProcessId
        currentPcbPtr := k.proc.pcbArr k.currentPcb.parentProcessId } }

/-- `halt` of a base shell: a new one is started. Had the restart failed, the tail would
have run, which needs a parent. -/
structure Restarted (k k' : Kernel) (pid : Int) : Prop where
  base : k.currentPcb.parentProcessId = -1
  started : ∃ frame, Started frame 0 (-1) k.released k' pid

/-- `halt` of a process with a parent. -/
structure Returned (k k' : Kernel) : Prop where
  ptr_ne : k.proc.currentPcbPtr ≠ 0
  child : k.currentPcb.parentProcessId ≠ -1
  handed : HandedOver k.proc.currentId k.proc.currentPcbPtr k.toParent k'

/-- The tail of `halt` after a restart that failed reads a parent no base shell has. -/
structure Stray (k : Kernel) : Prop where
  ptr_ne : k.proc.currentPcbPtr ≠ 0
  base : k.currentPcb.parentProcessId = -1
  parentPtr_ne : k.currentPcb.parentPtr ≠ 0

/-- What `halt_handler` can do. -/
theorem haltHandler_some {img : FsImage} {frame : Frame} {status : UInt8} {k k' : Kernel}
    {exit : Exit} (h : haltHandler img frame status k = some (k', exit)) :
    (∃ pid eip, exit = .iret eip newUserBottom ∧ Restarted k k' pid) ∨ Stray k ∨
      (∃ esp ebp eax, exit = .leave esp ebp eax ∧ Returned k k') := by
  unfold haltHandler at h
  dsimp only at h
  split at h
  next => cases h
  next hptr =>
    split at h
    next hbase =>
      split at h
      next => cases h
      next hexec =>
        rcases executeHandler_some hexec with ⟨_, _, hsame⟩ | ⟨_, pid, eip, he, _⟩
        · refine .inr (.inl ⟨hptr, hbase, ?_⟩)
          have hparent := (haltTail_some h).2.parentPtr_ne
          rw [hsame.proc] at hparent
          exact hparent
        · cases he
      next hreturns hexec =>
        obtain ⟨rfl⟩ := Option.some.inj h
        rcases executeHandler_some hexec with ⟨_, rfl, _⟩ | ⟨_, pid, eip, he, hstarted⟩
        · exact absurd rfl (hreturns k' (-1))
        · exact .inl ⟨pid, eip, he, hbase, frame, hstarted⟩
    next hchild =>
      obtain ⟨⟨esp, ebp, rfl⟩, handed⟩ := haltTail_some h
      exact .inr (.inr ⟨esp, ebp, _, rfl, hptr, hchild, handed⟩)

/-- A process with a parent that can be read has a halt that returns. -/
theorem haltHandler_child (img : FsImage) (frame : Frame) (status : UInt8) {k : Kernel}
    (hptr : k.proc.currentPcbPtr ≠ 0) (hchild : k.currentPcb.parentProcessId ≠ -1)
    (hparent : k.proc.pcbArr k.currentPcb.parentProcessId ≠ 0)
    (hlink : k.currentPcb.parentPtr ≠ 0) :
    ∃ k' esp ebp eax, haltHandler img frame status k = some (k', .leave esp ebp eax) := by
  simp only [Kernel.currentPcb, Proc.currentPcb] at hchild hparent hlink
  unfold haltHandler
  dsimp only
  rw [if_neg hptr, if_neg hchild]
  unfold haltTail
  dsimp only
  rw [if_neg (not_or.mpr ⟨hparent, hlink⟩)]
  exact ⟨_, _, _, _, rfl⟩

/-! ## Mapping the screen -/

/-- `vidmap` succeeded. -/
structure Mapped (k k' : Kernel) : Prop where
  ptr_ne : k.proc.currentPcbPtr ≠ 0
  proc : k'.proc =
    { (k.modifyPcb k.proc.currentPcbPtr ({ · with vidmapFlag := 1 })).proc with
      pidVidmapFlag := Function.update k.proc.pidVidmapFlag k.proc.currentId 1 }
  mmu : k'.mmu = k.mmu.setVideoMem oneThreeSixMb k.curVisTerm k.curExecuteTerm
  vis : k'.curVisTerm = k.curVisTerm
  exe : k'.curExecuteTerm = k.curExecuteTerm

/-- What `vidmap_handler` can do. -/
theorem vidmapHandler_some {screenStart : Nat} {k k' : Kernel} {eax : Int}
    (h : vidmapHandler screenStart k = some (k', eax)) :
    (eax = -1 ∧ k' = k) ∨ (eax = 0 ∧ Mapped k k') := by
  unfold vidmapHandler at h
  split at h
  next =>
    obtain ⟨rfl, rfl⟩ := Prod.mk.inj (Option.some.inj h)
    exact .inl ⟨rfl, rfl⟩
  next =>
    split at h
    next =>
      obtain ⟨rfl, rfl⟩ := Prod.mk.inj (Option.some.inj h)
      exact .inl ⟨rfl, rfl⟩
    next =>
      dsimp only at h
      unfold storeUser32 at h
      split at h
      next => cases h
      next k₁ hstore =>
        split at hstore
        · obtain rfl := (Option.some.inj hstore).symm
          dsimp only at h
          split at h
          next => cases h
          next hptr =>
            obtain ⟨rfl, rfl⟩ := Prod.mk.inj (Option.some.inj h)
            exact .inr ⟨rfl, ⟨hptr, rfl, rfl, rfl, rfl⟩⟩
        · cases hstore

/-- What a store through a pointer of the process's own leaves alone. -/
theorem storeUser32_some {addr value : Nat} {k k' : Kernel}
    (h : storeUser32 addr value k = some k') :
    k'.fs = k.fs ∧ k'.con = k.con ∧ ∀ a, a < k.mmu.userBase → k'.mem a = k.mem a := by
  unfold storeUser32 at h
  split at h
  next =>
    obtain rfl := Option.some.inj h
    refine ⟨rfl, rfl, fun a ha => ?_⟩
    dsimp only
    rw [if_neg (by omega)]
  next => cases h

/-- Where it comes back, it has gone by its range test. -/
theorem vidmapHandler_range {screenStart : Nat} {k k' : Kernel} {eax : Int}
    (h : vidmapHandler screenStart k = some (k', eax)) :
    eax = 0 ↔ 0x08000000 ≤ screenStart ∧ screenStart ≤ 0x08400000 := by
  unfold vidmapHandler at h
  by_cases hrange : 0x08000000 ≤ screenStart ∧ screenStart ≤ 0x08400000
  · rw [if_neg (by omega), if_neg (by omega)] at h
    dsimp only at h
    split at h
    next => cases h
    next =>
      split at h
      next => cases h
      next =>
        obtain ⟨-, rfl⟩ := Prod.mk.inj (Option.some.inj h)
        exact iff_of_true rfl hrange
  · have hrefused : some (k, (-1 : Int)) = some (k', eax) := by
      by_cases hnull : screenStart = 0
      · rwa [if_pos hnull] at h
      · rwa [if_neg hnull, if_pos (by omega)] at h
    obtain ⟨-, rfl⟩ := Prod.mk.inj (Option.some.inj hrefused)
    exact iff_of_false (by decide) hrange

/-- What `vidmap_handler` leaves alone, whatever it returns. -/
theorem vidmapHandler_frame {screenStart : Nat} {k k' : Kernel} {eax : Int}
    (h : vidmapHandler screenStart k = some (k', eax)) :
    k'.fs = k.fs ∧ k'.con = k.con ∧ ∀ a, a < k.mmu.userBase → k'.mem a = k.mem a := by
  unfold vidmapHandler at h
  split at h
  next =>
    obtain ⟨rfl, _⟩ := Prod.mk.inj (Option.some.inj h)
    exact ⟨rfl, rfl, fun _ _ => rfl⟩
  next =>
    split at h
    next =>
      obtain ⟨rfl, _⟩ := Prod.mk.inj (Option.some.inj h)
      exact ⟨rfl, rfl, fun _ _ => rfl⟩
    next =>
      dsimp only at h
      split at h
      next => cases h
      next k₁ hstore =>
        have hkept := storeUser32_some hstore
        split at h
        next => cases h
        next =>
          obtain ⟨rfl, _⟩ := Prod.mk.inj (Option.some.inj h)
          exact hkept

/-! ## Every process event -/

/-- What each event can have done: `procStep` read backwards. -/
inductive Outcome (img : FsImage) (k k' : Kernel) : ProcEvent → Prop
  | noShell {frame} : ¬ Launches img frame (bytes "shell") k → SameProcesses k k' →
      Outcome img k k' (.initShell frame)
  | shell {frame pid} : Launches img frame (bytes "shell") k → Started frame 0 (-1) k k' pid →
      Outcome img k k' (.initShell frame)
  | noChild {frame command} : ¬ LaunchesCommand img frame k command → SameProcesses k k' →
      Outcome img k k' (.execute frame command)
  | child {frame command pid} : LaunchesCommand img frame k command →
      Started frame (callerPtr k.proc) k.proc.currentId k k' pid →
      Outcome img k k' (.execute frame command)
  | restarted {frame status pid} : Restarted k k' pid → Outcome img k k' (.halt frame status)
  | stray {frame status} : Stray k → Outcome img k k' (.halt frame status)
  | returned {frame status} : Returned k k' → Outcome img k k' (.halt frame status)
  | notMapped {screenStart} : vidmapHandler screenStart k = some (k', -1) → k' = k →
      Outcome img k k' (.vidmap screenStart)
  | mapped {screenStart} : vidmapHandler screenStart k = some (k', 0) → Mapped k k' →
      Outcome img k k' (.vidmap screenStart)
  | unmapped : k' = k.undoVidmap → Outcome img k k' .undoVidmap
  | remapped {vis exe} : k' = k.switchTermVim vis exe → Outcome img k k' (.remap vis exe)
  | switched {vis exe} : k' = k.switchTerms vis exe → Outcome img k k' (.switchTerms vis exe)
  | scheduled {pid vis exe} : k.proc.Live pid →
      k' = ((k.makeCurrent pid).setPage pid).switchTerms vis exe →
      Outcome img k k' (.schedule pid vis exe)

theorem procStep_some {img : FsImage} {e : ProcEvent} {k k' : Kernel}
    (h : procStep img e k = some k') : Outcome img k k' e := by
  cases e with
  | initShell frame =>
    obtain ⟨⟨_, exit⟩, hcall, rfl⟩ := Option.map_eq_some_iff.mp h
    rcases initShell_some hcall with ⟨hno, _, hsame⟩ | ⟨hlaunch, pid, _, _, hstarted⟩
    · exact .noShell hno hsame
    · exact .shell hlaunch hstarted
  | execute frame command =>
    obtain ⟨⟨_, exit⟩, hcall, rfl⟩ := Option.map_eq_some_iff.mp h
    rcases executeHandler_some hcall with ⟨hno, _, hsame⟩ | ⟨hlaunch, pid, _, _, hstarted⟩
    · exact .noChild hno hsame
    · exact .child hlaunch hstarted
  | halt frame status =>
    obtain ⟨⟨_, exit⟩, hcall, rfl⟩ := Option.map_eq_some_iff.mp h
    rcases haltHandler_some hcall with ⟨pid, _, _, hnew⟩ | hstray | ⟨_, _, _, _, hback⟩
    · exact .restarted hnew
    · exact .stray hstray
    · exact .returned hback
  | vidmap screenStart =>
    obtain ⟨⟨_, eax⟩, hcall, rfl⟩ := Option.map_eq_some_iff.mp h
    rcases vidmapHandler_some hcall with ⟨rfl, hsame⟩ | ⟨rfl, hmapped⟩
    · exact .notMapped hcall hsame
    · exact .mapped hcall hmapped
  | undoVidmap => exact .unmapped (Option.some.inj h).symm
  | remap vis exe => exact .remapped (Option.some.inj h).symm
  | switchTerms vis exe => exact .switched (Option.some.inj h).symm
  | schedule pid vis exe =>
    simp only [procStep] at h
    split at h
    next hlive => exact .scheduled hlive (Option.some.inj h).symm
    next => cases h

end Mp3Kernel
