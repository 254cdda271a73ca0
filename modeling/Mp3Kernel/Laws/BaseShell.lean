import Mp3Kernel.Laws.Executables

/-!
# The two ways to start a base shell

`init_shell` starts one at boot and `execute` restarts one when it halts, as no process is
current then. The two are one function of their stack frame and of the argument they leave in
the PCB (`launchShell`), and differ in this argument alone: `execute` writes all of it, and
`init_shell` copies whatever the frame held. What the frame tells besides is the header of a
file that is shorter than one.
-/

namespace Mp3Kernel

/-! ## What it is for two starts to agree -/

/-- Two descriptor slots no call can tell apart: what a closed one holds is never read. -/
def FileD.Alike (a b : FileD) : Prop := a.flags = b.flags ∧ (a.flags ≠ 0 → a = b)

/-- Two new base shells whose PCBs hold the same. -/
structure Pcb.SameShell (a b : Pcb) : Prop where
  parents : a.parentProcessId = -1 ∧ b.parentProcessId = -1
  links : a.parentPtr = b.parentPtr
  slots : ∀ fd, 0 ≤ fd → fd < 8 → (a.fdArray fd).Alike (b.fdArray fd)
  flags : a.vidmapFlag = b.vidmapFlag
  args : ∀ i < 255, a.executeArg i = b.executeArg i

/-- Two machines that have each just started a base shell, and the same one. -/
structure SameShell (k₁ k₂ : Kernel) : Prop where
  ids : k₁.proc.idArray = k₂.proc.idArray
  arr : k₁.proc.pcbArr = k₂.proc.pcbArr
  current : k₁.proc.currentId = k₂.proc.currentId
  ptr : k₁.proc.currentPcbPtr = k₂.proc.currentPcbPtr
  page : k₁.mmu.pageDirectory 32 = k₂.mmu.pageDirectory 32
  tss : k₁.proc.tssEsp0 = k₂.proc.tssEsp0 ∧ k₁.proc.tssSs0 = k₂.proc.tssSs0
  image : k₁.mem = k₂.mem
  pcb : k₁.currentPcb.SameShell k₂.currentPcb

/-- Both calls fail and leave the processes of `k` as they were, or both start the same shell
at the same place. A call that faults has nothing to agree on but that the other does. -/
def ShellsAgree (k : Kernel) : Option (Kernel × Exit) → Option (Kernel × Exit) → Prop
  | none, none => True
  | some (k₁, .ret eax₁), some (k₂, .ret eax₂) =>
    (eax₁ = -1 ∧ k₁.proc = k.proc) ∧ eax₂ = -1 ∧ k₂.proc = k.proc
  | some (k₁, .iret eip₁ esp₁), some (k₂, .iret eip₂ esp₂) =>
    (eip₁ = eip₂ ∧ esp₁ = esp₂) ∧ SameShell k₁ k₂
  | _, _ => False

/-- Two such shells answer `getargs` alike. -/
theorem SameShell.getargs {k₁ k₂ : Kernel} (h : SameShell k₁ k₂) (buf : Option Buf)
    (nbytes : Int) : getargsHandler buf nbytes k₁ = getargsHandler buf nbytes k₂ := by
  have hcopy : ∀ n i b, copyArg k₁.currentPcb.executeArg n i b =
      copyArg k₂.currentPcb.executeArg n i b := by
    intro n
    induction n with
    | zero => exact fun _ _ => rfl
    | succ n ih =>
      intro i b
      have hbyte : (if i < 255 then k₁.currentPcb.executeArg i else 0) =
          if i < 255 then k₂.currentPcb.executeArg i else 0 := by
        split
        next hi => exact h.pcb.args i hi
        next => rfl
      rw [copyArg, copyArg, hbyte, ih]
  cases buf with
  | none => rfl
  | some b => simp only [getargsHandler, h.pcb.args 0 (by omega), hcopy]

/-! ## One function -/

/-- A base shell started on a stack frame, with what becomes its argument. -/
def launchShell (img : FsImage) (frame : Frame) (executeArg : Buf) (k : Kernel) :
    Option (Kernel × Exit) :=
  match findPid k.proc.idArray maximumProcess 0 with
  | none => some (k, .ret (-1))
  | some pid =>
    let r := readDentryByName img (cstr (bytes "shell")) (k.setId pid 1)
    if r.2 = -1 then some (r.1.setId pid 0, .ret (-1))
    else startProgram img frame pid (newPcb frame 0 (-1) executeArg) r.1

theorem initShell_eq (img : FsImage) (frame : Frame) (k : Kernel) :
    initShell img frame k = launchShell img frame frame.childPcb.executeArg k := rfl

/-- What `execute` stores for a command with no argument. -/
def Frame.noArgument (frame : Frame) : Buf := fun i =>
  if i < 255 then 0 else frame.childPcb.executeArg i

theorem executeHandler_shell (img : FsImage) (frame : Frame) {k : Kernel}
    (base : k.proc.currentId = -1) :
    executeHandler img frame (some (bytes "shell")) k =
      launchShell img frame frame.noArgument k := by
  have hparse : parseCommand (bytes "shell") = (bytes "shell", []) := by decide
  have hfits : commandFits (bytes "shell") := by decide
  have harg : (fun i => if i < 255 then if i ≤ ([] : List UInt8).length then cstr [] i else 0
      else frame.childPcb.executeArg i) = frame.noArgument := by
    funext i
    unfold Frame.noArgument
    split
    · split <;> rfl
    · rfl
  unfold executeHandler launchShell
  dsimp only
  cases findPid k.proc.idArray maximumProcess 0 with
  | none => rfl
  | some pid =>
    have hcur : (k.setId pid 1).proc.currentId = -1 := base
    dsimp only
    rw [if_neg (not_not.mpr hfits), hparse, harg, base, hcur, if_neg (not_not.mpr rfl)]

/-! ## What it does -/

/-- How far a transfer is: where it reads and writes, and what is left. -/
def Transfer.progress (t : Transfer) : Nat × Nat × Int := (t.bufIdx, t.curByte, t.totalBytes)

theorem Transfer.copyByte_progress {data : Buf} {i : Nat} {t u : Transfer}
    (h : t.progress = u.progress) :
    (t.copyByte data i).progress = (u.copyByte data i).progress := by
  simp only [progress, Prod.mk.injEq] at h
  obtain ⟨hidx, hbyte, htotal⟩ := h
  simp only [progress, copyByte, hidx, hbyte, htotal]

/-- The inner loop runs as far whatever the buffer holds. -/
theorem Transfer.copyBlock_progress {data : Buf} {i n j : Nat} {t u : Transfer}
    (h : t.progress = u.progress) :
    (copyBlock data i n j t).progress = (copyBlock data i n j u).progress := by
  induction n generalizing j t u with
  | zero => exact h
  | succ n ih =>
    have hone : (t.copyByte data i).progress = (u.copyByte data i).progress :=
      copyByte_progress h
    have hbyte : (t.copyByte data i).curByte = (u.copyByte data i).curByte := congrArg (·.2.1) hone
    unfold copyBlock
    dsimp only
    by_cases hend : (u.copyByte data i).curByte = 4096
    · rw [if_pos hend, if_pos (hbyte.trans hend)]
      simp only [progress, Prod.mk.injEq] at hone ⊢
      exact ⟨hone.1, trivial, by rw [hone.2.2]⟩
    · rw [if_neg hend, if_neg (hbyte ▸ hend)]
      exact ih hone

/-- The outer loop runs as far whatever the buffer holds. -/
theorem Transfer.copyBlocks_progress {img : FsImage} {inode : Inode} {n i : Nat} {t u : Transfer}
    (h : t.progress = u.progress) :
    (copyBlocks img inode n i t).progress = (copyBlocks img inode n i u).progress := by
  induction n generalizing i t u with
  | zero => exact h
  | succ n ih =>
    have htotal : t.totalBytes = u.totalBytes := congrArg (·.2.2) h
    unfold copyBlocks
    rw [htotal]
    exact ih (copyBlock_progress h)

theorem executeRead_bufIdx (img : FsImage) (a b : Buf) (nbytes : Int) (v : FsVars) :
    (executeRead img a nbytes v).bufIdx = (executeRead img b nbytes v).bufIdx := by
  have hstart : ∀ img inode n i c m,
      (Transfer.copyBlocks img inode n i ⟨a, 0, c, m, [], []⟩).progress =
        (Transfer.copyBlocks img inode n i ⟨b, 0, c, m, [], []⟩).progress := fun _ _ _ _ _ _ =>
    Transfer.copyBlocks_progress rfl
  exact congrArg Prod.fst (hstart _ _ _ _ _ _)

section Launch

variable {img : FsImage} {frame : Frame} {k : Kernel} (executeArg : Buf)

/-- The first bytes of the program, as the EXE check and the entry point read them: past the
end of a shorter file they are the frame's. -/
def shellHeader (img : FsImage) (frame : Frame) (k : Kernel) : Buf :=
  (executeRead img frame.fileData 28 (readDentryByName img (cstr (bytes "shell")) k).1.fs).buf

/-- The program, copied to its place, ends within its page. -/
def ShellFits (img : FsImage) (k : Kernel) : Prop :=
  0x48000 + (executeRead img (fun _ => 0) 0x400000
    (readDentryByName img (cstr (bytes "shell")) k).1.fs).bufIdx ≤ 0x400000

instance (img : FsImage) (k : Kernel) : Decidable (ShellFits img k) :=
  inferInstanceAs (Decidable (_ ≤ _))

/-- The state in which `pid` has been claimed and the shell looked up. -/
def claimed (img : FsImage) (k : Kernel) (pid : Int) : Kernel :=
  (readDentryByName img (cstr (bytes "shell")) (k.setId pid 1)).1

/-- The new shell takes over from a state in which its program is loaded. -/
def Kernel.enterShell (frame : Frame) (pid : Int) (executeArg : Buf) (k : Kernel) : Kernel :=
  { k with proc := k.proc.enter frame pid (newPcb frame 0 (-1) executeArg) }

theorem claimed_proc (img : FsImage) {pid : Int}
    (hpid : findPid k.proc.idArray maximumProcess 0 = some pid) :
    ((claimed img k pid).setId pid 0).proc = k.proc := by
  unfold claimed Kernel.setId
  dsimp only
  rw [readDentryByName_proc]
  exact Proc.setId_setId (findPid_maximum hpid).2 1

/-- A start in which a pid is free. -/
theorem launchShell_eq {pid : Int} (hpid : findPid k.proc.idArray maximumProcess 0 = some pid) :
    launchShell img frame executeArg k =
      if (readDentryByName img (cstr (bytes "shell")) k).2 = -1 then
        some ((claimed img k pid).setId pid 0, .ret (-1))
      else if isExecutable (shellHeader img frame k) then
        (loadProgram img ((claimed img k pid).setPage pid)).map fun k' =>
          (k'.enterShell frame pid executeArg,
            .iret (entryPoint (shellHeader img frame k)) newUserBottom)
      else some ((claimed img k pid).setId pid 0, .ret (-1)) := by
  have hheader : (executeRead img frame.fileData 28 (claimed img k pid).fs).buf =
      shellHeader img frame k := by
    unfold claimed shellHeader
    rw [lookup_setId_fs]
  unfold launchShell
  rw [hpid]
  dsimp only
  rw [readDentryByName_found img _ (k.setId pid 1) k]
  refine if_congr Iff.rfl rfl ?_
  show startProgram img frame pid _ (claimed img k pid) = _
  unfold startProgram
  dsimp only
  rw [hheader]
  split
  next => cases loadProgram img ((claimed img k pid).setPage pid) <;> rfl
  next => rfl

/-- A start that checks refuse. -/
theorem launchShell_refused (h : ¬ Launches img frame (bytes "shell") k) :
    ∃ k', launchShell img frame executeArg k = some (k', .ret (-1)) ∧ k'.proc = k.proc := by
  cases hpid : findPid k.proc.idArray maximumProcess 0 with
  | none =>
    refine ⟨k, ?_, rfl⟩
    unfold launchShell
    rw [hpid]
  | some pid =>
    refine ⟨(claimed img k pid).setId pid 0, ?_, claimed_proc img hpid⟩
    rw [launchShell_eq executeArg hpid]
    split
    next => rfl
    next hknown =>
      rw [if_neg]
      intro helf
      have := readDentryByName_result img (cstr (bytes "shell")) k
      exact h ⟨by rw [hpid]; rfl, by omega, helf⟩

/-- The program is loaded just when it fits. -/
theorem loadProgram_isSome (img : FsImage) (k : Kernel) (pid : Int) :
    (loadProgram img ((claimed img k pid).setPage pid)).isSome ↔ ShellFits img k := by
  have hfs : ((claimed img k pid).setPage pid).fs =
      (readDentryByName img (cstr (bytes "shell")) k).1.fs := lookup_setId_fs img _ k pid 1
  unfold loadProgram ShellFits
  dsimp only
  rw [hfs, executeRead_bufIdx img _ (fun _ => 0)]
  split
  next fits => exact ⟨fun _ => fits, fun _ => rfl⟩
  next fits => exact ⟨(nomatch ·), fun h => absurd h fits⟩

/-- A start that checks let through, with what it loads the same for every frame. -/
theorem launchShell_loads (img : FsImage) (k : Kernel) :
    ∃ (pid : Int) (k₁ : Kernel), ∀ frame executeArg, Launches img frame (bytes "shell") k →
      launchShell img frame executeArg k =
        if ShellFits img k then
          some (k₁.enterShell frame pid executeArg,
            .iret (entryPoint (shellHeader img frame k)) newUserBottom)
        else none := by
  cases hpid : findPid k.proc.idArray maximumProcess 0 with
  | none =>
    refine ⟨0, k, fun _ _ h => ?_⟩
    have := h.1
    rw [hpid] at this
    cases this
  | some pid =>
    have hfits := loadProgram_isSome img k pid
    have hstart : ∀ frame executeArg, Launches img frame (bytes "shell") k →
        launchShell img frame executeArg k =
          (loadProgram img ((claimed img k pid).setPage pid)).map fun k' =>
            (k'.enterShell frame pid executeArg,
              .iret (entryPoint (shellHeader img frame k)) newUserBottom) := by
      rintro frame executeArg ⟨_, hname, helf⟩
      rw [launchShell_eq executeArg hpid, if_neg (by omega)]
      exact if_pos helf
    cases hload : loadProgram img ((claimed img k pid).setPage pid) with
    | none =>
      rw [hload] at hfits
      refine ⟨0, k, fun frame executeArg h => ?_⟩
      rw [hstart frame executeArg h, hload, if_neg fun fits => nomatch hfits.mpr fits]
      rfl
    | some k₁ =>
      rw [hload] at hfits
      refine ⟨pid, k₁, fun frame executeArg h => ?_⟩
      rw [hstart frame executeArg h, hload, if_pos (hfits.mp rfl)]
      rfl

end Launch

/-! ## When they agree -/

section Agree

variable {img : FsImage} {f₁ f₂ : Frame} {k : Kernel}

/-- Two PCBs built for a shell on two frames, with the same argument. -/
theorem newPcb_sameShell {arg₁ arg₂ : Buf} (same : ∀ i < 255, arg₁ i = arg₂ i) :
    (newPcb f₁ 0 (-1) arg₁).SameShell (newPcb f₂ 0 (-1) arg₂) where
  parents := ⟨rfl, rfl⟩
  links := rfl
  slots := by
    intro fd lo hi
    by_cases h1 : fd = 1
    · subst h1
      exact ⟨rfl, fun _ => rfl⟩
    · by_cases h0 : fd = 0
      · subst h0
        exact ⟨rfl, fun _ => rfl⟩
      · have hrest : 2 ≤ fd ∧ fd < 8 := by omega
        simp [newPcb, h1, h0, hrest, FileD.Alike]
  flags := rfl
  args := same

/-- A process without a parent enters with nothing written but its own PCB. -/
theorem enter_base (frame : Frame) (pid : Int) (arg : Buf) (p : Proc) :
    p.enter frame pid (newPcb frame 0 (-1) arg) =
      { p with
        tssEsp0 := kernelStack pid
        tssSs0 := kernelDs
        pcbAt := Function.update p.pcbAt (pcbAddr pid) (newPcb frame 0 (-1) arg)
        pcbArr := Function.update p.pcbArr pid (pcbAddr pid)
        currentId := pid
        currentPcbPtr := pcbAddr pid } := by
  unfold Proc.enter
  exact if_neg (not_not.mpr rfl)

/-- Two starts from one loaded state are the same shell just when the argument is. -/
theorem sameShell_iff {pid : Int} {arg₁ arg₂ : Buf} (k : Kernel) :
    SameShell (k.enterShell f₁ pid arg₁) (k.enterShell f₂ pid arg₂) ↔
      ∀ i < 255, arg₁ i = arg₂ i := by
  have hpcb : ∀ f arg, (k.enterShell f pid arg).currentPcb = newPcb f 0 (-1) arg := by
    intro f arg
    rw [Kernel.currentPcb, Kernel.enterShell, enter_base]
    exact Function.update_self _ _ _
  constructor
  · intro h
    have hargs := h.pcb.args
    rwa [hpcb, hpcb] at hargs
  · intro same
    refine ⟨?_, ?_, ?_, ?_, rfl, ⟨?_, ?_⟩, rfl, ?_⟩
    iterate 6 rw [Kernel.enterShell, Kernel.enterShell, enter_base, enter_base]
    · rw [hpcb, hpcb]
      exact newPcb_sameShell same

end Agree

/-- Two such starts agree just when both frames pass the checks or neither does and, where both do
and the program is loaded, both read one entry point and the first one's argument is empty. -/
theorem launchShell_agree_iff (img : FsImage) (f₁ f₂ : Frame) (k : Kernel) :
    ShellsAgree k (launchShell img f₁ f₁.childPcb.executeArg k)
        (launchShell img f₂ f₂.noArgument k) ↔
      (Launches img f₁ (bytes "shell") k ↔ Launches img f₂ (bytes "shell") k) ∧
        (Launches img f₁ (bytes "shell") k → ShellFits img k →
          entryPoint (shellHeader img f₁ k) = entryPoint (shellHeader img f₂ k) ∧
            ∀ i < 255, f₁.childPcb.executeArg i = 0) := by
  have hzero : (∀ i < 255, f₁.childPcb.executeArg i = f₂.noArgument i) ↔
      ∀ i < 255, f₁.childPcb.executeArg i = 0 := by
    refine forall₂_congr fun i hi => ?_
    rw [Frame.noArgument, if_pos hi]
  obtain ⟨pid, k₁, hloads⟩ := launchShell_loads img k
  by_cases h₁ : Launches img f₁ (bytes "shell") k
  · rw [hloads f₁ _ h₁]
    by_cases h₂ : Launches img f₂ (bytes "shell") k
    · rw [hloads f₂ _ h₂]
      by_cases fits : ShellFits img k
      · rw [if_pos fits, if_pos fits]
        simp only [ShellsAgree, sameShell_iff, hzero, h₁, h₂, fits, and_true, true_and,
          forall_const]
      · rw [if_neg fits, if_neg fits]
        simp [ShellsAgree, h₁, h₂, fits]
    · obtain ⟨k₂, hcall, _⟩ := launchShell_refused f₂.noArgument h₂
      rw [hcall]
      split
      · simp [ShellsAgree, h₁, h₂]
      · simp [ShellsAgree, h₁, h₂]
  · obtain ⟨k₂, hcall, hproc⟩ := launchShell_refused f₁.childPcb.executeArg h₁
    rw [hcall]
    by_cases h₂ : Launches img f₂ (bytes "shell") k
    · rw [hloads f₂ _ h₂]
      split
      · simp [ShellsAgree, h₁, h₂]
      · simp [ShellsAgree, h₁, h₂]
    · obtain ⟨k₃, hcall', hproc'⟩ := launchShell_refused f₂.noArgument h₂
      rw [hcall']
      simp [ShellsAgree, h₁, h₂, hproc, hproc']

/-- The checks that a base shell has to pass: a pid is free, and the first file of its name has
the header of an ELF file, for the part that the file is too short for in the frame. -/
def ShellStarts (img : FsImage) (frame : Frame) (k : Kernel) : Prop :=
  (findPid k.proc.idArray maximumProcess 0).isSome ∧
    ∃ j, img.First (bytes "shell") j ∧ isExecutable (headerBytes img j frame.fileData) = true

theorem shell_line : Field.Holds 0 (cstr (bytes "shell")) (bytes "shell") ∧
    newline ∉ bytes "shell" :=
  ⟨Field.holds_getD (by decide +kernel), by decide +kernel⟩

/-- They are those that the code makes. -/
theorem launches_shell_iff (img : FsImage) (frame : Frame) (k : Kernel) :
    Launches img frame (bytes "shell") k ↔ ShellStarts img frame k := by
  have hcheck := fun eip =>
    @checkProgram_some_iff img (bytes "shell") shell_line.1 shell_line.2 frame.fileData k eip
  have hresult := readDentryByName_result img (cstr (bytes "shell")) k
  refine and_congr_right fun _ => ?_
  unfold checkProgram at hcheck
  dsimp only at hcheck
  constructor
  · rintro ⟨hname, helf⟩
    obtain ⟨j, hfirst, hpasses, -⟩ :=
      (hcheck _).mp ((if_neg (by omega)).trans (if_pos helf))
    exact ⟨j, hfirst, hpasses⟩
  · rintro ⟨j, hfirst, hpasses⟩
    have hsome := (hcheck _).mpr ⟨j, hfirst, hpasses, rfl⟩
    split at hsome
    next => cases hsome
    next hname =>
      split at hsome
      next helf => exact ⟨by omega, helf⟩
      next => cases hsome

section Closed

variable {img : FsImage} {k : Kernel} {j : Nat}

theorem shell_lastDentry (first : img.First (bytes "shell") j) :
    (readDentryByName img (cstr (bytes "shell")) k).1.fs.lastDentry = some j := by
  have hknown := (knownEntry_line shell_line.1 shell_line.2).mpr first
  rw [(readDentryByName_known img _ hknown k).2]

theorem shellHeader_eq (first : img.First (bytes "shell") j) (frame : Frame) :
    shellHeader img frame k = headerBytes img j frame.fileData :=
  executeRead_header (shell_lastDentry first) frame.fileData

/-- The program fits when it is shorter than 952 blocks, and a file of no length always does. -/
theorem shellFits_iff (first : img.First (bytes "shell") j) :
    ShellFits img k ↔ img.fileLength j < 0x3B8000 := by
  have hlast := @shell_lastDentry img k j first
  unfold ShellFits
  by_cases hneg : img.fileLength j < 0
  · rw [executeRead_negative hlast hneg (by decide)]
    exact iff_of_true (show 0x48000 + 0 ≤ 0x400000 by decide) (by omega)
  · obtain ⟨m, hm⟩ :=
      Int.eq_ofNat_of_zero_le (show 0 ≤ min 0x400000 (img.fileLength j) by omega)
    rw [(executeRead_copied hlast hm.symm (by omega)).bufIdx]
    have hpage := storedBytes_le_page m
    omega

end Closed

/-- With no process current, `init_shell` and `execute` of "shell" agree, whatever their two
frames hold, just when both frames pass the checks or neither does and, where both do and the
program is short enough for its page, both read one entry point and the argument array in
`init_shell`'s frame is zero. -/
theorem shells_agree_iff (img : FsImage) (f₁ f₂ : Frame) {k : Kernel}
    (base : k.proc.currentId = -1) :
    ShellsAgree k (initShell img f₁ k) (executeHandler img f₂ (some (bytes "shell")) k) ↔
      (ShellStarts img f₁ k ↔ ShellStarts img f₂ k) ∧
        ∀ j, img.First (bytes "shell") j → ShellStarts img f₁ k → img.fileLength j < 0x3B8000 →
          entryPoint (headerBytes img j f₁.fileData) = entryPoint (headerBytes img j f₂.fileData) ∧
            ∀ i < 255, f₁.childPcb.executeArg i = 0 := by
  rw [initShell_eq, executeHandler_shell img f₂ base, launchShell_agree_iff, launches_shell_iff,
    launches_shell_iff]
  refine and_congr_right fun _ => ⟨fun h j first starts short => ?_, fun h starts fits => ?_⟩
  · have hstart := h starts ((shellFits_iff first).mpr short)
    rwa [shellHeader_eq first, shellHeader_eq first] at hstart
  · obtain ⟨j, first, -⟩ := starts.2
    rw [shellHeader_eq first, shellHeader_eq first]
    exact h j first starts ((shellFits_iff first).mp fits)

/-- A stack frame of zeros but for the argument array, which an earlier call left. -/
def staleFrame : Frame :=
  { zeroFrame with childPcb := { zeroFrame.childPcb with executeArg := fun _ => 97 } }

/-- The first shell from a clean stack, and one restarted from a stale one. -/
theorem shells_agree_clean :
    ShellsAgree coldBoot (initShell shellImage zeroFrame coldBoot)
      (executeHandler shellImage staleFrame (some (bytes "shell")) coldBoot) :=
  (shells_agree_iff shellImage zeroFrame staleFrame rfl).mpr
    ⟨Iff.rfl, fun _ _ _ _ => ⟨rfl, fun _ _ => rfl⟩⟩

/-- The first shell from a stale stack has an argument nobody gave it. -/
theorem shells_disagree_stale :
    ¬ ShellsAgree coldBoot (initShell shellImage staleFrame coldBoot)
      (executeHandler shellImage zeroFrame (some (bytes "shell")) coldBoot) := by
  rintro ⟨_, same⟩
  have harg : (97 : UInt8) = 0 := same.pcb.args 0 (by omega)
  cases harg

end Mp3Kernel
