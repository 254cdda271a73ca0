import Mp3Kernel.Kernel.Process
import Mp3Kernel.Lib.Run

/-!
# The kernel as a machine

The calls that reach the modelled code, as events. `ProcEvent` is the process calls
together with what the scheduler and the terminal switch do, whose files the repository
does not hold: they choose a process or a pair of terminals and call `set_page` and
`switch_term_vim` for them. `FdEvent` is the descriptor calls. An event that the
machine does not survive has no successor.
-/

namespace Mp3Kernel

/-- A pid in the process table. -/
def ValidPid (pid : Int) : Prop := 0 ≤ pid ∧ pid < 6

instance (pid : Int) : Decidable (ValidPid pid) := inferInstanceAs (Decidable (_ ∧ _))

/-- `id_array[pid] == 1`, for a pid of the table. -/
def Proc.Live (p : Proc) (pid : Int) : Prop := ValidPid pid ∧ p.idArray pid = 1

instance (p : Proc) (pid : Int) : Decidable (p.Live pid) := inferInstanceAs (Decidable (_ ∧ _))

/-- The PCB slot of a pid. -/
def Proc.pcb (p : Proc) (pid : Int) : Pcb := p.pcbAt (pcbAddr pid)

inductive ProcEvent
  | initShell (frame : Frame)
  | execute (frame : Frame) (command : Option (List UInt8))
  | halt (frame : Frame) (status : UInt8)
  | vidmap (screenStart : Nat)
  | undoVidmap
  /-- `switch_term_vim` on any two terminals. -/
  | remap (visTerm exeTerm : Int)
  /-- The two terminals change, and `switch_term_vim(cur_vis_term, cur_execute_term)`. -/
  | switchTerms (visTerm exeTerm : Int)
  /-- The scheduler makes a process current, on the terminal it runs on. -/
  | schedule (pid visTerm exeTerm : Int)

/-- What the scheduler does to make `pid` current. -/
def Kernel.makeCurrent (pid : Int) (k : Kernel) : Kernel :=
  { k with
    proc :=
      { k.proc with
        currentId := pid
        currentPcbPtr := k.proc.pcbArr pid
        tssEsp0 := kernelStack pid } }

/-- The two terminals change, and the screen is remapped for them. -/
def Kernel.switchTerms (visTerm exeTerm : Int) (k : Kernel) : Kernel :=
  { k with curVisTerm := visTerm, curExecuteTerm := exeTerm }.switchTermVim visTerm exeTerm

/-- One process event. -/
def procStep (img : FsImage) (e : ProcEvent) (k : Kernel) : Option Kernel :=
  match e with
  | .initShell frame => (initShell img frame k).map Prod.fst
  | .execute frame command => (executeHandler img frame command k).map Prod.fst
  | .halt frame status => (haltHandler img frame status k).map Prod.fst
  | .vidmap screenStart => (vidmapHandler screenStart k).map Prod.fst
  | .undoVidmap => some k.undoVidmap
  | .remap visTerm exeTerm => some (k.switchTermVim visTerm exeTerm)
  | .switchTerms visTerm exeTerm => some (k.switchTerms visTerm exeTerm)
  | .schedule pid visTerm exeTerm =>
    if k.proc.Live pid then
      some (((k.makeCurrent pid).setPage pid).switchTerms visTerm exeTerm)
    else none

inductive FdEvent
  | openFile (filename : Option Buf)
  | read (fd : Int) (buf : Option Buf) (nbytes : Int)
  | write (fd : Int) (buf : Option Buf) (nbytes : Int)
  | close (fd : Int)

/-- One descriptor event: the state after it. -/
def fdStep (img : FsImage) (term : TerminalDriver) (e : FdEvent) (k : Kernel) : Kernel :=
  match e with
  | .openFile filename => (openCall img filename k).1
  | .read fd buf nbytes => (readCall img term fd buf nbytes k).1
  | .write fd buf nbytes => (writeCall term fd buf nbytes k).1
  | .close fd => (closeCall fd k).1

/-- Any system call; a descriptor call with no current process is a null dereference. -/
def sysStep (img : FsImage) (term : TerminalDriver) (e : ProcEvent ⊕ FdEvent) (k : Kernel) :
    Option Kernel :=
  match e with
  | .inl e => procStep img e k
  | .inr e => if k.proc.currentPcbPtr = 0 then none else some (fdStep img term e k)

/-! ## Where runs start -/

/-- The page tables before `paging_init`: nothing in them, and two tables apart. -/
structure Mmu.Clear (m : Mmu) : Prop where
  directory : ∀ i < 1024, (m.pageDirectory i).present = 0 ∧ (m.pageDirectory i).uS = 0
  vidmap : ∀ i < 1024, (m.pageTableVidmap i).present = 0 ∧ (m.pageTableVidmap i).uS = 0
  indices : m.vidmapPdIdx = 0 ∧ m.vidmapPtIdx = 0 ∧ m.userVimPdIdx = 0 ∧ m.userVimPtIdx = 0
  frames : m.pageTableFrame ≠ m.pageTableVidmapFrame

/-- The state `entry` leaves before the first shell: globals as the loader cleared them, and
paging initialised. -/
structure Booted (k : Kernel) : Prop where
  ids : ∀ pid, ValidPid pid → k.proc.idArray pid = 0
  pcbs : ∀ pid, ValidPid pid → k.proc.pcbArr pid = 0
  flags : ∀ pid, ValidPid pid → k.proc.pidVidmapFlag pid = 0
  current : k.proc.currentId = -1 ∧ k.proc.currentPcbPtr = 0
  paging : ∃ m : Mmu, m.Clear ∧ k.mmu = m.pagingInit
  terms : k.curVisTerm = 0 ∧ k.curExecuteTerm = 0

/-! ## A machine to boot -/

/-- A program that is its ELF header alone, with entry point `0x08048018`. -/
def elfHeader : List UInt8 :=
  [0x7F, 0x45, 0x4C, 0x46] ++ List.replicate 20 0 ++ [0x18, 0x80, 0x04, 0x08]

/-- An image that holds that program, as "shell". -/
def shellImage : FsImage where
  boot := ⟨1, 1, 1⟩
  dentry := fun _ => ⟨cstr (bytes "shell"), 2, 0⟩
  inode := fun _ => ⟨28, fun _ => 0⟩
  data := fun _ => cstr elfHeader

/-- A stack frame of zeros. -/
def zeroFrame : Frame where
  fileData := fun _ => 0
  fdArr := fun _ => ⟨fileTable, 0, 0, 0⟩
  childPcb := ⟨fun _ => ⟨fileTable, 0, 0, 0⟩, 0, 0, 0, 0, fun _ => 0, 0⟩
  ebp := 0
  esp := 0

/-- A machine just booted, with every other global zero. -/
def coldBoot : Kernel where
  proc :=
    { idArray := fun _ => 0, pidVidmapFlag := fun _ => 0, currentId := -1, currentPcbPtr := 0,
      pcbArr := fun _ => 0, pcbAt := fun _ => zeroFrame.childPcb, tssEsp0 := 0, tssSs0 := 0,
      globalFlagException := 0, termPidArray := fun _ => 0, currExecutePidPcb := fun _ => 0 }
  mmu :=
    Mmu.pagingInit
      { pageDirectory := fun _ => ⟨0, 0, 0, 0, 0, 0, 0, 0, 0, 0, 0⟩, pageTable := fun _ => .zero,
        pageTableVidmap := fun _ => .zero, vidmapPdIdx := 0, vidmapPtIdx := 0, vimPtIdx := 0,
        userVimPtIdx := 0, userVimPdIdx := 0, pageTableFrame := 0x500,
        pageTableVidmapFrame := 0x501 }
  fs := ⟨0, none, none, 0, fun _ => 0⟩
  con := ⟨0, 0, fun _ => 0, fun _ => 0⟩
  kbd := ⟨0, 0, 0, fun _ => ⟨fun _ => 0, fun _ => 0, 0, 0⟩, fun _ => 0⟩
  rtc := ⟨fun _ => 0, fun _ => 0⟩
  mem := fun _ => 0
  curVisTerm := 0
  curExecuteTerm := 0

/-- Terminal 1's shell runs, and terminal 0 is shown. -/
def backgroundShell : Kernel :=
  { coldBoot with
    proc :=
      { coldBoot.proc with
        idArray := Function.update coldBoot.proc.idArray 0 1
        currentId := 0
        currentPcbPtr := pcbAddr 0 }
    mmu := (coldBoot.mmu.setPage 0).switchTermVim 0 0 1
    curExecuteTerm := 1 }

theorem backgroundShell_settled :
    (backgroundShell.switchTermVim 0 1).mmu = backgroundShell.mmu :=
  (coldBoot.mmu.setPage 0).switchTermVim_again 0 0 1 0 1

/-- A terminal driver that has nothing to read and accepts what is written. -/
def quietTerminal : TerminalDriver where
  terminalRead := fun buf _ k => (k, buf, 0)
  terminalWrite := fun _ nbytes k => (k, nbytes)

theorem quietTerminal_keeps : quietTerminal.KeepsProcesses := ⟨fun _ _ _ => rfl, fun _ _ _ => rfl⟩

theorem coldBoot_booted : Booted coldBoot where
  ids := fun _ _ => rfl
  pcbs := fun _ _ => rfl
  flags := fun _ _ => rfl
  current := ⟨rfl, rfl⟩
  paging := by
    refine ⟨_, ⟨fun _ _ => ⟨rfl, rfl⟩, fun _ _ => ⟨rfl, rfl⟩, ⟨rfl, rfl, rfl, rfl⟩, ?_⟩, rfl⟩
    exact Nat.succ_ne_self 0x500 ∘ Eq.symm
  terms := ⟨rfl, rfl⟩

end Mp3Kernel
