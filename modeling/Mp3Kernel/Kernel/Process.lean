import Mp3Kernel.Kernel.Descriptors

/-!
# Processes (`systemcall_handler.c`)

`execute`, `init_shell`, `halt`, `vidmap` and `getargs`. The PCB of a new process is built in
the caller's stack frame before it is copied to its place, so what the frame held is
an input, `Frame`. A call that the machine does not survive gives `none`: a store
past the end of a local array, a page fault taken in the kernel (`exception_handler`
never returns), or the use of a null PCB pointer.
-/

namespace Mp3Kernel

/-- The storage of `execute_handler` and `init_shell` that nothing has written yet, and
the two registers the call saves in its parent's PCB. -/
structure Frame where
  fileData : Buf
  fdArr : Int → FileD
  childPcb : Pcb
  ebp : Nat
  esp : Nat

/-- How control leaves a call: back to the caller, by the fake `iret` into a program, or
by `leave; ret` out of the parent's suspended `execute`. -/
inductive Exit
  | ret (eax : Int)
  | iret (eip esp : Nat)
  | leave (esp ebp : Nat) (eax : Int)
  deriving DecidableEq

/-! ## `execute` and `init_shell` -/

/-- "set process id": the first free pid from `i` on, with `n` left to try. -/
def findPid (idArray : Int → Int) : Nat → Int → Option Int
  | 0, _ => none
  | n + 1, i => if idArray i = 0 then some i else findPid idArray n (i + 1)

/-- The first scanning loop: the program's characters, and the command from the one that
stopped it. -/
def scanProgram : List UInt8 → List UInt8 × List UInt8
  | [] => ([], [])
  | c :: rest =>
    if c = blank ∨ c = newline ∨ c = 0 then ([], c :: rest)
    else (c :: (scanProgram rest).1, (scanProgram rest).2)

/-- The second scanning loop. -/
def skipSpaces : List UInt8 → List UInt8
  | [] => []
  | c :: rest => if c = blank then skipSpaces rest else c :: rest

/-- The third scanning loop: the argument's characters. -/
def scanArgument : List UInt8 → List UInt8
  | [] => []
  | c :: rest => if c = 0 ∨ c = newline then [] else c :: scanArgument rest

/-- The program and argument parts of a command. -/
def parseCommand (command : List UInt8) : List UInt8 × List UInt8 :=
  ((scanProgram command).1, scanArgument (skipSpaces (scanProgram command).2))

/-- Both parts and their terminators fit the 255-byte arrays. -/
def commandFits (command : List UInt8) : Prop :=
  (parseCommand command).1.length ≤ 254 ∧ (parseCommand command).2.length ≤ 254

instance (command : List UInt8) : Decidable (commandFits command) :=
  inferInstanceAs (Decidable (_ ∧ _))

/-- The ELF magic test. -/
def isExecutable (fileData : Buf) : Bool :=
  fileData 0 == 0x7F && fileData 1 == 0x45 && fileData 2 == 0x4C && fileData 3 == 0x46

/-- `entry`: bytes 24 to 27, little-endian. -/
def entryPoint (fileData : Buf) : Nat :=
  (fileData 24).toNat + 256 * (fileData 25).toNat + 65536 * (fileData 26).toNat
    + 16777216 * (fileData 27).toNat

/-- `KERNEL_DS`. -/
def kernelDs : Nat := 0x18

/-- `tss.esp0` for a pid. -/
def kernelStack (pid : Int) : Int := 0x800000 - 8192 * pid - 4

/-- `START_ADDR + FOUR_MEGABYTES - FOUR`. -/
def newUserBottom : Nat := 0x083FFFFC

/-- `id_array[pid] = v`. -/
def Proc.setId (pid v : Int) (p : Proc) : Proc :=
  { p with idArray := Function.update p.idArray pid v }

/-- `id_array[pid] = v`. -/
def Kernel.setId (pid v : Int) (k : Kernel) : Kernel := { k with proc := k.proc.setId pid v }

/-- "laoding": the program is copied to `0x08048000`, in the 4 MB page `set_page` has just
mapped. The page after it is not mapped, so a store past its end is a page fault. -/
def loadProgram (img : FsImage) (k : Kernel) : Option Kernel :=
  let base := k.mmu.userBase + 0x48000
  let t := executeRead img (fun i => k.mem (base + i)) 0x400000 k.fs
  if 0x48000 + t.bufIdx ≤ 0x400000 then
    some { k with
      mem := fun a => if base ≤ a ∧ a < base + t.bufIdx then t.buf (a - base) else k.mem a }
  else none

/-- `child_pcb`: the fields assigned, over what the frame held. -/
def newPcb (frame : Frame) (parentPtr parentProcessId : Int) (executeArg : Buf) : Pcb :=
  { frame.childPcb with
    parentPtr := parentPtr
    fdArray := fun fd =>
      if fd = 1 then ⟨stdinTable, 0, 0, 1⟩
      else if fd = 0 then ⟨stdoutTable, 0, 0, 1⟩
      else if 2 ≤ fd ∧ fd < 8 then { frame.fdArr fd with flags := 0 }
      else frame.childPcb.fdArray fd
    parentProcessId := parentProcessId
    vidmapFlag := 0
    executeArg := executeArg }

/-- From the TSS on: the PCB is copied to its place, the globals follow, and the parent's
registers are saved when there is a parent. -/
def Proc.enter (frame : Frame) (pid : Int) (child : Pcb) (p : Proc) : Proc :=
  let p :=
    { p with
      tssEsp0 := kernelStack pid
      tssSs0 := kernelDs
      pcbAt := Function.update p.pcbAt (pcbAddr pid) child
      pcbArr := Function.update p.pcbArr pid (pcbAddr pid)
      currentId := pid
      currentPcbPtr := pcbAddr pid }
  if child.parentPtr ≠ 0 then
    { p with
      pcbAt := Function.update p.pcbAt child.parentPtr
        { p.pcbAt child.parentPtr with ebpWhenExecute := frame.ebp, espWhenExecute := frame.esp } }
  else p

/-- What `execute_handler` and `init_shell` both do once the name is found: the EXE check,
paging, loading, and the new process. -/
def startProgram (img : FsImage) (frame : Frame) (pid : Int) (child : Pcb) (k : Kernel) :
    Option (Kernel × Exit) :=
  let fileData := (executeRead img frame.fileData 28 k.fs).buf
  if isExecutable fileData then
    match loadProgram img (k.setPage pid) with
    | none => none
    | some k =>
      some ({ k with proc := k.proc.enter frame pid child },
        .iret (entryPoint fileData) newUserBottom)
  else some (k.setId pid 0, .ret (-1))

/-- `execute_handler`; `none` for the command is the null pointer. -/
def executeHandler (img : FsImage) (frame : Frame) (command : Option (List UInt8)) (k : Kernel) :
    Option (Kernel × Exit) :=
  match command with
  | none => some (k, .ret (-1))
  | some command =>
    let parentPtr := if k.proc.currentId ≠ -1 then k.proc.pcbArr k.proc.currentId else 0
    match findPid k.proc.idArray maximumProcess 0 with
    | none => some (k, .ret (-1))
    | some pid =>
      let k := k.setId pid 1
      if ¬ commandFits command then none
      else
        let program := (parseCommand command).1
        let argument := (parseCommand command).2
        let r := readDentryByName img (cstr program) k
        if r.2 = -1 then some (r.1.setId pid 0, .ret (-1))
        else
          -- the bytes past the terminator are cleared by hand
          let executeArg : Buf := fun i =>
            if i < 255 then if i ≤ argument.length then cstr argument i else 0
            else frame.childPcb.executeArg i
          startProgram img frame pid (newPcb frame parentPtr k.proc.currentId executeArg) r.1

/-- `init_shell`: no parent, and no argument copied. -/
def initShell (img : FsImage) (frame : Frame) (k : Kernel) : Option (Kernel × Exit) :=
  match findPid k.proc.idArray maximumProcess 0 with
  | none => some (k, .ret (-1))
  | some pid =>
    let k := k.setId pid 1
    let r := readDentryByName img (cstr (bytes "shell")) k
    if r.2 = -1 then some (r.1.setId pid 0, .ret (-1))
    else startProgram img frame pid (newPcb frame 0 (-1) frame.childPcb.executeArg) r.1

/-! ## `halt` -/

/-- A change to the PCB at an address. -/
def Kernel.modifyPcb (addr : Int) (f : Pcb → Pcb) (k : Kernel) : Kernel :=
  { k with
    proc := { k.proc with pcbAt := Function.update k.proc.pcbAt addr (f (k.proc.pcbAt addr)) } }

/-- `term.pid` bookkeeping and the TSS, after the current process has been replaced. -/
def haltRelease (pid parentProcessId : Int) (k : Kernel) : Kernel :=
  { k with
    proc :=
      { k.proc with
        tssEsp0 := kernelStack parentProcessId
        tssSs0 := kernelDs
        idArray := Function.update k.proc.idArray pid 0
        pcbArr := Function.update k.proc.pcbArr pid 0
        termPidArray := Function.update k.proc.termPidArray k.curExecuteTerm parentProcessId
        currExecutePidPcb :=
          Function.update k.proc.currExecutePidPcb (termSlot k.curExecuteTerm)
            k.proc.currentPcbPtr } }

/-- The video page of a process that called `vidmap` is taken away. -/
def haltVidmap (pid currPcb : Int) (k : Kernel) : Kernel :=
  if (k.proc.pcbAt currPcb).vidmapFlag = 1 then
    let k := k.undoVidmap.modifyPcb currPcb ({ · with vidmapFlag := 0 })
    { k with
      proc := { k.proc with pidVidmapFlag := Function.update k.proc.pidVidmapFlag pid 0 } }
  else k

/-- One turn of the closing loop. `close` works on `current_pcb_ptr`, not on `curr_pcb`. -/
def haltCloseSlot (currPcb : Int) (k : Kernel) (fd : Nat) : Kernel :=
  if fd = 0 ∨ fd = 1 then
    k.modifyPcb currPcb fun pcb =>
      { pcb with
        fdArray := Function.update pcb.fdArray fd { pcb.fdArray fd with flags := 0 } }
  else (closeCall fd k).1

/-- The closing loop. -/
def haltClose (currPcb : Int) (k : Kernel) : Kernel :=
  (List.range 8).foldl (haltCloseSlot currPcb) k

/-- `halt_handler` from "set tss esp0" on. It ends by reading the parent's saved registers,
and `close` reads the current PCB, so neither pointer may be null. -/
def haltTail (pid currPcb status : Int) (k : Kernel) : Option (Kernel × Exit) :=
  let pcb := k.proc.pcbAt currPcb
  if k.proc.currentPcbPtr = 0 ∨ pcb.parentPtr = 0 then none
  else
    let k := (haltRelease pid pcb.parentProcessId k).setPage pcb.parentProcessId
    let k := haltClose currPcb (haltVidmap pid currPcb k)
    let parent := k.proc.pcbAt pcb.parentPtr
    some (k, .leave parent.espWhenExecute parent.ebpWhenExecute status)

/-- `halt_handler`. A base shell is replaced by `execute_handler`, which only returns when
it fails. -/
def haltHandler (img : FsImage) (frame : Frame) (status : UInt8) (k : Kernel) :
    Option (Kernel × Exit) :=
  let p := k.proc
  let pid := p.currentId
  let currPcb := p.currentPcbPtr
  if currPcb = 0 then none
  else
    let statusReturn : Int := if p.globalFlagException = 1 then 256 else status.toNat
    let p :=
      { p with
        globalFlagException := if p.globalFlagException = 1 then 0 else p.globalFlagException }
    let parentId := (p.pcbAt currPcb).parentProcessId
    if parentId = -1 then
      let p :=
        { p with
          idArray := Function.update p.idArray pid 0
          pcbArr := Function.update p.pcbArr pid 0
          currentId := -1 }
      match executeHandler img frame (some (bytes "shell")) { k with proc := p } with
      | none => none
      | some (k, .ret _) => haltTail pid currPcb statusReturn k
      | some r => some r
    else
      let p := { p with currentId := parentId, currentPcbPtr := p.pcbArr parentId }
      haltTail pid currPcb statusReturn { k with proc := p }

/-! ## `vidmap` -/

/-- `ONE_THREE_SIX_MB`. -/
def oneThreeSixMb : Nat := 0x08800000

/-- A 32-bit store through a pointer into the user page. Past its end nothing is mapped. -/
def storeUser32 (addr value : Nat) (k : Kernel) : Option Kernel :=
  if addr + 4 ≤ 0x08400000 then
    let base := k.mmu.userBase + (addr - 0x08000000)
    some { k with
      mem := fun a =>
        if base ≤ a ∧ a < base + 4 then UInt8.ofNat (value / Nat.pow 256 (a - base)) else k.mem a }
  else none

/-- `vidmap_handler`. -/
def vidmapHandler (screenStart : Nat) (k : Kernel) : Option (Kernel × Int) :=
  if screenStart = 0 then some (k, -1)
  else if screenStart < 0x08000000 ∨ screenStart > 0x08400000 then some (k, -1)
  else
    let p := k.proc
    let k :=
      { k with
        proc := { p with pidVidmapFlag := Function.update p.pidVidmapFlag p.currentId 1 } }
    match storeUser32 screenStart oneThreeSixMb k with
    | none => none
    | some k =>
      if k.proc.currentPcbPtr = 0 then none
      else
        some ((k.modifyPcb k.proc.currentPcbPtr ({ · with vidmapFlag := 1 })).setVideoMem
          oneThreeSixMb, 0)

/-! ## `getargs` -/

/-- The copying loop of `getargs_handler`, at turn `i` with `n` turns left: the argument, and
zeros past the end of its array. -/
def copyArg (executeArg : Buf) : Nat → Nat → Buf → Buf
  | 0, _, buf => buf
  | n + 1, i, buf =>
    copyArg executeArg n (i + 1) (Function.update buf i (if i < 255 then executeArg i else 0))

/-- `getargs_handler`: the buffer after it, and the result. The terminator goes where the loop
stopped, which is the buffer's first byte when no turn was made. -/
def getargsHandler (buf : Option Buf) (nbytes : Int) (k : Kernel) : Option Buf × Int :=
  match buf with
  | none => (none, -1)
  | some b =>
    let executeArg := k.currentPcb.executeArg
    if executeArg 0 = 0 ∨ nbytes < 0 then (some b, -1)
    else
      let turns := (nbytes - 1).toNat
      (some (Function.update (copyArg executeArg turns 0 b) turns 0), 0)

end Mp3Kernel
