import Mp3Kernel.Kernel.Process

/-!
# Calls on a process's own memory

The system calls that neither wait nor leave the process that makes them, with their buffers
where that process keeps them: in its 4 MB page, or in the video page `vidmap` gave it. A
buffer that runs out of these pages is a page fault, and the call has no result.
-/

namespace Mp3Kernel

namespace Kernel

/-- A pointer of the current process, as a buffer. -/
def userBuf (va : Nat) (k : Kernel) : Buf := fun i =>
  match k.mmu.userAddr (va + i) with
  | some a => k.mem a
  | none => 0

/-- One byte stored through a pointer of the current process. -/
def storeByte (m : Mmu) (va : Nat) (out : Buf) (mem : Nat → UInt8) (i : Nat) : Nat → UInt8 :=
  match m.userAddr (va + i) with
  | some a => Function.update mem a (out i)
  | none => mem

/-- The first `n` bytes of a buffer stored through a pointer of the current process. -/
def storeUser (va n : Nat) (out : Buf) (k : Kernel) : Option Kernel :=
  if ∀ i < n, (k.mmu.userAddr (va + i)).isSome then
    some { k with mem := (List.range n).foldl (storeByte k.mmu va out) k.mem }
  else none

end Kernel

/-- The bytes that `read` stores, through the drivers that are in the repository. -/
def readExtent (img : FsImage) (fd : Int) (buf : Buf) (nbytes : Int) (k : Kernel) : Nat :=
  if badFd fd k then 0
  else
    match (k.currentPcb.fdArray fd).fileOpTable.readFn with
    | .dirRead => if k.fs.dirOpenFileIdx < img.boot.numEntry then min 32 nbytes.toNat else 0
    | .fileRead => (fileReadTransfer img (k.currentPcb.fdArray fd) buf nbytes).bufIdx
    | .badcallRead | .terminalRead | .rtcRead => 0

/-- The bytes that `getargs` stores when it succeeds. -/
def getargsExtent (nbytes : Int) : Nat := (nbytes - 1).toNat + 1

inductive UserCall
  | openFile (filename : Option Buf)
  | read (fd : Int) (buf : Option Nat) (nbytes : Int)
  | close (fd : Int)
  | getargs (buf : Option Nat) (nbytes : Int)
  | vidmap (screenStart : Nat)
  | execute (frame : Frame) (command : Option (List UInt8))

/-- A call, and what it returns to the process. An `execute` that starts a program does not
return here. -/
def userCall (img : FsImage) (term : TerminalDriver) (c : UserCall) (k : Kernel) :
    Option (Kernel × Int) :=
  match c with
  | .openFile filename => some (openCall img filename k)
  | .read fd none nbytes =>
    let r := readCall img term fd none nbytes k
    some (r.1, r.2.2)
  | .read fd (some va) nbytes =>
    let buf := k.userBuf va
    let r := readCall img term fd (some buf) nbytes k
    (r.1.storeUser va (readExtent img fd buf nbytes k) (r.2.1.getD buf)).map fun k => (k, r.2.2)
  | .close fd => some (closeCall fd k)
  | .getargs none nbytes => some (k, (getargsHandler none nbytes k).2)
  | .getargs (some va) nbytes =>
    let buf := k.userBuf va
    let r := getargsHandler (some buf) nbytes k
    if r.2 = 0 then
      (k.storeUser va (getargsExtent nbytes) (r.1.getD buf)).map fun k => (k, r.2)
    else some (k, r.2)
  | .vidmap screenStart => vidmapHandler screenStart k
  | .execute frame command =>
    match executeHandler img frame command k with
    | some (k, .ret eax) => some (k, eax)
    | _ => none

end Mp3Kernel
