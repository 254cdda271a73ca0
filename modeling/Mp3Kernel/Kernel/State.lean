import Mathlib.Logic.Function.Basic

/-!
# The kernel's data

Every global the modelled functions read or write, under the source's words
and grouped by the file that declares it. An array is a total function of its
index: an index past the end reads whatever lies there, which is what the
machine does, and no proof may assume what that is. A `pcb_t*` is the address
it holds, so `NULL` is `0` and two pointers are compared as numbers.

Integers are `Int` where the source's type is signed or where the source
relies on the conversion between the two (`parent_process_id` is declared
`uint32_t` and compared with `-1`), and `Nat` elsewhere; `i32` and `u32` are
the two conversions, written wherever a value can leave its range.

Hardware side effects with no state of their own here are not modelled: port
output (`outb`, `send_eoi`, `update_cursor`), `cli`/`sti` and the CR3 reload.
-/

namespace Mp3Kernel

/-! ## Machine integers -/

/-- The `int32_t` with the same 32 bits as `x`. -/
def i32 (x : Int) : Int := Int.bmod x 4294967296

/-- The `uint32_t` with the same 32 bits as `x`. -/
def u32 (x : Int) : Nat := (x % 4294967296).toNat

/-- The `int8_t` with the bits of a byte. -/
def i8 (b : UInt8) : Int := Int.bmod b.toNat 256

/-- In range, the signed conversion changes nothing. -/
theorem i32_of_range {x : Int} (lo : -2147483648 ≤ x) (hi : x < 2147483648) : i32 x = x := by
  unfold i32
  rw [Int.bmod_def]
  split <;> omega

/-- In range, the unsigned conversion changes nothing. -/
theorem u32_of_range {x : Int} (lo : 0 ≤ x) (hi : x < 4294967296) : (u32 x : Int) = x := by
  unfold u32
  omega

theorem i32_natCast {n : Nat} (h : n < 2147483648) : i32 (n : Int) = n :=
  i32_of_range (by omega) (by omega)

theorem u32_natCast {n : Nat} (h : n < 4294967296) : u32 (n : Int) = n := by
  unfold u32
  omega

/-- The bytes of a string, as the compiler lays a literal out (its terminator apart). -/
def bytes (s : String) : List UInt8 := s.toList.map fun c => UInt8.ofNat c.toNat

/-- What a pointer into memory sees: the byte at each offset from it. -/
abbrev Buf := Nat → UInt8

/-- A NUL-terminated string in memory, read through its pointer. -/
def cstr (s : List UInt8) : Buf := fun i => s.getD i 0

/-! ## The file-system image (`filesystem.h`) -/

/-- `dentry_t`: a directory entry; its name has 32 bytes and no terminator of its own. -/
structure Dentry where
  name : Buf
  type : Nat
  inodeIdx : Nat

/-- `boot_t`. -/
structure Boot where
  numEntry : Nat
  numInode : Nat
  numDatablock : Nat

/-- `inode_t`: `data_add` has 1023 slots; a larger index reads the words after them. -/
structure Inode where
  length : Int
  dataAdd : Nat → Nat

/-- The image the boot loader hands over. It is never written, and every pointer
into it is one of its tables at an index, so the tables are kept apart. -/
structure FsImage where
  boot : Boot
  dentry : Nat → Dentry
  inode : Nat → Inode
  data : Nat → Buf

/-- The globals of `filesystem.c`; a `dentry_t*` is `NULL` or `den_ptr` plus an index. -/
structure FsVars where
  lastRead : Int
  lastDentry : Option Nat
  tempDentry : Option Nat
  dirOpenFileIdx : Nat
  nameForNull : Buf

/-! ## Processes (`systemcall_handler.h`) -/

/-- The functions an operations table names under `open`. -/
inductive OpenFn
  | dirOpen | fileOpen | badcallOpen | rtcOpen
  deriving DecidableEq

/-- The functions an operations table names under `read`. -/
inductive ReadFn
  | dirRead | fileRead | badcallRead | terminalRead | rtcRead
  deriving DecidableEq

/-- The functions an operations table names under `write`. -/
inductive WriteFn
  | dirWrite | fileWrite | badcallWrite | terminalWrite | rtcWrite
  deriving DecidableEq

/-- The functions an operations table names under `close`. -/
inductive CloseFn
  | dirClose | fileClose | badcallClose | rtcClose
  deriving DecidableEq

/-- `file_op_t`. -/
structure FileOp where
  openFn : OpenFn
  readFn : ReadFn
  writeFn : WriteFn
  closeFn : CloseFn
  deriving DecidableEq

def dirTable : FileOp := ⟨.dirOpen, .dirRead, .dirWrite, .dirClose⟩

def fileTable : FileOp := ⟨.fileOpen, .fileRead, .fileWrite, .fileClose⟩

def stdinTable : FileOp := ⟨.badcallOpen, .badcallRead, .terminalWrite, .badcallClose⟩

def stdoutTable : FileOp := ⟨.badcallOpen, .terminalRead, .badcallWrite, .badcallClose⟩

def rtcTable : FileOp := ⟨.rtcOpen, .rtcRead, .rtcWrite, .rtcClose⟩

/-- `file_d_t`: one descriptor slot. -/
structure FileD where
  fileOpTable : FileOp
  inode : Nat
  filePosition : Nat
  flags : Nat
  deriving DecidableEq

/-- `pcb_t`. -/
structure Pcb where
  fdArray : Int → FileD
  ebpWhenExecute : Nat
  espWhenExecute : Nat
  parentProcessId : Int
  parentPtr : Int
  executeArg : Buf
  vidmapFlag : Nat

/-- `MAXIMUM_PROCESS`. -/
def maximumProcess : Nat := 6

/-- `EIGHT_MEGABYTES - EIGHT_KILOBYTES * (pid + 1)`: where the PCB of `pid` is kept. -/
def pcbAddr (pid : Int) : Int := 0x800000 - 8192 * (pid + 1)

/-- The globals of `systemcall_handler.c`, the two TSS fields the kernel changes,
and what `halt` writes for the scheduler. `pcbAt` is the kernel memory PCBs are kept
in, by address. -/
structure Proc where
  idArray : Int → Int
  pidVidmapFlag : Int → Int
  currentId : Int
  currentPcbPtr : Int
  pcbArr : Int → Int
  pcbAt : Int → Pcb
  tssEsp0 : Int
  tssSs0 : Nat
  globalFlagException : Nat
  termPidArray : Int → Int
  currExecutePidPcb : Nat → Int

/-- `*current_pcb_ptr`. -/
def Proc.currentPcb (p : Proc) : Pcb := p.pcbAt p.currentPcbPtr

/-! ## Page tables (`x86_desc.h`, `paging.c`) -/

/-- `pt_entry`. -/
structure PtEntry where
  present : Nat
  rW : Nat
  uS : Nat
  pwt : Nat
  pcd : Nat
  accessed : Nat
  dirty : Nat
  pat : Nat
  globalBit : Nat
  avail : Nat
  pageBaseAddr : Nat
  deriving DecidableEq

/-- `pd_entry`: the bits both arms of the union share, and the upper twenty as the
`k` arm reads them (`pt_addr`). -/
structure PdEntry where
  present : Nat
  rW : Nat
  uS : Nat
  pwt : Nat
  pcd : Nat
  accessed : Nat
  dirty : Nat
  pageSize : Nat
  globalBit : Nat
  avail : Nat
  ptAddr : Nat
  deriving DecidableEq

/-- The upper twenty bits of the `m` arm: `pat`, `reserved` and `page_base_addr`. -/
def upperM (pat reserved pageBaseAddr : Nat) : Nat :=
  pat % 2 + 2 * (reserved % 512) + 1024 * (pageBaseAddr % 1024)

/-- `page_base_addr` of the `m` arm. -/
def PdEntry.pageBaseAddr (e : PdEntry) : Nat := e.ptAddr / 1024 % 1024

/-- The page tables and the index globals of `paging.c`; the two frames are where the
linker put `page_table` and `page_table_vidmap`. -/
structure Mmu where
  pageDirectory : Nat → PdEntry
  pageTable : Nat → PtEntry
  pageTableVidmap : Nat → PtEntry
  vidmapPdIdx : Nat
  vidmapPtIdx : Nat
  vimPtIdx : Nat
  userVimPtIdx : Nat
  userVimPdIdx : Nat
  pageTableFrame : Nat
  pageTableVidmapFrame : Nat

/-! ## Console, keyboard and RTC (`lib.c`, `keyboard.c`, `rtc.c`) -/

/-- The suffix, less one, that the chains on `cur_execute_term` pick: `0`, `1`, and
anything else the third. -/
def termSlot (term : Int) : Nat := if term = 0 then 0 else if term = 1 then 1 else 2

/-- The cursors of `lib.c`: `screen_x`, `screen_y`, and `screen_x1` .. `screen_y3`
by slot. -/
structure Console where
  screenX : Int
  screenY : Int
  screenXT : Nat → Int
  screenYT : Nat → Int

/-- One terminal's globals of `keyboard.c`: `key_bufN`, `line_bufN`, `curr_idxN` and
`read_flagN`. The index is tested before it is decremented, so it stays a `Nat`. -/
structure LineVars where
  keyBuf : Buf
  lineBuf : Buf
  currIdx : Nat
  readFlag : Int

/-- The globals of `keyboard.c`, and `terminal_enabledN` of the terminal driver. -/
structure Keyboard where
  scac : UInt8
  capslockHoldon : Int
  capsState : Int
  line : Nat → LineVars
  terminalEnabled : Nat → Int

/-- The counters of `rtc.c`, by slot. -/
structure Rtc where
  rtcItrRec : Nat → Int
  virCounter : Nat → Int

/-! ## The kernel -/

/-- The whole state. `mem` is physical memory outside the kernel's own data: the text
pages and the user frames. -/
structure Kernel where
  proc : Proc
  mmu : Mmu
  fs : FsVars
  con : Console
  kbd : Keyboard
  rtc : Rtc
  mem : Nat → UInt8
  curVisTerm : Int
  curExecuteTerm : Int

/-- `*current_pcb_ptr`. -/
def Kernel.currentPcb (k : Kernel) : Pcb := k.proc.currentPcb

end Mp3Kernel
