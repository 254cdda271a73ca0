import Mp3Kernel.Kernel.FileSystem
import Mp3Kernel.Kernel.Rtc

/-!
# The descriptor calls (`open`, `read`, `write`, `close`)

Each call repeats its own range and flag test and then goes through the slot's
operations table. `terminal_read` and `terminal_write` are in a file the repository
does not hold: they are a parameter, `TerminalDriver`, and what the descriptor
table relies on is named by `TerminalDriver.KeepsProcesses`.
-/

namespace Mp3Kernel

/-- `terminal.c`, which is not in the repository. -/
structure TerminalDriver where
  terminalRead : Buf → Int → Kernel → Kernel × Buf × Int
  terminalWrite : Buf → Int → Kernel → Kernel × Int

/-- What the process code relies on: the terminal driver writes no PCB and none of the
process globals. -/
structure TerminalDriver.KeepsProcesses (term : TerminalDriver) : Prop where
  read : ∀ buf nbytes k, (term.terminalRead buf nbytes k).1.proc = k.proc
  write : ∀ buf nbytes k, (term.terminalWrite buf nbytes k).1.proc = k.proc

section Calls

variable (img : FsImage) (term : TerminalDriver)

/-- A call through `file_op_table.open`. -/
def callOpen (f : OpenFn) (filename : Buf) (k : Kernel) : Kernel × Int :=
  match f with
  | .dirOpen => (k, 0)
  | .fileOpen => fileOpen img filename k
  | .badcallOpen => (k, -1)
  | .rtcOpen => k.rtcOpen

/-- A call through `file_op_table.read`. -/
def callRead (f : ReadFn) (fd : Int) (buf : Buf) (nbytes : Int) (k : Kernel) :
    Kernel × Buf × Int :=
  match f with
  | .dirRead => dirRead img buf nbytes k
  | .fileRead => fileRead img fd buf nbytes k
  | .badcallRead => (k, buf, -1)
  | .terminalRead => term.terminalRead buf nbytes k
  | .rtcRead => (k.rtcRead.1, buf, k.rtcRead.2)

/-- A call through `file_op_table.write`. -/
def callWrite (f : WriteFn) (buf : Buf) (nbytes : Int) (k : Kernel) : Kernel × Int :=
  match f with
  | .dirWrite => (k, -1)
  | .fileWrite => (k, -1)
  | .badcallWrite => (k, -1)
  | .terminalWrite => term.terminalWrite buf nbytes k
  | .rtcWrite => k.rtcWrite buf

/-- The slot search of `open`, at `index` with `n` indices left below 8: `none` is the
early return on a full table. -/
def findSlot (fdArray : Int → FileD) : Nat → Int → Option Int
  | 0, index => some index
  | n + 1, index =>
    if (fdArray index).flags = 1 ∧ index = 7 then none
    else if (fdArray index).flags = 0 then some index
    else findSlot fdArray n (index + 1)

/-- The slot `open` fills in, by the type of the entry found. -/
def openedSlot (d : Dentry) : FileD :=
  if d.type = 0 then ⟨rtcTable, 0, 0, 1⟩
  else if d.type = 1 then ⟨dirTable, 0, 0, 1⟩
  else ⟨fileTable, d.inodeIdx, 0, 1⟩

/-- `open`; `none` is the null pointer. -/
def openCall (filename : Option Buf) (k : Kernel) : Kernel × Int :=
  match filename with
  | none => (k, -1)
  | some filename =>
    match findSlot k.currentPcb.fdArray 6 2 with
    | none => (k, -1)
    | some index =>
      let r := readDentryByName img filename k
      if r.2 ≠ 0 then (r.1, -1)
      else
        let slot := openedSlot (img.dentry (r.1.fs.lastDentry.getD 0))
        let k := r.1.modifyFd index fun _ => slot
        ((callOpen img slot.fileOpTable.openFn filename k).1, index)

/-- The range and flag test of `read` and `write`. -/
def badFd (fd : Int) (k : Kernel) : Prop :=
  fd < 0 ∨ fd > 7 ∨ (k.currentPcb.fdArray fd).flags = 0

instance (fd : Int) (k : Kernel) : Decidable (badFd fd k) :=
  inferInstanceAs (Decidable (fd < 0 ∨ fd > 7 ∨ (k.currentPcb.fdArray fd).flags = 0))

/-- `read`; a null buffer is `none`, and comes back so. -/
def readCall (fd : Int) (buf : Option Buf) (nbytes : Int) (k : Kernel) :
    Kernel × Option Buf × Int :=
  match buf with
  | none => (k, none, -1)
  | some b =>
    if badFd fd k then (k, buf, -1)
    else
      let r := callRead img term (k.currentPcb.fdArray fd).fileOpTable.readFn fd b nbytes k
      (r.1, some r.2.1, r.2.2)

/-- `write`. -/
def writeCall (fd : Int) (buf : Option Buf) (nbytes : Int) (k : Kernel) : Kernel × Int :=
  match buf with
  | none => (k, -1)
  | some b =>
    if badFd fd k then (k, -1)
    else callWrite term (k.currentPcb.fdArray fd).fileOpTable.writeFn b nbytes k

/-- `close`. The call through `file_op_table.close` is left out: its result is dropped, and
no driver's close does anything. -/
def closeCall (fd : Int) (k : Kernel) : Kernel × Int :=
  if fd < 2 ∨ fd > 7 ∨ (k.currentPcb.fdArray fd).flags = 0 then (k, -1)
  else (k.modifyFd fd ({ · with flags := 0 }), 0)

end Calls

end Mp3Kernel
