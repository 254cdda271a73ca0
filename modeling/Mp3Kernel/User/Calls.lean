import Mp3Kernel.Laws.Calls
import Mp3Kernel.Lib.Interaction

/-!
# Programs and their system calls (`ece391syscall.h`, `ece391support.c`)

A program makes its calls to the kernel and nothing else, so it is a tree of calls. It is one
process among others: before each of its calls the kernel may have served any calls of other
processes, and the scheduler and the terminal switch may have run, until the process was current
again. A string is followed over no more than the address space of `2^32` bytes.
-/

namespace Mp3Kernel.User

open Interaction (Program)

/-! ## System calls (`ece391syscall.h`) -/

inductive Call
  | openFile (filename : Buf)
  | read (fd : Int) (buf : Buf) (nbytes : Int)
  | write (fd : Int) (buf : Buf) (nbytes : Int)
  | close (fd : Int)
  | getargs (buf : Buf) (nbytes : Int)

/-- What a call gives back; two of them store in the buffer as well. -/
abbrev Call.Answer : Call → Type
  | .read _ _ _ | .getargs _ _ => Buf × Int
  | .openFile _ | .write _ _ _ | .close _ => Int

abbrev UserProgram := Program Call Call.Answer

def ece391Open (filename : Buf) : UserProgram Int := .call (.openFile filename) .done

def ece391Read (fd : Int) (buf : Buf) (nbytes : Int) : UserProgram (Buf × Int) :=
  .call (.read fd buf nbytes) .done

def ece391Write (fd : Int) (buf : Buf) (nbytes : Int) : UserProgram Int :=
  .call (.write fd buf nbytes) .done

def ece391Close (fd : Int) : UserProgram Int := .call (.close fd) .done

def ece391Getargs (buf : Buf) (nbytes : Int) : UserProgram (Buf × Int) :=
  .call (.getargs buf nbytes) .done

/-! ## Strings (`ece391support.c`) -/

/-- `buf + n`. -/
def plus (buf : Buf) (n : Nat) : Buf := fun i => buf (n + i)

/-- Memory once what was passed as `buf + n` has become `out`. -/
def setPlus (buf : Buf) (n : Nat) (out : Buf) : Buf := fun i => if i < n then buf i else out (i - n)

/-- The loop of `ece391_strlen`. -/
def strlenFrom (s : Buf) : Nat → Nat → Nat
  | 0, len => len
  | n + 1, len => if s len = 0 then len else strlenFrom s n (len + 1)

/-- `ece391_strlen`. -/
def ece391Strlen (s : Buf) : Nat := strlenFrom s 4294967296 0

/-- The loop of `ece391_strcpy`, at byte `i`. -/
def strcpyFrom (dst src : Nat) : Nat → Nat → Buf → Buf
  | 0, _, m => m
  | n + 1, i, m =>
    let c := m (src + i)
    let m := Function.update m (dst + i) c
    if c = 0 then m else strcpyFrom dst src n (i + 1) m

/-- `ece391_strcpy`, of two places of one memory. -/
def ece391Strcpy (dst src : Nat) (m : Buf) : Buf := strcpyFrom dst src 4294967296 0 m

/-- The loop of `ece391_strncmp`, at byte `i` with `n` left. -/
def strncmpFrom (s1 s2 : Buf) : Nat → Nat → Int
  | 0, _ => 0
  | n + 1, i =>
    if s1 i = s2 i then if s1 i = 0 ∨ n = 0 then 0 else strncmpFrom s1 s2 n (i + 1)
    else (s1 i).toNat - (s2 i).toNat

/-- `ece391_strncmp`. -/
def ece391Strncmp (s1 s2 : Buf) (n : Nat) : Int := strncmpFrom s1 s2 n 0

/-- `ece391_fdputs`. -/
def ece391Fdputs (fd : Int) (s : Buf) : UserProgram Unit := do
  let _ ← ece391Write fd s (ece391Strlen s)
  pure ()

/-! ## One process among others -/

/-- The kernel's answer to a call of the current process. -/
def answer (img : FsImage) (term : TerminalDriver) : (c : Call) → Kernel → Kernel × c.Answer
  | .openFile filename, k => openCall img (some filename) k
  | .read fd buf nbytes, k =>
    let r := readCall img term fd (some buf) nbytes k
    (r.1, r.2.1.getD buf, r.2.2)
  | .write fd buf nbytes, k => writeCall term fd (some buf) nbytes k
  | .close fd, k => closeCall fd k
  | .getargs buf nbytes, k =>
    let r := getargsHandler (some buf) nbytes k
    (k, r.1.getD buf, r.2)

/-- What happens while a process waits for its turn: no call of its own. -/
def byOthers (pid : Int) (k : Kernel) (e : ProcEvent ⊕ FdEvent) : Prop :=
  callsLeaf k e ∧
    match e with
    | .inl (.execute _ _) | .inl (.halt _ _) | .inl (.vidmap _) | .inr _ =>
      k.proc.currentId ≠ pid
    | .inl _ => True

/-- The kernel as the process `pid` sees it, where the others do only what is admitted. -/
def machine (img : FsImage) (term : TerminalDriver) (pid : Int)
    (admits : Kernel → ProcEvent ⊕ FdEvent → Prop) :
    Interaction.Machine Call Call.Answer Kernel where
  rely k k' := Runs.Reach (sysStep img term) (fun k e => byOthers pid k e ∧ admits k e) k k' ∧
    k'.proc.currentId = pid
  act c k := if k.proc.currentPcbPtr = 0 then none else some (answer img term c k)

/-- What a call puts on the screen. -/
def shownBy : Interaction.Event Call Call.Answer → List UInt8
  | ⟨.write fd buf nbytes, _⟩ => if fd = 1 then (List.range nbytes.toNat).map buf else []
  | _ => []

/-- What calls put on the screen. -/
def shown (calls : List (Interaction.Event Call Call.Answer)) : List UInt8 := calls.flatMap shownBy

end Mp3Kernel.User
