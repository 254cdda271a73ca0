import Mp3Kernel.Kernel.SystemCall
import Mp3Kernel.Kernel.Wrappers

/-!
# System calls in user programs (`ece391syscall.S`)

`DO_CALL`, which all the stubs are made from, and `_start`. A stub's `int $0x80` goes through
the table into `system_call` and comes back with its `iret`; `ret` is then the stub's own.
-/

namespace Mp3Kernel

open X86

/-- `DO_CALL` as far as `int $0x80`. -/
def doCall (number : Word) : List FrameOp :=
  [.op (.pushl .ebx), .op (.movl (.imm number) .eax), .loadl 8 .esp .ebx, .loadl 12 .esp .ecx,
    .loadl 16 .esp .edx]

/-- The numbers of `ece391sysnum.h`. -/
def sysHalt : Word := 1

def sysExecute : Word := 2

def sysRead : Word := 3

def sysWrite : Word := 4

def sysOpen : Word := 5

def sysClose : Word := 6

def sysGetargs : Word := 7

def sysVidmap : Word := 8

def sysSetHandler : Word := 9

def sysSigreturn : Word := 10

/-- The stubs, with the handlers in the kernel that they are for. -/
def stubs : List (Word × Handler) :=
  [(sysHalt, .haltHandler), (sysExecute, .executeHandler), (sysRead, .readFd),
    (sysWrite, .writeFd), (sysOpen, .openFile), (sysClose, .closeFd), (sysGetargs, .getargsHandler),
    (sysVidmap, .vidmapHandler), (sysSetHandler, .setHandlerHandler),
    (sysSigreturn, .sigreturnHandler)]

/-- The machine when a stub has come to `int $0x80`, with the address of what follows it. -/
def atInt (number next : Word) (m : Machine) : Machine :=
  { m with cpu := (doCall number).foldl execFrame m.cpu, eip := next }

/-- A kernel: where its routines are, what the table held before `idt_init`, the stack that the
running process has there, and its handlers. -/
structure Entrance where
  address : Routine → Word
  idt : Nat → IdtDesc
  inner : InnerStack
  callee : Handler → Cpu → Cpu
  back : List (Instr WrapLabel Handler) → Word

/-- The machine that an `int $0x80` comes to, if it is let through. -/
def Entrance.entered (e : Entrance) (m : Machine) : Option Machine :=
  interrupt (idtInit e.address e.idt) e.inner systemCallVector (some (level m.cs)) [] m

/-- `int $0x80` gets into the kernel, and a handler is called. -/
def Entrance.Calls (e : Entrance) (m : Machine) (h : Handler) (entry : Cpu) : Prop :=
  ∃ entered rest, e.entered m = some entered ∧ entered.eip = e.address .systemCall ∧
    Reaches (wrapEnv e.callee e.back) (systemCall entered.cpu)
      ⟨e.callee h entry, rest, [(h, entry)]⟩

/-- `int $0x80` gets into the kernel and back, with some calls made there. -/
def Entrance.Returns (e : Entrance) (m : Machine) (calls : List (Handler × Cpu)) (m' : Machine) :
    Prop :=
  ∃ entered t rest, e.entered m = some entered ∧ entered.eip = e.address .systemCall ∧
    Reaches (wrapEnv e.callee e.back) (systemCall entered.cpu) ⟨t, .iret :: rest, calls⟩ ∧
    m' = ({ entered with cpu := t } : Machine).iret

/-- A whole stub, from its first instruction to its `ret`. -/
def Entrance.Stub (e : Entrance) (number next : Word) (m : Machine)
    (calls : List (Handler × Cpu)) (m' : Machine) : Prop :=
  ∃ u, e.Returns (atInt number next m) calls u ∧ u.eip = next ∧
    m' = ({ u with cpu := exec u.cpu (.popl .ebx) } : Machine).ret

/-- The functions that `_start` calls. -/
inductive StartCallee
  | main
  | ece391Halt

/-- `_start`. -/
def start : List (Line StartCallee) :=
  [.call .main, .ops [.pushlImm 0, .pushlImm 0, .op (.pushl .eax)], .call .ece391Halt]

end Mp3Kernel
