import Mp3Kernel.Lib.X86

/-!
# The system-call wrapper (`systemcall_wrap.S`)

The assembler text as it stands. The handlers it calls are C functions, and what they do to
the machine is a parameter of the runs.
-/

namespace Mp3Kernel

open X86

/-- The labels of the text. -/
inductive WrapLabel
  | systemCall
  | sysHalt
  | sysExecute
  | sysRead
  | sysWrite
  | sysOpen
  | sysClose
  | sysGetargs
  | sysVidmap
  | sysSetHandler
  | sysSigreturn
  | retInvalid
  | done
  deriving DecidableEq

/-- The functions it calls: `halt_handler`, `execute_handler`, `read` and so on. -/
inductive Handler
  | haltHandler
  | executeHandler
  | readFd
  | writeFd
  | openFile
  | closeFd
  | getargsHandler
  | vidmapHandler
  | setHandlerHandler
  | sigreturnHandler
  deriving DecidableEq

/-- `jump_table`. -/
def jumpTable : List WrapLabel :=
  [.sysHalt, .sysExecute, .sysRead, .sysWrite, .sysOpen, .sysClose, .sysGetargs, .sysVidmap,
    .sysSetHandler, .sysSigreturn]

/-- The pushes `system_call` begins with. -/
def savesRegisters : List Op :=
  [.pushfl, .pushl .ebx, .pushl .ecx, .pushl .edx, .pushl .ebp, .pushl .esp, .pushl .esi,
    .pushl .edi]

/-- The pops both ways out end with. -/
def restoresRegisters : List Op :=
  [.popl .edi, .popl .esi, .popl .esp, .popl .ebp, .popl .edx, .popl .ecx, .popl .ebx, .popfl]

/-- `systemcall_wrap.S`. -/
def systemCallWrap : Program WrapLabel Handler :=
  [⟨.systemCall,
    [.ops (savesRegisters ++ [.cmpl (.imm 1) .eax]),
      .jcc .l .retInvalid,
      .ops [.cmpl (.imm 10) .eax],
      .jcc .g .retInvalid,
      .ops [.pushl .edx, .pushl .ecx, .pushl .ebx, .decl .eax],
      .jmpTable jumpTable .eax]⟩,
    ⟨.sysHalt, [.call .haltHandler, .jmp .done]⟩,
    ⟨.sysExecute, [.call .executeHandler, .jmp .done]⟩,
    ⟨.sysRead, [.call .readFd, .jmp .done]⟩,
    ⟨.sysWrite, [.call .writeFd, .jmp .done]⟩,
    ⟨.sysOpen, [.call .openFile, .jmp .done]⟩,
    ⟨.sysClose, [.call .closeFd, .jmp .done]⟩,
    ⟨.sysGetargs, [.call .getargsHandler, .jmp .done]⟩,
    ⟨.sysVidmap, [.call .vidmapHandler, .jmp .done]⟩,
    ⟨.sysSetHandler, [.call .setHandlerHandler, .jmp .done]⟩,
    ⟨.sysSigreturn, [.call .sigreturnHandler, .jmp .done]⟩,
    ⟨.retInvalid, [.ops (restoresRegisters ++ [.movl (.imm (-1)) .eax]), .iret]⟩,
    ⟨.done, [.ops (.addl (.imm 12) .esp :: restoresRegisters), .iret]⟩]

/-- A machine that runs the wrapper. -/
def wrapEnv (callee : Handler → Cpu → Cpu)
    (address : List (Instr WrapLabel Handler) → Word) : Env WrapLabel Handler where
  program := systemCallWrap
  callee := callee
  address := address

/-- The state on entry to `system_call`. -/
def systemCall (c : Cpu) : Config WrapLabel Handler where
  cpu := c
  code := codeAt systemCallWrap .systemCall
  calls := []

end Mp3Kernel
