import Mp3Kernel.Kernel.Printf
import Mp3Kernel.Kernel.Wrappers

/-!
# The handler of the exceptions (`exception_handler.c`)

The wrappers call it with the vector, the registers, the error code and the interrupt's frame; it
reads none of these but the vector, and ends in a loop, with interrupts off.
-/

namespace Mp3Kernel

/-- The strings of `exception`. -/
def exceptionNames : List String :=
  ["Divide Error", "RESERVED", "NMI interrupt", "Breakpoint", "Overflow", "BOUND Range Exceeded",
    "Invalid Opcode", "Device Not Available", "Double Fault", "Coprocessor Segment Overrun",
    "Invalid TSS", "Segment Not Present", "Stack-Segment Fault", "General Protection",
    "Page Fault", "(Intel reserved. Do not use.)", "x87 FPU Floating-Point Error",
    "Alignment Check", "Machine Check", "SIMD Floating-Point Exception"]

/-- `PAGE_FAULT`. -/
def pageFaultVector : UInt32 := 14

/-- Where the strings have been put: the pointers in `exception`, and the memory there. -/
structure ExceptionTable where
  pointer : Nat → UInt32
  memory : UInt32 → Buf
  names : ∀ i (h : i < exceptionNames.length),
    Field.Holds 0 (memory (pointer i)) (bytes exceptionNames[i])

/-- `global_flag_exception = 1`. -/
def Kernel.flagException (k : Kernel) : Kernel :=
  { k with proc := { k.proc with globalFlagException := 1 } }

/-- `exception_handler`, up to its loop; what lies behind the table is not an address. -/
def exceptionHandler (table : ExceptionTable) (convBuf : Nat → Buf) (vectN : UInt32) (k : Kernel) :
    Option Kernel :=
  let k := k.printfPlain "SYSTEM ERROR:\n"
  if vectN.toNat < exceptionNames.length then
    let args : PrintfArgs :=
      ⟨fun n => if n = 0 then vectN else table.pointer vectN.toNat, table.memory, convBuf⟩
    (printf (cstr (bytes "EXCEPTIONS%d: %s\n")) args 18 k).map fun r =>
      let k := r.1.k.flagException
      if vectN = pageFaultVector then k.printfPlain "page fault" else k
  else none

end Mp3Kernel
