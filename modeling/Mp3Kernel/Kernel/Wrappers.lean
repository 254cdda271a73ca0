import Mp3Kernel.Kernel.Gates

/-!
# Entry routines (`exception_wrap.S`, `interrupt_wrap.S`)

The assembler routines that the interrupt descriptor table leads to, but `system_call`. They
have no jumps; what the C function that each one calls does to the machine is a parameter.
-/

namespace Mp3Kernel

open X86

/-- The C functions the routines call. -/
inductive EntryHandler
  | exceptionHandler
  | pitHandler
  | keyboardHandler
  | rtcHandler
  deriving DecidableEq

/-! ## `interrupt_wrap.S` -/

def irqWrap (h : EntryHandler) : List (Line EntryHandler) :=
  [.ops [.op .pushfl, .pushal], .call h, .ops [.popal, .op .popfl]]

def keyboardIrq : List (Line EntryHandler) := irqWrap .keyboardHandler

def rtcIrq : List (Line EntryHandler) := irqWrap .rtcHandler

def pitIrq : List (Line EntryHandler) := irqWrap .pitHandler

/-! ## `exception_wrap.S` -/

/-- What follows the call in each of them. -/
def exceptionEnd : List FrameOp := [.op (.addl (.imm 4) .esp), .popal, .op (.addl (.imm 4) .esp)]

/-- A routine for an exception without an error code: it pushes a zero in its place. -/
def exceptionWrap (vectN : Word) : List (Line EntryHandler) :=
  [.ops [.pushlImm 0, .pushal, .pushlImm vectN], .call .exceptionHandler, .ops exceptionEnd]

/-- A routine for an exception with an error code. -/
def exceptionWrapCode (vectN : Word) : List (Line EntryHandler) :=
  [.ops [.pushal, .pushlImm vectN], .call .exceptionHandler, .ops exceptionEnd]

def divideErrorException : List (Line EntryHandler) := exceptionWrap 0

def debugException : List (Line EntryHandler) := exceptionWrap 1

def nmiInterrupt : List (Line EntryHandler) := exceptionWrap 2

def breakpointException : List (Line EntryHandler) := exceptionWrap 3

def overflowException : List (Line EntryHandler) := exceptionWrap 4

def boundRangeExceededException : List (Line EntryHandler) := exceptionWrap 5

def invalidOpcodeException : List (Line EntryHandler) := exceptionWrap 6

def diviceNotAvaliableException : List (Line EntryHandler) := exceptionWrap 7

def doubleFaultException : List (Line EntryHandler) := exceptionWrapCode 8

def coprocessorSegmentOverrun : List (Line EntryHandler) := exceptionWrap 9

def invalidTssException : List (Line EntryHandler) := exceptionWrapCode 10

def segmentNotPresent : List (Line EntryHandler) := exceptionWrapCode 11

def stackFaultException : List (Line EntryHandler) := exceptionWrapCode 12

def generalProtectionException : List (Line EntryHandler) := exceptionWrapCode 13

def pageFaultException : List (Line EntryHandler) := exceptionWrapCode 14

def x87FpuFloatingPointError : List (Line EntryHandler) := exceptionWrap 16

def alignmentCheckException : List (Line EntryHandler) := exceptionWrapCode 17

def machineCheckException : List (Line EntryHandler) := exceptionWrap 18

def simdFloatingPointException : List (Line EntryHandler) := exceptionWrap 19

/-- The code of a routine; `system_call` has jumps and is a program of its own. -/
def Routine.code : Routine → Option (List (Line EntryHandler))
  | .divideErrorException => some Mp3Kernel.divideErrorException
  | .debugException => some Mp3Kernel.debugException
  | .nmiInterrupt => some Mp3Kernel.nmiInterrupt
  | .breakpointException => some Mp3Kernel.breakpointException
  | .overflowException => some Mp3Kernel.overflowException
  | .boundRangeExceededException => some Mp3Kernel.boundRangeExceededException
  | .invalidOpcodeException => some Mp3Kernel.invalidOpcodeException
  | .diviceNotAvaliableException => some Mp3Kernel.diviceNotAvaliableException
  | .doubleFaultException => some Mp3Kernel.doubleFaultException
  | .coprocessorSegmentOverrun => some Mp3Kernel.coprocessorSegmentOverrun
  | .invalidTssException => some Mp3Kernel.invalidTssException
  | .segmentNotPresent => some Mp3Kernel.segmentNotPresent
  | .stackFaultException => some Mp3Kernel.stackFaultException
  | .generalProtectionException => some Mp3Kernel.generalProtectionException
  | .pageFaultException => some Mp3Kernel.pageFaultException
  | .x87FpuFloatingPointError => some Mp3Kernel.x87FpuFloatingPointError
  | .alignmentCheckException => some Mp3Kernel.alignmentCheckException
  | .machineCheckException => some Mp3Kernel.machineCheckException
  | .simdFloatingPointException => some Mp3Kernel.simdFloatingPointException
  | .pitIrq => some Mp3Kernel.pitIrq
  | .keyboardIrq => some Mp3Kernel.keyboardIrq
  | .rtcIrq => some Mp3Kernel.rtcIrq
  | .systemCall => none

/-! ## Interrupts -/

/-- The exceptions that the processor pushes an error code for. -/
def errorVectors : List Nat := [8, 10, 11, 12, 13, 14, 17]

/-- An interrupt with a vector, through the table as the processor reads it; `software` has the
level of an `int` instruction. -/
def interrupt (idt : Nat → IdtDesc) (inner : InnerStack) (v : Nat) (software : Option Nat)
    (error : List Word) (m : Machine) : Option Machine :=
  (gateOf (idt v).word software).map fun g => m.enter g inner error

end Mp3Kernel
