import Mp3Kernel.Lib.BitFields
import Mp3Kernel.Lib.X86Frames

/-!
# Descriptor tables (`x86_desc.h`, `idt.c`, `kernel.c`)

The interrupt descriptor table as `idt_init` fills it, and the segment descriptors that `entry`
builds. A descriptor is its bit-fields, and eight bytes to the processor, which reads them by
the positions that its own layout gives them.
-/

namespace Mp3Kernel

open BitFields X86

/-! ## Interrupt descriptors -/

/-- `idt_desc_t`. -/
structure IdtDesc where
  offset1500 : Nat
  segSelector : Nat
  reserved4 : Nat
  reserved3 : Nat
  reserved2 : Nat
  reserved1 : Nat
  size : Nat
  reserved0 : Nat
  dpl : Nat
  present : Nat
  offset3116 : Nat

/-- The eight bytes of a descriptor, as one number. -/
def IdtDesc.word (d : IdtDesc) : Nat :=
  pack [⟨16, d.offset1500⟩, ⟨16, d.segSelector⟩, ⟨8, d.reserved4⟩, ⟨1, d.reserved3⟩,
    ⟨1, d.reserved2⟩, ⟨1, d.reserved1⟩, ⟨1, d.size⟩, ⟨1, d.reserved0⟩, ⟨2, d.dpl⟩, ⟨1, d.present⟩,
    ⟨16, d.offset3116⟩]

/-- The routines of `exception_wrap.S`, `interrupt_wrap.S` and `systemcall_wrap.S` that the table
leads to. -/
inductive Routine
  | divideErrorException
  | debugException
  | nmiInterrupt
  | breakpointException
  | overflowException
  | boundRangeExceededException
  | invalidOpcodeException
  | diviceNotAvaliableException
  | doubleFaultException
  | coprocessorSegmentOverrun
  | invalidTssException
  | segmentNotPresent
  | stackFaultException
  | generalProtectionException
  | pageFaultException
  | x87FpuFloatingPointError
  | alignmentCheckException
  | machineCheckException
  | simdFloatingPointException
  | pitIrq
  | keyboardIrq
  | rtcIrq
  | systemCall
  deriving DecidableEq

/-- The `SET_IDT_ENTRY`s of `idt_init`. -/
def wired : List (Nat × Routine) :=
  [(0x00, .divideErrorException), (0x01, .debugException), (0x02, .nmiInterrupt),
    (0x03, .breakpointException), (0x04, .overflowException),
    (0x05, .boundRangeExceededException), (0x06, .invalidOpcodeException),
    (0x07, .diviceNotAvaliableException), (0x08, .doubleFaultException),
    (0x09, .coprocessorSegmentOverrun), (0x0A, .invalidTssException), (0x0B, .segmentNotPresent),
    (0x0C, .stackFaultException), (0x0D, .generalProtectionException),
    (0x0E, .pageFaultException), (0x10, .x87FpuFloatingPointError),
    (0x11, .alignmentCheckException), (0x12, .machineCheckException),
    (0x13, .simdFloatingPointException), (0x20, .pitIrq), (0x21, .keyboardIrq), (0x28, .rtcIrq),
    (0x80, .systemCall)]

/-- `KERNEL_CS`. -/
def kernelCs : Nat := 0x10

/-- `SYSTEM_CALL`. -/
def systemCallVector : Nat := 0x80

/-- `SET_IDT_ENTRY`. -/
def IdtDesc.setIdtEntry (handler : Nat) (d : IdtDesc) : IdtDesc :=
  { d with
    offset3116 := (handler &&& 0xFFFF0000) >>> 16
    offset1500 := handler &&& 0xFFFF }

/-- The loop of `idt_init`, at one vector. -/
def IdtDesc.initEntry (i : Nat) (d : IdtDesc) : IdtDesc :=
  { d with
    segSelector := kernelCs, reserved4 := 0, reserved3 := 0, reserved2 := 1, reserved1 := 1
    size := 1, reserved0 := 0, dpl := if i = systemCallVector then 3 else 0, present := 1 }

/-- One `SET_IDT_ENTRY`, given where the linker put the routines. -/
def setEntry (address : Routine → Word) (idt : Nat → IdtDesc) (entry : Nat × Routine) :
    Nat → IdtDesc :=
  Function.update idt entry.1 ((idt entry.1).setIdtEntry (address entry.2).toNat)

/-- `idt_init`. -/
def idtInit (address : Routine → Word) (idt : Nat → IdtDesc) : Nat → IdtDesc :=
  wired.foldl (setEntry address) fun i => if i < 256 then (idt i).initEntry i else idt i

/-- What the processor makes of an interrupt with a vector: a 32-bit interrupt gate that is
present, and for an `int` instruction is open to the level it is executed at. -/
def gateOf (word : Nat) (software : Option Nat) : Option Gate :=
  if bits word 47 1 = 1 ∧ bits word 44 1 = 0 ∧ bits word 40 4 = 14 ∧
      ∀ cpl ∈ software, cpl ≤ bits word 45 2 then
    some ⟨BitVec.ofNat 32 (bits word 16 16),
      BitVec.ofNat 32 (bits word 0 16 + 2 ^ 16 * bits word 48 16)⟩
  else none

/-! ## Segment descriptors -/

/-- `seg_desc_t`. -/
structure SegDesc where
  segLim1500 : Nat
  base1500 : Nat
  base2316 : Nat
  type : Nat
  sys : Nat
  dpl : Nat
  present : Nat
  segLim1916 : Nat
  avail : Nat
  reserved : Nat
  opsize : Nat
  granularity : Nat
  base3124 : Nat

/-- The eight bytes of a descriptor, as one number. -/
def SegDesc.word (d : SegDesc) : Nat :=
  pack [⟨16, d.segLim1500⟩, ⟨16, d.base1500⟩, ⟨8, d.base2316⟩, ⟨4, d.type⟩, ⟨1, d.sys⟩, ⟨2, d.dpl⟩,
    ⟨1, d.present⟩, ⟨4, d.segLim1916⟩, ⟨1, d.avail⟩, ⟨1, d.reserved⟩, ⟨1, d.opsize⟩,
    ⟨1, d.granularity⟩, ⟨8, d.base3124⟩]

/-- `SET_TSS_PARAMS`, and `SET_LDT_PARAMS`, which is the same. -/
def SegDesc.setParams (addr lim : Nat) (d : SegDesc) : SegDesc :=
  { d with
    base3124 := (addr &&& 0xFF000000) >>> 24
    base2316 := (addr &&& 0x00FF0000) >>> 16
    base1500 := addr &&& 0x0000FFFF
    segLim1916 := (lim &&& 0x000F0000) >>> 16
    segLim1500 := lim &&& 0x0000FFFF }

/-- `the_ldt_desc` of `entry`, whose base and limit are uninitialised at first. -/
def theLdtDesc (junk : SegDesc) (ldt ldtSize : Nat) : SegDesc :=
  SegDesc.setParams ldt ldtSize
    { junk with
      granularity := 0, opsize := 1, reserved := 0, avail := 0, present := 1, dpl := 0, sys := 0
      type := 2 }

/-- `TSS_SIZE`. -/
def tssSize : Nat := 104

/-- `the_tss_desc` of `entry`. -/
def theTssDesc (junk : SegDesc) (tss tssLimit : Nat) : SegDesc :=
  SegDesc.setParams tss tssLimit
    { junk with
      granularity := 0, opsize := 0, reserved := 0, avail := 0
      segLim1916 := tssSize &&& 0x000F0000, present := 1, dpl := 0, sys := 0, type := 9
      segLim1500 := tssSize &&& 0x0000FFFF }

/-- The four code and data segments of `gdt`, from `gdt_ptr` on. -/
def flatSegments : List Nat :=
  [0x00CF9A000000FFFF, 0x00CF92000000FFFF, 0x00CFFA000000FFFF, 0x00CFF2000000FFFF]

/-- The type of a system segment that is present. -/
def systemType (word : Nat) : Option Nat :=
  if bits word 44 1 = 0 ∧ bits word 47 1 = 1 then some (bits word 40 4) else none

/-- What the processor makes of a segment descriptor: where the segment begins, and the last
offset in it. -/
def segmentBase (word : Nat) : Nat := bits word 16 24 + 2 ^ 24 * bits word 56 8

def segmentLimit (word : Nat) : Nat :=
  let limit := bits word 0 16 + 2 ^ 16 * bits word 48 4
  if bits word 55 1 = 1 then 4096 * limit + 4095 else limit

end Mp3Kernel
