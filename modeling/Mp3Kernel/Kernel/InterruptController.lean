import Mp3Kernel.Lib.Pic8259
import Mp3Kernel.Kernel.Wrappers

/-!
# Interrupt control (`i8259.c`, `rtc.c`, `keyboard.c`)

The functions of `i8259.c` as the bytes they send, and what of the devices' initialisation goes
through ports. `PIT_handler` is not in the source; the interrupt that it ends is a parameter of
the runs.
-/

namespace Mp3Kernel

open Pic8259

/-! ## Ports -/

/-- What the kernel gets at through ports: the two controllers, and the registers of the RTC, of
which one is selected. -/
structure Ports where
  pics : Pair
  rtcSelected : Byte
  rtcRegister : Nat → Byte

/-- `PIC1_COMMAND`, and `PIC1` itself. -/
def pic1Command : Nat := 0x20

def pic1Data : Nat := 0x21

/-- `PIC2_COMMAND`, and `PIC2` itself. -/
def pic2Command : Nat := 0xA0

def pic2Data : Nat := 0xA1

/-- `RTC_PORT`. -/
def rtcPort : Nat := 0x70

def cmosPort : Nat := 0x71

/-- `outb`. The highest bit of a byte at `RTC_PORT` is not the RTC's. -/
def outb (v : Byte) (port : Nat) (p : Ports) : Ports :=
  if port = pic1Command then { p with pics := { p.pics with master := p.pics.master.command v } }
  else if port = pic1Data then { p with pics := { p.pics with master := p.pics.master.data v } }
  else if port = pic2Command then { p with pics := { p.pics with slave := p.pics.slave.command v } }
  else if port = pic2Data then { p with pics := { p.pics with slave := p.pics.slave.data v } }
  else if port = rtcPort then { p with rtcSelected := v }
  else if port = cmosPort then
    { p with rtcRegister := Function.update p.rtcRegister (p.rtcSelected.toNat % 128) v }
  else p

/-- `inb`, of a controller's mask. -/
def inb (port : Nat) (p : Ports) : Byte :=
  if port = pic1Data then p.pics.master.imr else p.pics.slave.imr

/-! ## `i8259.c` -/

/-- `IRQ_PER_PIC`. -/
def irqPerPic : Nat := 8

/-- `MASK_ALL`. -/
def maskAll : Byte := 0xFF

/-- The port of an interrupt's mask, and the bit there. `1 << irq_num` takes its count modulo 32, as
the processor does; the language leaves it open from there on. -/
def maskOf (irqNum : Nat) : Nat × Nat :=
  if irqNum < irqPerPic then (pic1Data, irqNum) else (pic2Data, (irqNum - irqPerPic) % 32)

/-- `disable_irq`. -/
def disableIrq (irqNum : Nat) (p : Ports) : Ports :=
  let (port, bit) := maskOf irqNum
  outb (inb port p ||| BitVec.twoPow 8 bit) port p

/-- `enable_irq`. -/
def enableIrq (irqNum : Nat) (p : Ports) : Ports :=
  let (port, bit) := maskOf irqNum
  outb (inb port p &&& ~~~(BitVec.twoPow 8 bit)) port p

/-- `send_eoi`. -/
def sendEoi (irqNum : Nat) (p : Ports) : Ports :=
  outb 0x20 pic1Command (if irqPerPic ≤ irqNum then outb 0x20 pic2Command p else p)

/-- The bytes of `i8259_init`, in order, with their ports. -/
def initBytes : List (Byte × Nat) :=
  [(maskAll, pic1Data), (maskAll, pic2Data),
    -- ICW1 to ICW4 of the master
    (0x11, pic1Command), (0x20, pic1Data), (0x04, pic1Data), (0x01, pic1Data),
    -- and of the slave
    (0x11, pic2Command), (0x28, pic2Data), (0x02, pic2Data), (0x01, pic2Data),
    (maskAll, pic1Data), (maskAll, pic2Data)]

/-- `i8259_init`. -/
def i8259Init (p : Ports) : Ports :=
  enableIrq 2 (initBytes.foldl (fun p b => outb b.1 b.2 p) p)

/-! ## Devices -/

/-- `KEYBD_IRQ`. -/
def keybdIrq : Nat := 1

/-- `RTC_IRQ_NUM`. -/
def rtcIrqNum : Nat := 8

/-- What `keyboard_init` does at a port. -/
def keyboardInitPorts (p : Ports) : Ports := enableIrq keybdIrq p

/-- `RTC_init`: registers B and A, the mask, and a read of register D that is not used. -/
def rtcInit (p : Ports) : Ports :=
  let p := outb 0x40 cmosPort (outb 0x8B rtcPort p)
  let p := outb 0x08 cmosPort (outb 0x8A rtcPort p)
  outb 0x8D rtcPort (enableIrq rtcIrqNum p)

/-- `entry` as far as the call of `PIT_init`, which is not in the source, for the controllers and
the RTC. -/
def entryPorts (p : Ports) : Ports := rtcInit (keyboardInitPorts (i8259Init p))

/-! ## Handlers -/

/-- The interrupt that a handler ends, given the one that `PIT_handler` does. -/
def ends (pitIrqNum : Nat) : EntryHandler → Option Nat
  | .keyboardHandler => some keybdIrq
  | .rtcHandler => some rtcIrqNum
  | .pitHandler => some pitIrqNum
  | .exceptionHandler => none

end Mp3Kernel
