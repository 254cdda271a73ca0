import Mp3Kernel.Kernel.State

/-!
# The virtual RTC (`rtc.c`)

The counters behind `RTC_open`, `RTC_read`, `RTC_write` and the interrupt handler.
Programming the chip is port output and leaves no trace here. `RTC_read` waits for
interrupts, so it is given in its three parts; run on its own it comes down to the first
and the last.
-/

namespace Mp3Kernel

/-- The loop of `check_power`, at most `fuel` halvings: thirty-one take any `int32_t`
down to one. -/
def checkPowerFrom : Nat → Int → Int → Int
  | 0, _, count => count
  | fuel + 1, temp, count =>
    if temp > 1 then
      if temp.tmod 2 = 1 then -1 else checkPowerFrom fuel (temp.tdiv 2) (count + 1)
    else count

/-- `check_power`. -/
def checkPower (number : Int) : Int := checkPowerFrom 32 number 0

/-- The doubling loop of `RTC_vir_rate`. -/
def doubled : Nat → Nat
  | 0 => 1
  | n + 1 => u32 (doubled n * 2)

namespace Kernel

/-- `RTC_vir_rate`: only the terminals 0, 1 and 2 have a counter to set. -/
def rtcVirRate (rate : Nat) (k : Kernel) : Kernel :=
  let counter := i32 ((1024 / doubled rate : Nat) - 1)
  if k.curExecuteTerm = 0 ∨ k.curExecuteTerm = 1 ∨ k.curExecuteTerm = 2 then
    { k with
      rtc :=
        { k.rtc with
          virCounter := Function.update k.rtc.virCounter (termSlot k.curExecuteTerm) counter } }
  else k

/-- `RTC_open`. -/
def rtcOpen (k : Kernel) : Kernel × Int := (k.rtcVirRate 1, 0)

/-- The assignment `RTC_read` makes to the executing terminal's flag, before and after
its waiting loop. -/
def rtcClear (k : Kernel) : Kernel :=
  { k with
    rtc :=
      { k.rtc with rtcItrRec := Function.update k.rtc.rtcItrRec (termSlot k.curExecuteTerm) 0 } }

/-- The condition of `RTC_read`'s waiting loop, in the branch of the terminal that was
executing when the call began: it is not chosen again while the loop runs. -/
def rtcWaits (term : Int) (k : Kernel) : Bool :=
  k.rtc.rtcItrRec (termSlot term) < k.rtc.virCounter (termSlot term)

/-- `RTC_handler`: the interrupt is counted for the terminal executing now. -/
def rtcHandler (k : Kernel) : Kernel :=
  let slot := termSlot k.curExecuteTerm
  { k with
    rtc :=
      { k.rtc with
        rtcItrRec := Function.update k.rtc.rtcItrRec slot (i32 (k.rtc.rtcItrRec slot + 1)) } }

/-- `RTC_read`, the interrupts it waits for apart. -/
def rtcRead (k : Kernel) : Kernel × Int := (k.rtcClear.rtcClear, 0)

/-- `RTC_write`: `*(int32_t*) buf`, little-endian. -/
def rtcWrite (buf : Buf) (k : Kernel) : Kernel × Int :=
  let inputNum :=
    i32 ((buf 0).toNat + 256 * (buf 1).toNat + 65536 * (buf 2).toNat + 16777216 * (buf 3).toNat)
  let powerNum := checkPower inputNum
  if powerNum = -1 then (k, -1)
  else if powerNum < 1 ∨ powerNum > 10 then (k, -1)
  else (k.rtcVirRate powerNum.toNat, 0)

end Kernel

end Mp3Kernel
