import Mp3Kernel.Lib.LinkedList

/-!
# The blinking characters of `fish` (`blink.S`, `fish.c`)

A character that blinks is a `mp1_blink_struct` in `blink_array`, and those in use are linked from
`mp1_list_head` on. A pointer to one is the index of its place in the array, or `none`. The loops
over the list have turns to use up.
-/

namespace Mp3Kernel.Blink

open LinkedList

/-- A `mp1_blink_struct` but for its link. -/
structure Light where
  location : UInt16
  onChar : UInt8
  offChar : UInt8
  onLength : UInt16
  offLength : UInt16
  countdown : UInt16
  status : UInt16
  deriving DecidableEq

/-- `struct mp1_blink_struct`. -/
structure BlinkStruct extends Light where
  next : Option Nat
  deriving DecidableEq

/-- `80*25`, the places on the screen and those in `blink_array`. -/
def places : Nat := 80 * 25

/-- The globals of `blink.S` and `fish.c`, and the video memory. -/
structure Fish where
  listHead : Option Nat
  blinkArray : Nat → BlinkStruct
  vmem : Nat → UInt8

namespace Fish

/-- A place of the array is written. -/
def store (i : Nat) (b : BlinkStruct) (s : Fish) : Fish :=
  { s with blinkArray := Function.update s.blinkArray i b }

/-- `mp1_poke`, with the byte in `cl` and the offset in `eax`. -/
def mp1Poke (cl : UInt8) (eax : Nat) (s : Fish) : Fish :=
  { s with vmem := Function.update s.vmem eax cl }

/-- `mp1_malloc`: the first place without a location. -/
def mp1Malloc (s : Fish) : Option Nat :=
  (List.range places).find? fun i => (s.blinkArray i).location == 0

/-- A `mp1_blink_struct` of zeros. -/
def zeros : BlinkStruct := ⟨⟨0, 0, 0, 0, 0, 0, 0⟩, none⟩

/-- `mp1_free`. -/
def mp1Free (i : Nat) (s : Fish) : Fish := s.store i zeros

/-- The pointers of the list. -/
def links (s : Fish) : Links Nat := ⟨s.listHead, fun i => (s.blinkArray i).next⟩

/-- A pointer is written, to `mp1_list_head` or to the `NEXT` of a struct. -/
def setLink (v : Option Nat) (s : Fish) : Option Nat → Fish
  | none => { s with listHead := v }
  | some i => s.store i { s.blinkArray i with next := v }

/-- `mp1_find_helper`. -/
def mp1FindHelper (fuel : Nat) (location : UInt16) (s : Fish) : Option (Option Nat) :=
  search s.links.next (fun i => (s.blinkArray i).location == location) fuel s.listHead

/-- `mp1_ioctl_add`, of the struct that the argument points to. -/
def mp1IoctlAdd (b : BlinkStruct) (s : Fish) : Fish × Int :=
  if places ≤ b.location.toNat then (s, -1)
  else
    let b := { b with status := 1, countdown := b.onLength }
    match s.mp1Malloc with
    | none => (s, -1)
    | some i =>
      let s := s.store i b
      let s := { s.setLink s.listHead (some i) with listHead := some i }
      (s.mp1Poke b.onChar (2 * b.location.toNat), 0)

/-- `mp1_ioctl_remove`. -/
def mp1IoctlRemove (fuel : Nat) (arg : UInt32) (s : Fish) : Option (Fish × Int) := do
  match ← s.mp1FindHelper fuel arg.toUInt16 with
  | none => some (s, -1)
  | some i =>
    let prev ← s.links.before i fuel none
    some ((s.setLink (s.blinkArray i).next prev).mp1Free i, 0)

/-- `mp1_ioctl_sync`. The move of the on-character is a `cmovl` behind the test of a bit that is
not the sign, which leaves no overflow: the sign of the test's result decides it. -/
def mp1IoctlSync (fuel : Nat) (arg : UInt32) (s : Fish) : Option (Fish × Int) := do
  match ← s.mp1FindHelper fuel (arg >>> 16).toUInt16 with
  | none => some (s, -1)
  | some esi =>
    match ← s.mp1FindHelper fuel (arg &&& 0xFFFF).toUInt16 with
    | none => some (s, -1)
    | some edi =>
      let b := { s.blinkArray edi with
        onLength := (s.blinkArray esi).onLength, offLength := (s.blinkArray esi).offLength
        countdown := (s.blinkArray esi).countdown, status := (s.blinkArray esi).status }
      let less : Bool := (b.status.toUInt8 &&& 0x01) &&& 0x80 != 0
      some ((s.store edi b).mp1Poke (if less then b.onChar else b.offChar)
        (2 * b.location.toNat), 0)

/-- `mp1_ioctl_find`, with the struct that is copied to where the location was. -/
def mp1IoctlFind (fuel : Nat) (location : UInt16) (s : Fish) :
    Option (Int × Option BlinkStruct) := do
  match ← s.mp1FindHelper fuel location with
  | none => some (-1, none)
  | some i => some (0, some (s.blinkArray i))

/-- `jg` behind a comparison of a countdown with zero. -/
def positive (countdown : UInt16) : Bool := countdown != 0 && countdown < 0x8000

/-- A turn of `tasklet_loop`. -/
def taskletTurn (i : Nat) (s : Fish) : Fish :=
  let b := { s.blinkArray i with countdown := (s.blinkArray i).countdown - 1 }
  if positive b.countdown then s.store i b
  else
    let on : Bool := b.status &&& 0x01 != 0
    (s.store i { b with
      countdown := if on then b.offLength else b.onLength
      status := b.status ^^^ 0x01 }).mp1Poke (if on then b.offChar else b.onChar)
        (2 * b.location.toNat)

/-- `mp1_rtc_tasklet`. -/
def mp1RtcTasklet (fuel : Nat) (s : Fish) : Option Fish :=
  visit (fun s i => s.links.next i) taskletTurn fuel s.listHead s

end Fish

/-! ## Calls -/

/-- What `fish.c` calls of `blink.S`: `mp1_ioctl` with one of its four commands, with what the
argument is or points to, and `mp1_rtc_tasklet`. -/
inductive Call
  | add (b : BlinkStruct)
  | remove (arg : UInt32)
  | find (location : UInt16)
  | sync (arg : UInt32)
  | tasklet
  deriving DecidableEq

/-- A call, the number it returns and the struct it has copied. -/
def Fish.call (fuel : Nat) (s : Fish) : Call → Option (Fish × Int × Option BlinkStruct)
  | .add b => let r := s.mp1IoctlAdd b; some (r.1, r.2, none)
  | .remove arg => (s.mp1IoctlRemove fuel arg).map fun r => (r.1, r.2, none)
  | .find location => (s.mp1IoctlFind fuel location).map fun r => (s, r)
  | .sync arg => (s.mp1IoctlSync fuel arg).map fun r => (r.1, r.2, none)
  | .tasklet => (s.mp1RtcTasklet fuel).map fun s => (s, 0, none)

/-- Calls one after the other, and what they return. -/
def Fish.calls (fuel : Nat) : List Call → Fish → Option (Fish × List (Int × Option BlinkStruct))
  | [], s => some (s, [])
  | c :: cs, s => do
    let r ← s.call fuel c
    let rs ← calls fuel cs r.1
    some (rs.1, r.2 :: rs.2)

/-- `main` before it adds anything: the array is zeroed, and the list empty. -/
def Fish.start (vmem : Nat → UInt8) : Fish := ⟨none, fun _ => Fish.zeros, vmem⟩

end Mp3Kernel.Blink
