import Mp3Kernel.User.Blink

/-!
# The frames of `fish` (`fish.c`)

`add_frames` reads two text files a byte at a time, and adds a light for each place that one of
them has a character at. A read from a file gives its next byte, or nothing at its end; the last
byte of a block is not read here, because the kernel then stores the byte behind it too, over
another variable. The files are closed at their ends, which nothing depends on.
-/

namespace Mp3Kernel.Blink

/-- `'\n'` and `' '`. -/
def newline : UInt8 := 0x0A

def space : UInt8 := 0x20

/-- One of the two files in `add_frames`: the last byte read, what is still to be read, `eof0` or
`eof1`, and the length of the file. -/
structure Reader where
  c : UInt8
  rest : List UInt8
  eof : Bool
  size : Nat

namespace Reader

/-- Where the descriptor of the file is. -/
def position (r : Reader) : Nat := r.size - r.rest.length

/-- A byte is read, unless the line is over. The end of the file ends the line too. -/
def read (r : Reader) : Option Reader :=
  if r.c = newline then some r
  else match r.rest with
    | [] => some { r with c := newline, eof := true }
    | c :: rest =>
      -- at the end of a block two bytes are stored
      if r.position % 4096 = 4095 then none else some { r with c := c, rest := rest }

/-- What is behind a row: `'0'` is a byte that does not end a line. -/
def nextRow (r : Reader) : Reader := { r with c := if r.eof then newline else 0x30 }

end Reader

/-- `blink_struct`, for a place of a row; the fields that `add_frames` leaves alone hold
anything. -/
def frameStruct (junk : BlinkStruct) (row col : Nat) (c0 c1 : UInt8) : BlinkStruct :=
  { junk with
    onLength := 15, offLength := 15, onChar := c0, offChar := c1
    location := UInt16.ofNat (row * 80 + col + 40) }

/-- The inner loop: a row of both files, from a column on. -/
def scanRow (junk : BlinkStruct) (row : Nat) :
    Nat → Nat → Reader → Reader → List Call → Option (Reader × Reader × List Call)
  | 0, _, _, _, _ => none
  | fuel + 1, col, r0, r1, calls => do
    let r0 ← r0.read
    let r1 ← r1.read
    if r0.c = newline ∧ r1.c = newline then some (r0, r1, calls)
    else
      let calls :=
        if r0.c ≠ space ∧ r0.c ≠ newline ∨ r1.c ≠ space ∧ r1.c ≠ newline then
          calls ++ [.add (frameStruct junk row col (if r0.c = newline then space else r0.c)
            (if r1.c = newline then space else r1.c))]
        else calls
      scanRow junk row fuel (col + 1) r0 r1 calls

/-- The outer loop: a row at a time, until both files have ended. -/
def scanRows (junk : BlinkStruct) (turns : Nat) :
    Nat → Nat → Reader → Reader → List Call → Option (List Call)
  | 0, _, _, _, _ => none
  | fuel + 1, row, r0, r1, calls =>
    if r0.eof && r1.eof then some calls
    else do
      let r ← scanRow junk row turns 0 r0 r1 calls
      scanRows junk turns fuel (row + 1) r.1.nextRow r.2.1.nextRow r.2.2

/-- `add_frames`, of the contents of the two files: the calls of `mp1_ioctl` it makes, if it never
reads the last byte of a block. -/
def addFrames (junk : BlinkStruct) (turns : Nat) (f0 f1 : List UInt8) : Option (List Call) :=
  scanRows junk turns turns 0 ⟨0x30, f0, false, f0.length⟩ ⟨0x30, f1, false, f1.length⟩ []

/-- `WAIT`. -/
def wait : Nat := 100

/-- `main` behind `add_frames`: what it calls of `blink.S`, each tick after a read from the RTC. -/
def mainCalls (junk : BlinkStruct) : List Call :=
  let ticks := List.replicate wait .tasklet
  let blinkStruct : BlinkStruct :=
    { junk with
      onChar := 0x49, offChar := 0x4D, onLength := 7, offLength := 6, location := 6 * 80 + 60 }
  ticks ++ .add blinkStruct :: ticks ++ .sync ((40 : UInt32) <<< 16 ||| (6 * 80 + 60)) :: ticks ++
    .remove (6 * 80 + 60) :: ticks

/-- `main`, from where the video memory is mapped. -/
def main (junk junk' : BlinkStruct) (turns fuel : Nat) (f0 f1 : List UInt8) (vmem : Nat → UInt8) :
    Option (Fish × List (Int × Option BlinkStruct)) := do
  let frames ← addFrames junk turns f0 f1
  (Fish.start vmem).calls fuel (frames ++ mainCalls junk')

end Mp3Kernel.Blink
