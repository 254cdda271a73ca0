import Mp3Kernel.Kernel.Paging

/-!
# The console (`lib.c`)

`putc` and `putct` are two copies of one routine that differ in the page they
draw on and in the cursor they move, so the routine is written once, as
`Pen.put`, over the memory, the cursor and the address of each offset of the page.
Moving the hardware cursor (`update_cursor`) is port output and leaves no trace here.
-/

namespace Mp3Kernel

/-- `NUM_COLS`. -/
abbrev numCols : Nat := 80

/-- `NUM_ROWS`. -/
abbrev numRows : Nat := 25

/-- `ATTRIB`. -/
def attrib : UInt8 := 0x7

/-- `' '`. -/
def blank : UInt8 := 0x20

/-- `'\n'`. -/
def newline : UInt8 := 0x0A

/-- `'\r'`. -/
def carriageReturn : UInt8 := 0x0D

/-- `'\b'`. -/
def backspace : UInt8 := 0x08

/-- `c == '\n' || c == '\r'`. -/
def endsRow (c : UInt8) : Bool := c == newline || c == carriageReturn

/-- `(NUM_COLS * y + x) << 1`: the offset of a cell's character; its attribute is next. -/
def cell (x y : Int) : Int := (80 * y + x) * 2

/-- Memory and the cursor that draws in it. -/
structure Pen where
  mem : Nat → UInt8
  x : Int
  y : Int

/-- The address of each offset of a page. -/
abbrev PageMap := Int → Nat

/-- The two stores that draw a character. -/
def drawCell (pm : PageMap) (x y : Int) (c : UInt8) (m : Nat → UInt8) : Nat → UInt8 :=
  Function.update (Function.update m (pm (cell x y)) c) (pm (cell x y + 1)) attrib

/-- The body of the scroll loops: a cell takes the character below it, the last row's
a blank. -/
def scrollCell (pm : PageMap) (x : Nat) (m : Nat → UInt8) (y : Nat) : Nat → UInt8 :=
  if y = numRows - 1 then drawCell pm x y blank m
  else drawCell pm x y (m (pm (cell x (y + 1)))) m

/-- The inner loop, down one column. -/
def scrollColumn (pm : PageMap) (m : Nat → UInt8) (x : Nat) : Nat → UInt8 :=
  (List.range numRows).foldl (scrollCell pm x) m

/-- "copy all memory": the outer loop, column by column. -/
def scroll (pm : PageMap) (m : Nat → UInt8) : Nat → UInt8 :=
  (List.range numCols).foldl (scrollColumn pm) m

/-- The body `putc` and `putct` share. -/
def Pen.put (pm : PageMap) (c : UInt8) (s : Pen) : Pen :=
  if endsRow c && s.y == numRows - 1 then
    { mem := scroll pm s.mem, x := 0, y := s.y }
  else if endsRow c then
    { mem := s.mem, x := 0, y := s.y + 1 }
  -- tested before the backspace, which therefore draws here like any other byte
  else if s.x == numCols - 1 && s.y == numRows - 1 then
    { mem := scroll pm (drawCell pm s.x s.y c s.mem), x := 0, y := s.y }
  else if c == backspace && s.x == 0 && s.y == 0 then s
  else if c == backspace && s.x == 0 then
    { mem := drawCell pm (numCols - 1) (s.y - 1) blank s.mem, x := numCols - 1, y := s.y - 1 }
  else if c == backspace then
    { mem := drawCell pm (s.x - 1) s.y blank s.mem, x := s.x - 1, y := s.y }
  else if s.x == numCols - 1 then
    { mem := drawCell pm s.x s.y c s.mem, x := 0, y := s.y + 1 }
  else
    let x := (s.x + 1).tmod numCols
    { mem := drawCell pm s.x s.y c s.mem, x := x, y := (s.y + x.tdiv numCols).tmod numRows }

namespace Kernel

/-- The page at a virtual address, through the kernel's own mapping. -/
def pageAt (base : Nat) (k : Kernel) : PageMap := fun off => k.mmu.kernelAddr (base + off)

/-- `putc`: on the page mapped at `0xB8000`, at the visible cursor. -/
def putc (c : UInt8) (k : Kernel) : Kernel :=
  let s := Pen.put (k.pageAt videoAddr) c ⟨k.mem, k.con.screenX, k.con.screenY⟩
  { k with mem := s.mem, con := { k.con with screenX := s.x, screenY := s.y } }

/-- `screen_xt`, `screen_yt` and `video_mem_t` on entry to `putct`. -/
def putctPen (k : Kernel) : Pen × PageMap :=
  if k.curExecuteTerm = k.curVisTerm then
    (⟨k.mem, k.con.screenX, k.con.screenY⟩, k.pageAt videoAddr)
  else
    (⟨k.mem, k.con.screenXT (termSlot k.curExecuteTerm), k.con.screenYT (termSlot k.curExecuteTerm)⟩,
      k.pageAt (backBuffer k.curExecuteTerm))

/-- `putct`: on the executing terminal's page, at its cursor. The cursor is always
written back to the terminal's own pair, and to the visible one as well when the
terminal is visible. -/
def putct (c : UInt8) (k : Kernel) : Kernel :=
  let s := Pen.put k.putctPen.2 c k.putctPen.1
  let con :=
    if k.curExecuteTerm = k.curVisTerm then { k.con with screenX := s.x, screenY := s.y }
    else k.con
  { k with
    mem := s.mem
    con :=
      { con with
        screenXT := Function.update con.screenXT (termSlot k.curExecuteTerm) s.x
        screenYT := Function.update con.screenYT (termSlot k.curExecuteTerm) s.y } }

/-- One turn of the loop of `clear`. -/
def clearCell (pm : PageMap) (m : Nat → UInt8) (i : Nat) : Nat → UInt8 :=
  Function.update (Function.update m (pm (2 * i)) blank) (pm (2 * i + 1)) attrib

/-- `clear`. -/
def clear (k : Kernel) : Kernel :=
  { k with mem := (List.range (numRows * numCols)).foldl (clearCell (k.pageAt videoAddr)) k.mem }

/-- `reset_screen`. -/
def resetScreen (k : Kernel) : Kernel :=
  clear { k with con := { k.con with screenX := 0, screenY := 0 } }

/-- `puts`. -/
def puts (s : List UInt8) (k : Kernel) : Kernel := s.foldl (fun k c => k.putc c) k

/-- `printf` on a format without a `%`, or on the part before one: every byte goes to
`putc`. -/
def printfPlain (format : String) (k : Kernel) : Kernel := k.puts (bytes format)

end Kernel

/-! ## What the console leaves alone -/

section Frame

variable (c : UInt8) (s : List UInt8) (f : String) (k : Kernel)

@[simp] theorem Kernel.putc_proc : (k.putc c).proc = k.proc := rfl
@[simp] theorem Kernel.putc_mmu : (k.putc c).mmu = k.mmu := rfl
@[simp] theorem Kernel.putc_fs : (k.putc c).fs = k.fs := rfl
@[simp] theorem Kernel.putc_kbd : (k.putc c).kbd = k.kbd := rfl
@[simp] theorem Kernel.putc_rtc : (k.putc c).rtc = k.rtc := rfl
@[simp] theorem Kernel.putc_curVisTerm : (k.putc c).curVisTerm = k.curVisTerm := rfl
@[simp] theorem Kernel.putc_curExecuteTerm : (k.putc c).curExecuteTerm = k.curExecuteTerm := rfl

/-- A component that `putc` leaves alone, `puts` does. -/
theorem Kernel.puts_frame {β : Type} (get : Kernel → β)
    (h : ∀ c k, get (putc c k) = get k) : get (k.puts s) = get k := by
  induction s generalizing k with
  | nil => rfl
  | cons c s ih => exact (ih (k.putc c)).trans (h c k)

@[simp] theorem Kernel.printfPlain_proc : (k.printfPlain f).proc = k.proc :=
  k.puts_frame (bytes f) Kernel.proc fun _ _ => rfl
@[simp] theorem Kernel.printfPlain_mmu : (k.printfPlain f).mmu = k.mmu :=
  k.puts_frame (bytes f) Kernel.mmu fun _ _ => rfl
@[simp] theorem Kernel.printfPlain_fs : (k.printfPlain f).fs = k.fs :=
  k.puts_frame (bytes f) Kernel.fs fun _ _ => rfl
@[simp] theorem Kernel.printfPlain_kbd : (k.printfPlain f).kbd = k.kbd :=
  k.puts_frame (bytes f) Kernel.kbd fun _ _ => rfl
@[simp] theorem Kernel.printfPlain_rtc : (k.printfPlain f).rtc = k.rtc :=
  k.puts_frame (bytes f) Kernel.rtc fun _ _ => rfl
@[simp] theorem Kernel.printfPlain_curVisTerm : (k.printfPlain f).curVisTerm = k.curVisTerm :=
  k.puts_frame (bytes f) Kernel.curVisTerm fun _ _ => rfl
@[simp] theorem Kernel.printfPlain_curExecuteTerm :
    (k.printfPlain f).curExecuteTerm = k.curExecuteTerm :=
  k.puts_frame (bytes f) Kernel.curExecuteTerm fun _ _ => rfl

end Frame

end Mp3Kernel
