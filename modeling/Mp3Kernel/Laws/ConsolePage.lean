import Mp3Kernel.Laws.TextPage

/-!
# The console stays in its page

Every store of the console is made through an offset from the base of the page it has selected:
the screen's, or a terminal's back buffer, each of which the next one follows in memory. The
offsets are listed here with what is stored, so that what a routine does to memory is what its
list does (`Pen.put_ops`); with a cursor on the screen all of them are offsets of its cells.
-/

namespace Mp3Kernel

/-! ## Stores by their offsets -/

/-- One store through `video_mem`, of a byte or of what another offset holds. -/
inductive VideoOp
  | store (off : Int) (b : UInt8)
  | copy (off src : Int)

/-- The offset stored to. -/
def VideoOp.offset : VideoOp → Int
  | .store off _ => off
  | .copy off _ => off

def VideoOp.exec (pm : PageMap) (m : Nat → UInt8) : VideoOp → Nat → UInt8
  | .store off b => Function.update m (pm off) b
  | .copy off src => Function.update m (pm off) (m (pm src))

/-- The stores of `drawCell`. -/
def drawOps (x y : Int) (c : UInt8) : List VideoOp :=
  [.store (cell x y) c, .store (cell x y + 1) attrib]

/-- The stores of one turn of the scroll loops. -/
def scrollCellOps (x y : Nat) : List VideoOp :=
  if y = numRows - 1 then drawOps x y blank
  else [.copy (cell x y) (cell x (y + 1)), .store (cell x y + 1) attrib]

/-- The stores of the scroll loops. -/
def scrollOps : List VideoOp :=
  (List.range numCols).flatMap fun x => (List.range numRows).flatMap (scrollCellOps x)

/-- The stores of `putc` and `putct`, in the order they are made. -/
def Pen.ops (c : UInt8) (s : Pen) : List VideoOp :=
  if endsRow c && s.y == numRows - 1 then scrollOps
  else if endsRow c then []
  else if s.x == numCols - 1 && s.y == numRows - 1 then drawOps s.x s.y c ++ scrollOps
  else if c == backspace && s.x == 0 && s.y == 0 then []
  else if c == backspace && s.x == 0 then drawOps (numCols - 1) (s.y - 1) blank
  else if c == backspace then drawOps (s.x - 1) s.y blank
  else drawOps s.x s.y c

/-- The stores of `clear`. -/
def clearOps : List VideoOp :=
  (List.range (numRows * numCols)).flatMap fun (i : Nat) =>
    [VideoOp.store (2 * i) blank, VideoOp.store (2 * i + 1) attrib]

section Ops

variable (pm : PageMap)

theorem scroll_ops (m : Nat → UInt8) : scroll pm m = scrollOps.foldl (VideoOp.exec pm) m := by
  have hcell : ∀ x, scrollCell pm x =
      fun m y => (scrollCellOps x y).foldl (VideoOp.exec pm) m := by
    intro x
    ext m y
    unfold scrollCell scrollCellOps
    split <;> rfl
  unfold scroll scrollOps
  rw [List.foldl_flatMap]
  refine congrArg (fun f => List.foldl f m (List.range numCols)) ?_
  ext m x
  rw [List.foldl_flatMap, scrollColumn, hcell]

/-- A character does to memory what its stores do. -/
theorem Pen.put_ops (c : UInt8) (s : Pen) :
    (Pen.put pm c s).mem = (s.ops c).foldl (VideoOp.exec pm) s.mem := by
  unfold Pen.put Pen.ops
  split_ifs
  · exact scroll_ops pm s.mem
  · rfl
  · rw [List.foldl_append, ← scroll_ops]
    rfl
  all_goals rfl

theorem clear_ops (m : Nat → UInt8) :
    (List.range (numRows * numCols)).foldl (Kernel.clearCell pm) m =
      clearOps.foldl (VideoOp.exec pm) m := by
  have hcell : Kernel.clearCell pm = fun m (i : Nat) =>
      [VideoOp.store (2 * i) blank, VideoOp.store (2 * i + 1) attrib].foldl (VideoOp.exec pm) m :=
    rfl
  rw [clearOps, List.foldl_flatMap, hcell]

end Ops

/-! ## Offsets in the page -/

/-- Every store is to one of the 4000 bytes of a text page. -/
def OpsInPage (ops : List VideoOp) : Prop := ∀ op ∈ ops, 0 ≤ op.offset ∧ op.offset < 4000

theorem OpsInPage.append {ops ops' : List VideoOp} (h : OpsInPage ops) (h' : OpsInPage ops') :
    OpsInPage (ops ++ ops') :=
  fun op hop => (List.mem_append.mp hop).elim (h op) (h' op)

theorem OpsInPage.flatMap {β : Type} {bs : List β} {f : β → List VideoOp}
    (h : ∀ b ∈ bs, OpsInPage (f b)) : OpsInPage (bs.flatMap f) := by
  intro op hop
  obtain ⟨b, hb, hop⟩ := List.mem_flatMap.mp hop
  exact h b hb op hop

/-- A cell's two bytes. -/
theorem cellOps_inPage {x y : Int} (hx : 0 ≤ x ∧ x < 80) (hy : 0 ≤ y ∧ y < 25) {op op' : VideoOp}
    (first : op.offset = cell x y) (second : op'.offset = cell x y + 1) :
    OpsInPage [op, op'] := by
  obtain ⟨lo, hi⟩ := cell_range hx hy
  intro o ho
  rcases List.mem_pair.mp ho with rfl | rfl <;> omega

theorem drawOps_inPage {x y : Int} (hx : 0 ≤ x ∧ x < 80) (hy : 0 ≤ y ∧ y < 25) (c : UInt8) :
    OpsInPage (drawOps x y c) :=
  cellOps_inPage hx hy rfl rfl

theorem scrollOps_inPage : OpsInPage scrollOps := by
  refine .flatMap fun x hx => .flatMap fun y hy => ?_
  have hx' : x < 80 := List.mem_range.mp hx
  have hy' : y < 25 := List.mem_range.mp hy
  unfold scrollCellOps
  split
  · exact drawOps_inPage (by omega) (by omega) blank
  · exact cellOps_inPage (x := x) (y := y) (by omega) (by omega) rfl rfl

theorem clearOps_inPage : OpsInPage clearOps := by
  refine .flatMap fun i hi => ?_
  have hi' : i < 25 * 80 := List.mem_range.mp hi
  intro op hop
  rcases List.mem_pair.mp hop with rfl | rfl <;> (dsimp only [VideoOp.offset]; omega)

/-- The stores of a character, with the cursor on the screen. -/
theorem Pen.InRange.ops {s : Pen} (R : s.InRange) (c : UInt8) : OpsInPage (s.ops c) := by
  obtain ⟨hx, hx', hy, hy'⟩ := R
  unfold Pen.ops
  split_ifs with _ _ _ hhome hedge herase
  · exact scrollOps_inPage
  · exact fun _ h => absurd h List.not_mem_nil
  · exact (drawOps_inPage ⟨hx, hx'⟩ ⟨hy, hy'⟩ c).append scrollOps_inPage
  · exact fun _ h => absurd h List.not_mem_nil
  · -- at the left edge, but not of the first row
    simp only [Bool.and_eq_true, beq_iff_eq] at hhome hedge
    have hy₀ : s.y ≠ 0 := fun h => hhome ⟨hedge, h⟩
    exact drawOps_inPage (by decide) (by omega) blank
  · simp only [Bool.and_eq_true, beq_iff_eq] at hedge herase
    have hx₀ : s.x ≠ 0 := fun h => hedge ⟨herase, h⟩
    exact drawOps_inPage (by omega) ⟨hy, hy'⟩ blank
  · exact drawOps_inPage ⟨hx, hx'⟩ ⟨hy, hy'⟩ c

/-! ## The routines -/

/-- The routines that draw. Any terminal may be executing, and any visible, at each `putct`. -/
inductive ConsoleCall
  | putc (c : UInt8)
  | putct (visTerm exeTerm : Int) (c : UInt8)
  | resetScreen

/-- The state `putct` is called in. -/
def Kernel.withTerms (visTerm exeTerm : Int) (k : Kernel) : Kernel :=
  { k with curVisTerm := visTerm, curExecuteTerm := exeTerm }

def consoleStep (e : ConsoleCall) (k : Kernel) : Kernel :=
  match e with
  | .putc c => k.putc c
  | .putct visTerm exeTerm c => (k.withTerms visTerm exeTerm).putct c
  | .resetScreen => k.resetScreen

/-- The stores of a call. -/
def consoleOps (e : ConsoleCall) (k : Kernel) : List VideoOp :=
  match e with
  | .putc c => Pen.ops c ⟨k.mem, k.con.screenX, k.con.screenY⟩
  | .putct visTerm exeTerm c => (k.withTerms visTerm exeTerm).putctPen.1.ops c
  | .resetScreen => clearOps

/-- The text page a call has selected, by its address. -/
def consoleBase : ConsoleCall → Nat
  | .putc _ => videoAddr
  | .putct visTerm exeTerm _ => if exeTerm = visTerm then videoAddr else backBuffer exeTerm
  | .resetScreen => videoAddr

/-- A cursor on the screen. -/
def OnScreen (x y : Int) : Prop := 0 ≤ x ∧ x < 80 ∧ 0 ≤ y ∧ y < 25

theorem onScreen_home : OnScreen 0 0 := by
  unfold OnScreen
  decide

/-- All four cursors are. -/
structure CursorsOnScreen (k : Kernel) : Prop where
  screen : OnScreen k.con.screenX k.con.screenY
  terms : ∀ t < 3, OnScreen (k.con.screenXT t) (k.con.screenYT t)

/-- What a call does to memory are stores to the 4000 bytes of the page it has selected. -/
structure StaysInPage (e : ConsoleCall) (k : Kernel) : Prop where
  mem : (consoleStep e k).mem =
    (consoleOps e k).foldl (VideoOp.exec (k.pageAt (consoleBase e))) k.mem
  inPage : OpsInPage (consoleOps e k)

section Calls

variable {k : Kernel}

theorem termSlot_lt (term : Int) : termSlot term < 3 := by
  unfold termSlot
  split_ifs <;> decide

/-- `putct` draws at a cursor on the screen, on the page selected. -/
theorem CursorsOnScreen.putctPen (C : CursorsOnScreen k) :
    k.putctPen.1.InRange ∧ k.putctPen.1.mem = k.mem ∧
      k.putctPen.2 = k.pageAt
        (if k.curExecuteTerm = k.curVisTerm then videoAddr else backBuffer k.curExecuteTerm) := by
  unfold Kernel.putctPen
  split
  · exact ⟨C.screen, rfl, rfl⟩
  · exact ⟨C.terms _ (termSlot_lt _), rfl, rfl⟩

theorem CursorsOnScreen.withTerms (C : CursorsOnScreen k) (visTerm exeTerm : Int) :
    CursorsOnScreen (k.withTerms visTerm exeTerm) := ⟨C.screen, C.terms⟩

theorem CursorsOnScreen.putct (C : CursorsOnScreen k) (c : UInt8) :
    CursorsOnScreen (k.putct c) := by
  have R : (Pen.put k.putctPen.2 c k.putctPen.1).InRange := C.putctPen.1.put _ c
  refine ⟨?_, fun t ht => ?_⟩
  · unfold Kernel.putct
    dsimp only
    split
    · exact R
    · exact C.screen
  · have hterm : OnScreen
        (Function.update k.con.screenXT (termSlot k.curExecuteTerm)
          (Pen.put k.putctPen.2 c k.putctPen.1).x t)
        (Function.update k.con.screenYT (termSlot k.curExecuteTerm)
          (Pen.put k.putctPen.2 c k.putctPen.1).y t) := by
      by_cases hslot : t = termSlot k.curExecuteTerm
      · rw [hslot, Function.update_self, Function.update_self]
        exact R
      · rw [Function.update_of_ne hslot, Function.update_of_ne hslot]
        exact C.terms t ht
    unfold Kernel.putct
    dsimp only
    split <;> exact hterm

/-- What one call preserves. -/
theorem CursorsOnScreen.step (C : CursorsOnScreen k) (e : ConsoleCall) :
    CursorsOnScreen (consoleStep e k) := by
  cases e with
  | putc c =>
    have R : Pen.InRange ⟨k.mem, k.con.screenX, k.con.screenY⟩ := C.screen
    exact ⟨R.put _ c, C.terms⟩
  | putct visTerm exeTerm c => exact (C.withTerms visTerm exeTerm).putct c
  | resetScreen => exact ⟨onScreen_home, C.terms⟩

theorem CursorsOnScreen.staysInPage (C : CursorsOnScreen k) (e : ConsoleCall) :
    StaysInPage e k := by
  cases e with
  | putc c =>
    have R : Pen.InRange ⟨k.mem, k.con.screenX, k.con.screenY⟩ := C.screen
    exact ⟨Pen.put_ops _ c _, R.ops c⟩
  | putct visTerm exeTerm c =>
    obtain ⟨R, hmem, hpage⟩ := (C.withTerms visTerm exeTerm).putctPen
    refine ⟨?_, R.ops c⟩
    show (Pen.put _ c _).mem = _
    rw [Pen.put_ops, hmem, hpage]
    rfl
  | resetScreen =>
    refine ⟨?_, clearOps_inPage⟩
    have hpage : { k with con := { k.con with screenX := 0, screenY := 0 } }.pageAt videoAddr =
        k.pageAt videoAddr := rfl
    simp only [consoleStep, Kernel.resetScreen, Kernel.clear, consoleOps, consoleBase]
    rw [hpage, clear_ops]

/-- Whatever is printed, on whichever terminals, the four cursors stay on the screen, and every
store is to one of the 4000 bytes of the page selected. -/
theorem console_staysInPage {k₀ : Kernel} (start : CursorsOnScreen k₀) (es : List ConsoleCall) :
    let k := es.foldl (fun k e => consoleStep e k) k₀
    CursorsOnScreen k ∧ ∀ e, StaysInPage e k := by
  intro k
  have C : CursorsOnScreen k := by
    show CursorsOnScreen (es.foldl (fun k e => consoleStep e k) k₀)
    induction es generalizing k₀ with
    | nil => exact start
    | cons e es ih => exact ih (start.step e)
  exact ⟨C, fun e => C.staysInPage e⟩

/-- A backspace at home, and a newline on another terminal. -/
theorem console_staysInPage_coldBoot :
    StaysInPage (.putct 0 1 newline) (consoleStep (.putc backspace) coldBoot) := by
  have start : CursorsOnScreen coldBoot := ⟨onScreen_home, fun _ _ => onScreen_home⟩
  exact (console_staysInPage start [.putc backspace]).2 (.putct 0 1 newline)

end Calls

end Mp3Kernel
