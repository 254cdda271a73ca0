import Mp3Kernel.Laws.LineDiscipline
import Mp3Kernel.Laws.Output
import Mp3Kernel.Laws.Screen
import Mp3Kernel.Laws.VideoPage

/-!
# Keys and the visible screen

While another terminal executes, `0xB8000` is its back buffer, so a branch of the handler maps
the visible page there before it draws and undoes that after. Ctrl+L does not: it clears the
screen from inside `convert_to_ascii`, on whatever page is mapped, and moves the visible cursor
all the same.
-/

namespace Mp3Kernel

/-- Alt+F1 to Alt+F3, the codes that switch terminals. -/
def SwitchesTerminal (scanCode : UInt8) (k : Kernel) : Prop :=
  (functionKey scanCode).isSome ∧ (k.kbd.scac = altBit ∨ k.kbd.scac = altBit + capsBit)

/-- The modifier bytes under which `convert_to_ascii` looks for Ctrl+L. -/
def CtrlHeld (k : Kernel) : Prop := k.kbd.scac = capsBit + ctrlBit ∨ k.kbd.scac = ctrlBit

/-- Ctrl+L, in one of the handler's branches. -/
def ResetsScreen (scanCode : UInt8) (k : Kernel) : Prop :=
  (visibleSlot k).isSome ∧ scanCode = 0x26 ∧ CtrlHeld k

instance (scanCode : UInt8) (k : Kernel) : Decidable (ResetsScreen scanCode k) :=
  inferInstanceAs (Decidable (_ ∧ _ ∧ (_ ∨ _)))

/-- An address the handler stores to, whatever memory holds. -/
def Draws (termSwitch : TermSwitch) (scanCode : UInt8) (k : Kernel) (a : Nat) : Prop :=
  ∃ mem : Nat → UInt8, ({ k with mem }.keyboardHandler termSwitch scanCode).mem a ≠ mem a

/-- The back buffers are as they were, and where the cursor has moved every cell drawn is the
visible page's. -/
structure ActsOnVisible (termSwitch : TermSwitch) (scanCode : UInt8) (k : Kernel) : Prop where
  backBuffers : ∀ a, bb1Addr ≤ a → a < bb3Addr + 4096 →
    (k.keyboardHandler termSwitch scanCode).mem a = k.mem a
  cells : ((k.keyboardHandler termSwitch scanCode).con.screenX,
      (k.keyboardHandler termSwitch scanCode).con.screenY) ≠ (k.con.screenX, k.con.screenY) →
    ∀ a, Draws termSwitch scanCode k a → videoAddr ≤ a ∧ a < videoAddr + 4096

/-- A page whose 25 rows are blank. -/
def Cleared (page : Nat → UInt8) : Prop :=
  ∀ off < 4000, page off = if off % 2 = 0 then blank else attrib

/-! ## `convert_to_ascii` -/

/-- The character of a scan code, which only the modifier byte decides. -/
def asciiOf (scan scac : UInt8) : UInt8 :=
  if scan = 0x37 then blank
  else if scan > 52 then 0
  else if scac = shiftBit then if scan = 0x04 then 0x25 else lookupScan scancodeU scan
  else if scac = capsBit then lookupScan scancodeC scan
  else if scac = capsBit + ctrlBit ∨ scac = ctrlBit then 0
  else if scac = altBit + capsBit ∨ scac = altBit ∨ scac = shiftBit + capsBit then
    if scan = 0x04 then 0x25 else lookupScan scancodeCu scan
  else if scac = 0 then lookupScan scancodeL scan
  else 0

section Convert

variable {termSwitch : TermSwitch} {scanCode : UInt8} {k : Kernel}

theorem convertToAscii_char (scan : UInt8) :
    (k.convertToAscii termSwitch scan).2 = asciiOf scan k.kbd.scac := by
  unfold Kernel.convertToAscii asciiOf
  dsimp only
  split
  · rfl
  · split
    · split
      · split <;> rfl
      · rfl
    · repeat' (first | rfl | split)

/-- The one code that the lower-case table takes to `l`. -/
theorem lookupScan_l (scanCode : UInt8) :
    lookupScan scancodeL (scanCode - 2) = 0x6C ↔ scanCode = 0x26 := by
  obtain ⟨⟨n⟩⟩ := scanCode
  revert n
  decide +kernel

/-- Ctrl+L clears the screen on the way. -/
theorem convertToAscii_ctrlL (ctrl : CtrlHeld k) :
    (k.convertToAscii termSwitch 0x24).1 = k.resetScreen := by
  have hshift : k.kbd.scac ≠ shiftBit := by
    rcases ctrl with h | h <;> rw [h] <;> decide
  have hcaps : k.kbd.scac ≠ capsBit := by
    rcases ctrl with h | h <;> rw [h] <;> decide
  unfold Kernel.convertToAscii
  dsimp only
  unfold CtrlHeld at ctrl
  rw [if_neg (by decide), if_neg (by decide), if_neg hshift, if_neg hcaps, if_pos ctrl]
  rfl

/-- Nothing else does but Alt+F1 to Alt+F3. -/
theorem convertToAscii_plain (notSwitch : ¬ SwitchesTerminal scanCode k)
    (notReset : ¬ (scanCode = 0x26 ∧ CtrlHeld k)) :
    (k.convertToAscii termSwitch (scanCode - 2)).1 = k := by
  have hscan : scanCode - 2 + 2 = scanCode := UInt8.sub_add_cancel scanCode 2
  unfold Kernel.convertToAscii
  dsimp only
  split
  · rfl
  · split
    · split
      next halt =>
        have hnone : functionKey scanCode = none :=
          Option.not_isSome_iff_eq_none.mp fun hkey => notSwitch ⟨hkey, halt⟩
        rw [hscan, hnone, ite_self]
      next => rfl
    · split
      · rfl
      · split
        · rfl
        · split
          next hctrl =>
            dsimp only
            rw [if_neg]
            rw [lookupScan_l]
            exact fun hcode => notReset ⟨hcode, hctrl⟩
          next => repeat' (first | rfl | split)

theorem asciiOf_ctrl (ctrl : CtrlHeld k) : asciiOf 0x24 k.kbd.scac = 0 := by
  rcases ctrl with h | h <;> rw [h] <;> decide

/-- The branch of the visible terminal, for every code but Alt+F1 to Alt+F3. -/
theorem keyboardHandler_eq {t : Nat} (hvis : visibleSlot k = some t)
    (notSwitch : ¬ SwitchesTerminal scanCode k) :
    k.keyboardHandler termSwitch scanCode =
      match k.modifierKey scanCode with
      | some k' => k'
      | none =>
        if Kernel.ignoresScan scanCode then k
        else if ResetsScreen scanCode k then k.resetScreen
        else if k.kbd.terminalEnabled t = 1 then
          k.editKey t (asciiOf (scanCode - 2) k.kbd.scac)
        else k := by
  have hsome : (visibleSlot k).isSome := by rw [hvis]; rfl
  rw [keyboardHandler_visible hvis, Kernel.handleKey]
  cases hmod : k.modifierKey scanCode with
  | some k' => rfl
  | none =>
    dsimp only
    refine if_congr Iff.rfl rfl ?_
    rw [convertToAscii_char]
    by_cases hreset : scanCode = 0x26 ∧ CtrlHeld k
    · have hresets : ResetsScreen scanCode k := ⟨hsome, hreset⟩
      obtain ⟨rfl, hctrl⟩ := hreset
      have hkernel := @convertToAscii_ctrlL termSwitch k hctrl
      have hzero : asciiOf (0x26 - 2) k.kbd.scac = 0 := asciiOf_ctrl hctrl
      rw [if_pos hresets, hzero, ← hkernel]
      exact ite_self _
    · have hresets : ¬ ResetsScreen scanCode k := fun h => hreset h.2
      rw [if_neg hresets, convertToAscii_plain notSwitch hreset]

end Convert

/-! ## What a branch draws -/

/-- The visible page, and the cursor. -/
def Kernel.visiblePage (k : Kernel) : Pen :=
  ⟨onPage videoAddr k.mem, k.con.screenX, k.con.screenY⟩

/-- A branch draws a character: Enter always, a backspace unless the line is empty, and
anything else unless it is full. -/
def LineVars.Echoes (c : UInt8) (l : LineVars) : Prop :=
  c = newline ∨ (c ≠ newline ∧ c = backspace ∧ l.currIdx ≠ 0) ∨
    (c ≠ newline ∧ c ≠ backspace ∧ l.currIdx ≠ bufSize - 1)

instance (c : UInt8) (l : LineVars) : Decidable (l.Echoes c) :=
  inferInstanceAs (Decidable (_ ∨ _ ∨ _))

section Draw

variable {k : Kernel} {t : Nat} {c : UInt8}

/-- A terminal mapped for itself is on the visible page. -/
theorem screenBase_self (vimPt : k.mmu.vimPtIdx = ptIndex videoAddr) (a : Int) :
    (k.switchTermVim a a).screenBase = videoAddr := by
  show ((k.mmu.switchTermVim _ a a).pageTable (ptIndex videoAddr)).pageBaseAddr * 4096 = _
  rw [Mmu.switchTermVim_pageTable, vimPt, Function.update_self]
  exact (termFrame_textPage a a).trans (if_pos rfl)

theorem screen_of_base (h : k.screenBase = videoAddr) : k.screen = k.visiblePage := by
  unfold Kernel.screen Kernel.visiblePage
  unfold Kernel.screenBase at h
  rw [h]

theorem putc_screenBase : (k.putc c).screenBase = k.screenBase := by
  unfold Kernel.screenBase
  rw [Kernel.putc_mmu]

/-- A character drawn with a terminal mapped for itself. -/
theorem Remapped.putc_self (S : Remapped k) (a : Int) (c : UInt8) :
    ((k.switchTermVim a a).putc c).visiblePage = Pen.put flat c k.visiblePage ∧
      ∀ b, b < videoAddr ∨ videoAddr + 4096 ≤ b →
        ((k.switchTermVim a a).putc c).mem b = k.mem b := by
  have hbase := screenBase_self S.vimPt a
  obtain ⟨hx, hx', hy, hy'⟩ := S.cursor
  have R : (k.switchTermVim a a).screen.InRange := ⟨hx, hx', hy, hy'⟩
  constructor
  · have hput := Kernel.putc_screen R c
    rwa [screen_of_base (putc_screenBase.trans hbase), screen_of_base hbase] at hput
  · intro b hb
    rw [← hbase] at hb
    exact Kernel.putc_offScreen R c hb

/-- A branch that draws does so with a terminal mapped for itself. -/
theorem editKey_echoes (hc : c ≠ 0) (h : (k.kbd.line t).Echoes c) :
    ∃ a, (k.editKey t c).mem = ((k.switchTermVim a a).putc c).mem ∧
      (k.editKey t c).con = ((k.switchTermVim a a).putc c).con := by
  unfold Kernel.editKey
  rw [if_neg hc]
  rcases h with rfl | ⟨hline, rfl, hidx⟩ | ⟨hline, hback, hidx⟩
  · rw [if_pos rfl]
    exact ⟨0, rfl, rfl⟩
  · rw [if_neg hline, if_pos rfl, if_neg hidx]
    exact ⟨t, rfl, rfl⟩
  · rw [if_neg hline, if_neg hback, if_neg hidx]
    exact ⟨t, rfl, rfl⟩

theorem editKey_quiet (h : ¬ (k.kbd.line t).Echoes c) : k.editKey t c = k := by
  unfold LineVars.Echoes at h
  unfold Kernel.editKey
  split
  · rfl
  · split
    next hline => exact absurd (.inl hline) h
    next hline =>
      split
      next hback =>
        split
        next => rfl
        next hidx => exact absurd (.inr (.inl ⟨hline, hback, hidx⟩)) h
      next hback =>
        split
        next => rfl
        next hidx => exact absurd (.inr (.inr ⟨hline, hback, hidx⟩)) h

end Draw

/-! ## Ctrl+L -/

/-- The cells cleared by the first `n` turns. -/
theorem clearCells_apply (page : Nat → UInt8) (n off : Nat) :
    (List.range n).foldl (Kernel.clearCell flat) page off =
      if off < 2 * n then if off % 2 = 0 then blank else attrib else page off := by
  induction n with
  | zero => simp
  | succ n ih =>
    have hchar : flat (2 * n) = 2 * n := by
      unfold flat
      omega
    have hattr : flat (2 * n + 1) = 2 * n + 1 := by
      unfold flat
      omega
    rw [List.range_succ, List.foldl_append, List.foldl_cons, List.foldl_nil, Kernel.clearCell,
      hchar, hattr]
    by_cases hodd : off = 2 * n + 1
    · rw [hodd, Function.update_self, if_pos (by omega), if_neg (by omega)]
    · rw [Function.update_of_ne hodd]
      by_cases heven : off = 2 * n
      · rw [heven, Function.update_self, if_pos (by omega), if_pos (by omega)]
      · rw [Function.update_of_ne heven, ih]
        by_cases hlt : off < 2 * n
        · have hlt' : off < 2 * (n + 1) := by omega
          rw [if_pos hlt, if_pos hlt']
        · rw [if_neg hlt, if_neg (by omega)]

theorem clearPage_apply (page : Nat → UInt8) (off : Nat) :
    clearPage page off = if off < 4000 then if off % 2 = 0 then blank else attrib else page off :=
  clearCells_apply page 2000 off

/-- A page is cleared already just when clearing it changes nothing. -/
theorem cleared_iff (page : Nat → UInt8) : Cleared page ↔ clearPage page = page := by
  constructor
  · intro cleared
    funext off
    rw [clearPage_apply]
    by_cases hoff : off < 4000
    · rw [if_pos hoff, cleared off hoff]
    · rw [if_neg hoff]
  · intro same off hoff
    have hpage := congrFun same off
    rw [clearPage_apply, if_pos hoff] at hpage
    exact hpage.symm

/-- `reset_screen` clears the page mapped at `0xB8000`, and puts the visible cursor at the top. -/
theorem resetScreen_drawn (k : Kernel) :
    Drawn k.screenBase k.mem k.resetScreen.mem (clearPage (onPage k.screenBase k.mem)) ∧
      k.resetScreen.con.screenX = 0 ∧ k.resetScreen.con.screenY = 0 :=
  ⟨({ k with con := { k.con with screenX := 0, screenY := 0 } } : Kernel).clear_drawn, rfl, rfl⟩

/-! ## The handler -/

section Handler

variable {termSwitch : TermSwitch} {scanCode : UInt8} {k : Kernel}

/-- Whatever memory holds, the same page is mapped and the same keys are down. -/
theorem Remapped.withMem (S : Remapped k) (mem : Nat → UInt8) : Remapped { k with mem } := by
  obtain ⟨hsettled, hvimPt, hx, hx', hy, hy'⟩ := S
  exact ⟨hsettled, hvimPt, hx, hx', hy, hy'⟩

/-- Ctrl+L is `reset_screen` and nothing else. -/
theorem keyboardHandler_reset (reset : ResetsScreen scanCode k) :
    k.keyboardHandler termSwitch scanCode = k.resetScreen := by
  obtain ⟨t, hvis⟩ := Option.isSome_iff_exists.mp reset.1
  obtain ⟨rfl, hctrl⟩ := reset.2
  have notSwitch : ¬ SwitchesTerminal 0x26 k := by
    rintro ⟨hkey, _⟩
    revert hkey
    decide
  have hmod : k.modifierKey 0x26 = none := rfl
  have hrange : ¬ Kernel.ignoresScan 0x26 := by decide
  rw [keyboardHandler_eq hvis notSwitch, hmod]
  dsimp only
  rw [if_neg hrange, if_pos reset]

/-- Any other code draws on the visible page or not at all. -/
theorem Remapped.draws_visible (S : Remapped k) (notSwitch : ¬ SwitchesTerminal scanCode k)
    (notReset : ¬ ResetsScreen scanCode k) {a : Nat}
    (ha : a < videoAddr ∨ videoAddr + 4096 ≤ a) :
    (k.keyboardHandler termSwitch scanCode).mem a = k.mem a := by
  cases hvis : visibleSlot k with
  | none => rw [keyboardHandler_hidden hvis]
  | some t =>
    rw [keyboardHandler_eq hvis notSwitch]
    cases hmod : k.modifierKey scanCode with
    | some k' =>
      obtain ⟨scac, capslockHoldon, rfl⟩ := modifierKey_frame hmod
      rfl
    | none =>
      dsimp only
      rw [if_neg notReset]
      split
      · rfl
      · split
        next =>
          by_cases hc : asciiOf (scanCode - 2) k.kbd.scac = 0
          · rw [hc, Kernel.editKey, if_pos rfl]
          · by_cases hecho : (k.kbd.line t).Echoes (asciiOf (scanCode - 2) k.kbd.scac)
            · obtain ⟨b, hmem, _⟩ := editKey_echoes hc hecho
              rw [hmem]
              exact (S.putc_self b _).2 a ha
            · rw [editKey_quiet hecho]
        next => rfl

/-- With the visible page mapped, Ctrl+L draws there too. -/
theorem Remapped.reset_visible (S : Remapped k) (own : k.curExecuteTerm = k.curVisTerm)
    (reset : ResetsScreen scanCode k) {a : Nat} (ha : a < videoAddr ∨ videoAddr + 4096 ≤ a) :
    (k.keyboardHandler termSwitch scanCode).mem a = k.mem a := by
  have hbase : k.screenBase = videoAddr := S.screenBase.trans (if_pos own)
  rw [keyboardHandler_reset reset]
  rw [← hbase] at ha
  exact (resetScreen_drawn k).1.frame a ha

/-- A handler that never leaves the visible page. -/
theorem ActsOnVisible.of_untouched
    (h : ∀ (mem : Nat → UInt8) (a : Nat), a < videoAddr ∨ videoAddr + 4096 ≤ a →
      ({ k with mem }.keyboardHandler termSwitch scanCode).mem a = mem a) :
    ActsOnVisible termSwitch scanCode k where
  backBuffers := fun a lo _ => h k.mem a (.inr lo)
  cells := fun _ a => by
    rintro ⟨mem, hdraws⟩
    by_contra hout
    exact hdraws (h mem a (by omega))

/-- Another terminal's page is one of the back buffers. -/
theorem backBuffer_range (t : Int) : bb1Addr ≤ backBuffer t ∧ backBuffer t ≤ bb3Addr := by
  unfold backBuffer
  split
  · decide
  · split <;> decide

/-- Whatever memory holds, Ctrl+L draws the first cell of the page mapped. -/
theorem draws_reset (reset : ResetsScreen scanCode k) :
    Draws termSwitch scanCode k k.screenBase := by
  refine ⟨fun _ => 0, ?_⟩
  have hbase : ({ k with mem := fun _ => 0 } : Kernel).screenBase = k.screenBase := rfl
  have hreset := @keyboardHandler_reset termSwitch scanCode { k with mem := fun _ => 0 } reset
  have hcell := congrFun (resetScreen_drawn { k with mem := fun _ => 0 }).1.page 0
  rw [clearPage_apply, hbase, onPage, if_pos (by omega), if_pos (by omega), if_pos (by omega),
    Nat.add_zero] at hcell
  rw [hreset, hcell]
  show blank ≠ 0
  decide

/-- Ctrl+L with another terminal's page mapped. -/
theorem Remapped.reset_hidden (S : Remapped k) (other : k.curExecuteTerm ≠ k.curVisTerm)
    (reset : ResetsScreen scanCode k) :
    ActsOnVisible termSwitch scanCode k ↔
      Cleared (onPage (backBuffer k.curExecuteTerm) k.mem) ∧
        k.con.screenX = 0 ∧ k.con.screenY = 0 := by
  have hbase : k.screenBase = backBuffer k.curExecuteTerm := S.screenBase.trans (if_neg other)
  obtain ⟨lo, hi⟩ := backBuffer_range k.curExecuteTerm
  have hreset := @keyboardHandler_reset termSwitch _ _ reset
  have hdraws := @draws_reset termSwitch _ _ reset
  obtain ⟨⟨hpage, hframe⟩, hx, hy⟩ := resetScreen_drawn k
  rw [hbase] at hpage hframe hdraws
  rw [cleared_iff, ← hpage, onPage_eq_iff]
  constructor
  · intro acts
    constructor
    · intro a ha ha'
      rw [← hreset]
      exact acts.backBuffers a (by omega) (by omega)
    · by_contra hmoved
      have hcell := acts.cells (fun heq => hmoved ?_) _ hdraws
      · unfold bb1Addr at lo
        unfold videoAddr at hcell
        omega
      · rw [hreset, hx, hy] at heq
        obtain ⟨hx₀, hy₀⟩ := Prod.mk.inj heq
        exact ⟨hx₀.symm, hy₀.symm⟩
  · rintro ⟨same, hx₀, hy₀⟩
    constructor
    · intro a _ _
      rw [hreset]
      by_cases hin : backBuffer k.curExecuteTerm ≤ a ∧ a < backBuffer k.curExecuteTerm + 4096
      · exact same a hin.1 hin.2
      · exact hframe a (by omega)
    · intro hmoved
      refine absurd ?_ hmoved
      rw [hreset, hx, hy, hx₀, hy₀]

/-- A scan code other than Alt+F1 to Alt+F3 acts on the visible page alone just when it is not
Ctrl+L, or the visible terminal executes, or the executing one's back buffer is blank already
and the cursor at the top. -/
theorem keys_actOnVisible_iff (S : Remapped k) (notSwitch : ¬ SwitchesTerminal scanCode k) :
    ActsOnVisible termSwitch scanCode k ↔
      (¬ ResetsScreen scanCode k ∨ k.curExecuteTerm = k.curVisTerm ∨
        Cleared (onPage (backBuffer k.curExecuteTerm) k.mem) ∧
          k.con.screenX = 0 ∧ k.con.screenY = 0) := by
  by_cases reset : ResetsScreen scanCode k
  · by_cases own : k.curExecuteTerm = k.curVisTerm
    · refine iff_of_true (.of_untouched fun mem a ha => ?_) (.inr (.inl own))
      exact (S.withMem mem).reset_visible own reset ha
    · rw [S.reset_hidden own reset]
      simp [reset, own]
  · refine iff_of_true (.of_untouched fun mem a ha => ?_) (.inl reset)
    exact (S.withMem mem).draws_visible notSwitch reset ha

end Handler

/-- Terminal 0 is shown while terminal 1's shell runs, and a Ctrl key is held. -/
def ctrlPressed : Kernel :=
  { backgroundShell with kbd := { backgroundShell.kbd with scac := ctrlBit } }

theorem ctrlPressed_remapped : Remapped ctrlPressed where
  settled := backgroundShell_settled
  vimPt := rfl
  cursor := ⟨by decide, by decide, by decide, by decide⟩

theorem ctrlPressed_noSwitch (scanCode : UInt8) : ¬ SwitchesTerminal scanCode ctrlPressed := by
  rintro ⟨_, halt⟩
  revert halt
  decide

/-- Ctrl+C. -/
theorem keys_actOnVisible_other : ActsOnVisible plainSwitch 0x2E ctrlPressed :=
  (keys_actOnVisible_iff ctrlPressed_remapped (ctrlPressed_noSwitch 0x2E)).mpr
    (.inl fun reset => absurd reset.2.1 (by decide))

/-- Ctrl+L clears terminal 1's back buffer. -/
theorem keys_actOnHidden_ctrlL :
    Remapped ctrlPressed ∧ ¬ SwitchesTerminal 0x26 ctrlPressed ∧
      ¬ ActsOnVisible plainSwitch 0x26 ctrlPressed := by
  refine ⟨ctrlPressed_remapped, ctrlPressed_noSwitch 0x26, fun acts => ?_⟩
  have reset : ResetsScreen 0x26 ctrlPressed := ⟨rfl, rfl, .inr rfl⟩
  have hother : ctrlPressed.curExecuteTerm ≠ ctrlPressed.curVisTerm := by decide
  have hcleared := ((ctrlPressed_remapped.reset_hidden hother reset).mp acts).1 0 (by omega)
  revert hcleared
  decide

end Mp3Kernel
