import Mp3Kernel.Laws.VisibleKeys

/-!
# One handler for three terminals

The three branches of `keyboard_handler` are copies. Seen from the terminal it belongs to, each
does one thing: `KeyView.handle`, a function of that terminal's line, the modifiers, the visible
page with its cursor, and the page mapped at `0xB8000` when that is another.
-/

namespace Mp3Kernel

/-- What the branch of a terminal works on. -/
structure KeyView where
  line : LineVars
  enabled : Int
  scac : UInt8
  capslockHoldon : Int
  screen : Pen
  /-- The page mapped at `0xB8000`, unless it is the visible one. -/
  mapped : Option (Nat → UInt8)

/-- What terminal `t`'s branch sees. -/
def keyView (t : Nat) (k : Kernel) : KeyView where
  line := k.kbd.line t
  enabled := k.kbd.terminalEnabled t
  scac := k.kbd.scac
  capslockHoldon := k.kbd.capslockHoldon
  screen := k.visiblePage
  mapped := if k.screenBase = videoAddr then none else some (onPage k.screenBase k.mem)

/-! ## The one handler -/

/-- The modifier byte and the Caps Lock hold that a modifier's code leaves. -/
def modifiers (scanCode scac : UInt8) (hold : Int) : Option (UInt8 × Int) :=
  if scanCode = 0x2A ∨ scanCode = 0x36 then some (scac ||| shiftBit, hold)
  else if scanCode = 0xAA ∨ scanCode = 0xB6 then some (scac &&& (0xFF - shiftBit), hold)
  else if scanCode = 0x3A then
    if hold = 0 then
      if i8 scac ≥ 4 then some (scac &&& (0xFF - capsBit), 1) else some (scac ||| capsBit, 1)
    else some (scac, hold)
  else if scanCode = 0xBA then some (scac, 0)
  else if scanCode = 0x38 then some (scac ||| altBit, hold)
  else if scanCode = 0xB8 then some (scac &&& (0xFF - altBit), hold)
  else if scanCode = 0x1D then some (scac ||| ctrlBit, hold)
  else if scanCode = 0x9D then some (scac &&& (0xFF - ctrlBit), hold)
  else none

namespace KeyView

/-- The page mapped is cleared, and the cursor goes to the top. -/
def reset (v : KeyView) : KeyView :=
  match v.mapped with
  | none => { v with screen := ⟨clearPage v.screen.mem, 0, 0⟩ }
  | some page => { v with screen := ⟨v.screen.mem, 0, 0⟩, mapped := some (clearPage page) }

/-- A character edits the line, and is drawn if the line takes it. -/
def type (c : UInt8) (v : KeyView) : KeyView :=
  { v with
    line := v.line.editKey c
    screen := if v.line.Echoes c then Pen.put flat c v.screen else v.screen }

/-- `keyboard_handler`, for the terminal that is visible. -/
def handle (scanCode : UInt8) (v : KeyView) : KeyView :=
  match modifiers scanCode v.scac v.capslockHoldon with
  | some (scac, capslockHoldon) => { v with scac, capslockHoldon }
  | none =>
    let c := asciiOf (scanCode - 2) v.scac
    if Kernel.ignoresScan scanCode then v
    else if scanCode = 0x26 ∧ (v.scac = capsBit + ctrlBit ∨ v.scac = ctrlBit) then v.reset
    else if v.enabled = 1 ∧ c ≠ 0 then v.type c
    else v

end KeyView

/-! ## The branches -/

section Branch

variable {termSwitch : TermSwitch} {scanCode : UInt8} {k : Kernel} {t : Nat} {c : UInt8}

theorem visibleSlot_of (ht : t < 3) (hvis : k.curVisTerm = t) : visibleSlot k = some t := by
  unfold visibleSlot
  rw [hvis]
  split_ifs <;> congr 1 <;> omega

/-- The modifier cases, seen from any terminal. -/
theorem modifierKey_view (t : Nat) (scanCode : UInt8) (k : Kernel) :
    (k.modifierKey scanCode).map (keyView t) =
      (modifiers scanCode k.kbd.scac k.kbd.capslockHoldon).map fun m =>
        { keyView t k with scac := m.1, capslockHoldon := m.2 } := by
  unfold Kernel.modifierKey modifiers
  dsimp only
  split_ifs <;> rfl

/-- Every remapping a branch makes is undone. -/
theorem Remapped.editKey_mmu (S : Remapped k) (hvis : k.curVisTerm = t) (c : UInt8) :
    (k.editKey t c).mmu = k.mmu := by
  have hundone : ∀ a : Int,
      ((k.switchTermVim a a).switchTermVim t k.curExecuteTerm).mmu = k.mmu := by
    intro a
    refine (Mmu.switchTermVim_again _ _ _ _ _ _).trans ?_
    rw [← hvis]
    exact S.settled
  unfold Kernel.editKey
  split
  · rfl
  · split
    · exact hundone 0
    · split
      · split
        · rfl
        · exact hundone t
      · split
        · rfl
        · exact hundone t

theorem editKey_kbd (t : Nat) (c : UInt8) (k : Kernel) :
    (k.editKey t c).kbd = { k.kbd with line := (k.editKey t c).kbd.line } := by
  unfold Kernel.editKey
  split
  · rfl
  · split
    · rfl
    · split
      · split <;> rfl
      · split <;> rfl

/-- The page mapped besides the visible one is past it. -/
theorem Remapped.screenBase_cases (S : Remapped k) :
    k.screenBase = videoAddr ∨ videoAddr + 4096 ≤ k.screenBase := by
  rw [S.screenBase, textPage]
  split
  · exact .inl rfl
  · exact .inr (backBuffer_range _).1

/-- Where only the visible page is drawn on, the other page mapped stays. -/
theorem Remapped.mapped_eq (S : Remapped k) {k' : Kernel} (mmu : k'.mmu = k.mmu)
    (frame : ∀ a, a < videoAddr ∨ videoAddr + 4096 ≤ a → k'.mem a = k.mem a) :
    (keyView t k').mapped = (keyView t k).mapped := by
  have hbase : k'.screenBase = k.screenBase := by
    unfold Kernel.screenBase
    rw [mmu]
  unfold keyView
  dsimp only
  rw [hbase]
  split
  next => rfl
  next hother =>
    have hpast := S.screenBase_cases
    congr 1
    exact onPage_eq_iff.mpr fun a _ _ => frame a (by omega)

/-- A character, seen from the terminal it is typed on. -/
theorem Remapped.editKey_view (S : Remapped k) (hvis : k.curVisTerm = t) (hc : c ≠ 0) :
    keyView t (k.editKey t c) = (keyView t k).type c ∧
      ∀ a, a < videoAddr ∨ videoAddr + 4096 ≤ a → (k.editKey t c).mem a = k.mem a := by
  by_cases hecho : (k.kbd.line t).Echoes c
  · obtain ⟨b, hmem, hcon⟩ := editKey_echoes hc hecho
    obtain ⟨hdrawn, hframe⟩ := S.putc_self b c
    have frame : ∀ a, a < videoAddr ∨ videoAddr + 4096 ≤ a →
        (k.editKey t c).mem a = k.mem a := by
      rw [hmem]
      exact hframe
    have hmapped := S.mapped_eq (t := t) (S.editKey_mmu hvis c) frame
    have hscreen : (k.editKey t c).visiblePage = Pen.put flat c k.visiblePage := by
      rw [← hdrawn]
      unfold Kernel.visiblePage
      rw [hmem, hcon]
    have hline : (k.editKey t c).kbd.line t = (k.kbd.line t).editKey c := by
      rw [k.editKey_line t hc, Function.update_self]
    refine ⟨?_, frame⟩
    show KeyView.mk ((k.editKey t c).kbd.line t) ((k.editKey t c).kbd.terminalEnabled t)
        (k.editKey t c).kbd.scac (k.editKey t c).kbd.capslockHoldon (k.editKey t c).visiblePage
        (keyView t (k.editKey t c)).mapped =
      KeyView.mk ((k.kbd.line t).editKey c) _ _ _
        (if (k.kbd.line t).Echoes c then Pen.put flat c k.visiblePage else k.visiblePage)
        (keyView t k).mapped
    rw [hline, hscreen, hmapped, if_pos hecho, editKey_kbd]
    rfl
  · have hsame := editKey_quiet hecho
    have hline : (k.kbd.line t).editKey c = k.kbd.line t := by
      have hedit := congrFun (k.editKey_line t hc) t
      rw [hsame, Function.update_self] at hedit
      exact hedit.symm
    rw [hsame]
    refine ⟨?_, fun _ _ => rfl⟩
    unfold keyView KeyView.type
    dsimp only
    rw [hline, if_neg hecho]

/-- Ctrl+L, seen from any terminal. -/
theorem Remapped.resetScreen_view (S : Remapped k) (t : Nat) :
    keyView t k.resetScreen = (keyView t k).reset := by
  obtain ⟨⟨hpage, hframe⟩, hx, hy⟩ := resetScreen_drawn k
  have hbase : k.resetScreen.screenBase = k.screenBase := rfl
  unfold keyView KeyView.reset Kernel.visiblePage
  dsimp only
  rw [hbase, hx, hy]
  by_cases hown : k.screenBase = videoAddr
  · rw [if_pos hown, if_pos hown]
    dsimp only
    rw [← hown, hpage]
    rfl
  · have hpast := S.screenBase_cases
    have hvisible : onPage videoAddr k.resetScreen.mem = onPage videoAddr k.mem :=
      onPage_eq_iff.mpr fun a _ _ => hframe a (by omega)
    rw [if_neg hown, if_neg hown]
    dsimp only
    rw [hpage, hvisible]
    rfl

theorem resetScreen_kbd : k.resetScreen.kbd = k.kbd := rfl

theorem resetScreen_mmu : k.resetScreen.mmu = k.mmu := rfl

/-- What a branch leaves alone: the other terminals' variables, every terminal's flag, the page
tables, and all memory but the two pages it sees. -/
structure BranchFrame (t : Nat) (k k' : Kernel) : Prop where
  line : ∀ u, u ≠ t → k'.kbd.line u = k.kbd.line u
  enabled : k'.kbd.terminalEnabled = k.kbd.terminalEnabled
  mmu : k'.mmu = k.mmu
  mem : ∀ a, a < videoAddr ∨ videoAddr + 4096 ≤ a →
    a < k.screenBase ∨ k.screenBase + 4096 ≤ a → k'.mem a = k.mem a

theorem BranchFrame.refl (t : Nat) (k : Kernel) : BranchFrame t k k :=
  ⟨fun _ _ => rfl, rfl, rfl, fun _ _ _ => rfl⟩

theorem Remapped.editKey_frame (S : Remapped k) (hvis : k.curVisTerm = t) (hc : c ≠ 0) :
    BranchFrame t k (k.editKey t c) where
  line := fun u hu => by rw [k.editKey_line t hc, Function.update_of_ne hu]
  enabled := by rw [editKey_kbd]
  mmu := S.editKey_mmu hvis c
  mem := fun a ha _ => (S.editKey_view hvis hc).2 a ha

theorem resetScreen_frame (t : Nat) (k : Kernel) : BranchFrame t k k.resetScreen where
  line := fun _ _ => by rw [resetScreen_kbd]
  enabled := by rw [resetScreen_kbd]
  mmu := resetScreen_mmu
  mem := fun a _ ha => (resetScreen_drawn k).1.frame a ha

/-- Whichever of the three terminals is visible, a scan code other than Alt+F1 to Alt+F3 does to
what that terminal's branch sees what the one handler does, and leaves everything else alone. -/
theorem keyboardHandler_view (S : Remapped k) (notSwitch : ¬ SwitchesTerminal scanCode k)
    (ht : t < 3) (hvis : k.curVisTerm = t) :
    keyView t (k.keyboardHandler termSwitch scanCode) = (keyView t k).handle scanCode ∧
      BranchFrame t k (k.keyboardHandler termSwitch scanCode) := by
  have hslot := visibleSlot_of ht hvis
  have hsome : (visibleSlot k).isSome := by rw [hslot]; rfl
  have hmodifiers := modifierKey_view t scanCode k
  rw [keyboardHandler_eq hslot notSwitch, KeyView.handle]
  cases hmod : k.modifierKey scanCode with
  | some k' =>
    rw [hmod, Option.map_some] at hmodifiers
    obtain ⟨m, hm, hview⟩ := Option.map_eq_some_iff.mp hmodifiers.symm
    have hm' : modifiers scanCode (keyView t k).scac (keyView t k).capslockHoldon = some m := hm
    rw [hm']
    refine ⟨hview.symm, ?_⟩
    obtain ⟨scac, capslockHoldon, rfl⟩ := modifierKey_frame hmod
    exact ⟨fun _ _ => rfl, rfl, rfl, fun _ _ _ => rfl⟩
  | none =>
    rw [hmod, Option.map_none] at hmodifiers
    have hm : modifiers scanCode (keyView t k).scac (keyView t k).capslockHoldon = none :=
      Option.map_eq_none_iff.mp hmodifiers.symm
    rw [hm]
    dsimp only
    by_cases hrange : Kernel.ignoresScan scanCode
    · rw [if_pos hrange, if_pos hrange]
      exact ⟨rfl, .refl t k⟩
    · rw [if_neg hrange, if_neg hrange]
      by_cases hctrl : scanCode = 0x26 ∧ CtrlHeld k
      · have hreset : ResetsScreen scanCode k := ⟨hsome, hctrl⟩
        have hctrl' : scanCode = 0x26 ∧ ((keyView t k).scac = capsBit + ctrlBit ∨
            (keyView t k).scac = ctrlBit) := hctrl
        rw [if_pos hreset, if_pos hctrl']
        exact ⟨S.resetScreen_view t, resetScreen_frame t k⟩
      · have hreset : ¬ ResetsScreen scanCode k := fun h => hctrl h.2
        have hctrl' : ¬ (scanCode = 0x26 ∧ ((keyView t k).scac = capsBit + ctrlBit ∨
            (keyView t k).scac = ctrlBit)) := hctrl
        have henabled : (keyView t k).enabled = k.kbd.terminalEnabled t := rfl
        have hchar : (keyView t k).scac = k.kbd.scac := rfl
        rw [if_neg hreset, if_neg hctrl', henabled, hchar]
        by_cases hon : k.kbd.terminalEnabled t = 1
        · by_cases hc : asciiOf (scanCode - 2) k.kbd.scac = 0
          · rw [if_pos hon, hc, Kernel.editKey, if_pos rfl, if_neg fun h => h.2 rfl]
            exact ⟨rfl, .refl t k⟩
          · rw [if_pos hon, if_pos ⟨hon, hc⟩]
            exact ⟨(S.editKey_view hvis hc).1, S.editKey_frame hvis hc⟩
        · rw [if_neg hon, if_neg fun h => hon h.1]
          exact ⟨rfl, .refl t k⟩

end Branch

/-- Ctrl+L with terminal 1's back buffer mapped. -/
theorem keyboardHandler_view_ctrlL :
    keyView 0 (ctrlPressed.keyboardHandler plainSwitch 0x26) = (keyView 0 ctrlPressed).handle 0x26 ∧
      BranchFrame 0 ctrlPressed (ctrlPressed.keyboardHandler plainSwitch 0x26) :=
  keyboardHandler_view ctrlPressed_remapped (ctrlPressed_noSwitch 0x26) (by decide) rfl

end Mp3Kernel
