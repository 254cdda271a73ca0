import Mp3Kernel.Kernel.Keyboard
import Mp3Kernel.Kernel.Machine
import Mp3Kernel.Lib.LineEdit
import Mathlib.Tactic.SplitIfs

/-!
# The line discipline

A scan code edits at most one terminal's line: the visible one's, when it is enabled and the
code converts to a character (`keyTyped`). The terminal's key buffer and index always hold the
line its characters since the last Enter leave, whatever the buffer still holds behind it; an
Enter moves that line to the line buffer.
-/

namespace Mp3Kernel

/-! ## What a scan code types -/

/-- The key buffers and their indices are the same. -/
def SameKeys (k k' : Kernel) : Prop :=
  ∀ t, (k'.kbd.line t).keyBuf = (k.kbd.line t).keyBuf ∧
    (k'.kbd.line t).currIdx = (k.kbd.line t).currIdx

/-- A change that leaves the key buffers and their indices alone. -/
def KeepsKeys (f : Kernel → Kernel) : Prop := ∀ k, SameKeys k (f k)

/-- A scan code, and whatever happens before it: the visible terminal and the flags may be
anything then, but the key buffers are the handler's own. -/
structure KeyEvent where
  before : Kernel → Kernel
  keeps : KeepsKeys before
  scanCode : UInt8

section Keys

variable (termSwitch : TermSwitch)

/-- One scan code. -/
def keyStep (k : Kernel) (e : KeyEvent) : Kernel :=
  (e.before k).keyboardHandler termSwitch e.scanCode

/-- The terminal whose branch the handler takes. -/
def visibleSlot (k : Kernel) : Option Nat :=
  if k.curVisTerm = 0 then some 0
  else if k.curVisTerm = 1 then some 1
  else if k.curVisTerm = 2 then some 2
  else none

/-- The character a scan code converts to, if it is neither a modifier nor out of range. -/
def convertedChar (scanCode : UInt8) (k : Kernel) : UInt8 :=
  if (k.modifierKey scanCode).isSome ∨ Kernel.ignoresScan scanCode then 0
  else (k.convertToAscii termSwitch (scanCode - 2)).2

/-- The terminal a scan code types on and the character: the terminal is visible and enabled,
and the character is not zero. -/
def keyTyped (k : Kernel) (e : KeyEvent) : Option (Nat × UInt8) :=
  match visibleSlot (e.before k) with
  | none => none
  | some t =>
    let c := convertedChar termSwitch e.scanCode (e.before k)
    if (e.before k).kbd.terminalEnabled t = 1 ∧ c ≠ 0 then some (t, c) else none

/-- The characters typed on each terminal since its last Enter. -/
abbrev Typed := Nat → List UInt8

/-- What one scan code adds. -/
def noteKey (k : Kernel) (e : KeyEvent) (typed : Typed) : Typed :=
  match keyTyped termSwitch k e with
  | none => typed
  | some (t, c) => Function.update typed t (if c = newline then [] else typed t ++ [c])

/-- What a list of scan codes adds. -/
def noteKeys : Kernel → List KeyEvent → Typed → Typed
  | _, [], typed => typed
  | k, e :: es, typed => noteKeys (keyStep termSwitch k e) es (noteKey termSwitch k e typed)

end Keys

/-- A terminal's current edited line. -/
def editedLine (chars : List UInt8) : List UInt8 := LineEdit.edit 127 (· == backspace) chars

/-- One more character on the line. -/
theorem editedLine_snoc (chars : List UInt8) (c : UInt8) :
    editedLine (chars ++ [c]) =
      if c = backspace then (editedLine chars).dropLast
      else if 127 ≤ (editedLine chars).length then editedLine chars
      else editedLine chars ++ [c] := by
  unfold editedLine
  rw [LineEdit.edit_snoc, LineEdit.step]
  simp only [beq_iff_eq]

/-! ## The handler -/

/-- What a branch does to its terminal's variables. -/
def LineVars.editKey (c : UInt8) (l : LineVars) : LineVars :=
  if c = newline then { Kernel.enterLine l with currIdx := 0, readFlag := 1 }
  else if c = backspace then if l.currIdx = 0 then l else { l with currIdx := l.currIdx - 1 }
  else if l.currIdx = bufSize - 1 then l
  else { l with keyBuf := Function.update l.keyBuf l.currIdx c, currIdx := l.currIdx + 1 }

@[simp] theorem Kernel.modifyLine_line (term : Nat) (f : LineVars → LineVars) (k : Kernel) :
    (k.modifyLine term f).kbd.line =
      Function.update k.kbd.line term (f (k.kbd.line term)) := rfl

@[simp] theorem Kernel.switchTermVim_kbd (visTerm exeTerm : Int) (k : Kernel) :
    (k.switchTermVim visTerm exeTerm).kbd = k.kbd := rfl

theorem Kernel.editKey_line (term : Nat) {c : UInt8} (hc : c ≠ 0) (k : Kernel) :
    (k.editKey term c).kbd.line =
      Function.update k.kbd.line term ((k.kbd.line term).editKey c) := by
  unfold Kernel.editKey LineVars.editKey
  rw [if_neg hc]
  split
  next => simp [Function.update_idem]
  next =>
    split
    next =>
      split
      next => simp
      next => simp
    next =>
      split
      next => simp
      next => simp [Function.update_idem]

theorem SameKeys.of_line {k k' : Kernel} (h : k'.kbd.line = k.kbd.line) : SameKeys k k' := by
  intro t
  rw [h]
  exact ⟨rfl, rfl⟩

/-- A modifier's code changes the modifier byte and the flag of Caps Lock, and nothing else. -/
theorem modifierKey_frame {scanCode : UInt8} {k k' : Kernel}
    (h : k.modifierKey scanCode = some k') :
    ∃ scac capslockHoldon, k' = { k with kbd := { k.kbd with scac, capslockHoldon } } := by
  unfold Kernel.modifierKey at h
  dsimp only at h
  split_ifs at h <;> cases h <;> exact ⟨_, _, rfl⟩

theorem modifierKey_sameKeys {scanCode : UInt8} {k k' : Kernel}
    (h : k.modifierKey scanCode = some k') : SameKeys k k' := by
  obtain ⟨scac, capslockHoldon, rfl⟩ := modifierKey_frame h
  exact SameKeys.of_line rfl

section Handler

variable {termSwitch : TermSwitch} {k : Kernel}

theorem switchTerminal_sameKeys (keeps : ∀ t, KeepsKeys (termSwitch t)) (t : Int) :
    SameKeys k (k.switchTerminal termSwitch t) := by
  intro u
  unfold Kernel.switchTerminal
  dsimp only
  split <;> split <;> exact keeps t _ u

/-- A conversion that changes the state gives no character, and keeps the keys. -/
theorem convertToAscii_state (keeps : ∀ t, KeepsKeys (termSwitch t)) (scan : UInt8) :
    (k.convertToAscii termSwitch scan).1 = k ∨
      (k.convertToAscii termSwitch scan).2 = 0 ∧
        SameKeys k (k.convertToAscii termSwitch scan).1 := by
  unfold Kernel.convertToAscii
  dsimp only
  split
  · exact .inl rfl
  · split
    · split
      · split
        · exact .inr ⟨rfl, switchTerminal_sameKeys keeps _⟩
        · exact .inl rfl
      · exact .inl rfl
    · split
      · exact .inl rfl
      · split
        · exact .inl rfl
        · split
          · refine .inr ⟨rfl, SameKeys.of_line ?_⟩
            dsimp only
            split <;> rfl
          · split
            · exact .inl rfl
            · split <;> exact .inl rfl

/-- One branch of the handler: its terminal's line is edited by the character converted, if
there is one and the terminal is enabled, and nothing else. -/
theorem handleKey_line (keeps : ∀ t, KeepsKeys (termSwitch t)) (t : Nat) (scanCode : UInt8) :
    let c := convertedChar termSwitch scanCode k
    let k' := k.handleKey termSwitch t scanCode
    (k.kbd.terminalEnabled t = 1 ∧ c ≠ 0 →
        k'.kbd.line = Function.update k.kbd.line t ((k.kbd.line t).editKey c)) ∧
      (¬ (k.kbd.terminalEnabled t = 1 ∧ c ≠ 0) → SameKeys k k') := by
  intro c k'
  have hsame : ∀ {k₁ : Kernel}, k' = k₁ → SameKeys k k₁ → SameKeys k k' := by
    rintro _ rfl h
    exact h
  cases hmod : k.modifierKey scanCode with
  | some k₁ =>
    have hc : c = 0 := if_pos (.inl (by rw [hmod]; rfl))
    have hk' : k' = k₁ := by
      show k.handleKey termSwitch t scanCode = k₁
      rw [Kernel.handleKey, hmod]
    exact ⟨fun h => absurd hc h.2, fun _ => hsame hk' (modifierKey_sameKeys hmod)⟩
  | none =>
    by_cases hignore : Kernel.ignoresScan scanCode
    · have hc : c = 0 := if_pos (.inr hignore)
      have hk' : k' = k := by
        show k.handleKey termSwitch t scanCode = k
        rw [Kernel.handleKey, hmod]
        exact if_pos hignore
      exact ⟨fun h => absurd hc h.2, fun _ => hsame hk' (SameKeys.of_line rfl)⟩
    · let r := k.convertToAscii termSwitch (scanCode - 2)
      have hc : c = r.2 := if_neg (by rw [hmod]; simp [hignore])
      have hk' : k' = if r.1.kbd.terminalEnabled t = 1 then r.1.editKey t r.2 else r.1 := by
        show k.handleKey termSwitch t scanCode = _
        rw [Kernel.handleKey, hmod]
        exact if_neg hignore
      rcases convertToAscii_state (k := k) keeps (scanCode - 2) with hstate | ⟨hzero, hkeys⟩
      · have hr : r.1 = k := hstate
        rw [hr, ← hc] at hk'
        refine ⟨fun ⟨henabled, hne⟩ => ?_, fun hnot => ?_⟩
        · rw [if_pos henabled] at hk'
          rw [hk', Kernel.editKey_line t hne]
        · by_cases henabled : k.kbd.terminalEnabled t = 1
          · have hc₀ : c = 0 := by
              by_contra hne
              exact hnot ⟨henabled, hne⟩
            rw [if_pos henabled, hc₀] at hk'
            exact hsame hk' (SameKeys.of_line rfl)
          · rw [if_neg henabled] at hk'
            exact hsame hk' (SameKeys.of_line rfl)
      · have hr₂ : r.2 = 0 := hzero
        have hk₁ : k' = r.1 := by
          rw [hk', hr₂]
          split <;> rfl
        exact ⟨fun h => absurd (hc.trans hr₂) h.2, fun _ => hsame hk₁ hkeys⟩

theorem keyboardHandler_visible {t : Nat} (h : visibleSlot k = some t) (scanCode : UInt8) :
    k.keyboardHandler termSwitch scanCode = k.handleKey termSwitch t scanCode := by
  unfold visibleSlot at h
  unfold Kernel.keyboardHandler
  split_ifs at h ⊢ <;> cases h <;> rfl

theorem keyboardHandler_hidden (h : visibleSlot k = none) (scanCode : UInt8) :
    k.keyboardHandler termSwitch scanCode = k := by
  unfold visibleSlot at h
  unfold Kernel.keyboardHandler
  split_ifs at h ⊢
  rfl

theorem visibleSlot_lt {t : Nat} (h : visibleSlot k = some t) : t < 3 := by
  unfold visibleSlot at h
  split_ifs at h <;> cases h <;> decide

/-- A scan code that types nothing. -/
theorem keyStep_untyped (keeps : ∀ t, KeepsKeys (termSwitch t)) {e : KeyEvent}
    (h : keyTyped termSwitch k e = none) : SameKeys k (keyStep termSwitch k e) := by
  have hbefore := e.keeps k
  have hafter : SameKeys (e.before k) (keyStep termSwitch k e) := by
    unfold keyTyped at h
    unfold keyStep
    cases hvis : visibleSlot (e.before k) with
    | none =>
      rw [keyboardHandler_hidden hvis]
      exact SameKeys.of_line rfl
    | some t =>
      rw [hvis] at h
      rw [keyboardHandler_visible hvis]
      dsimp only at h
      split at h
      next => cases h
      next hnot => exact (handleKey_line keeps t e.scanCode).2 hnot
  intro u
  exact ⟨(hafter u).1.trans (hbefore u).1, (hafter u).2.trans (hbefore u).2⟩

/-- What it takes to type a character. -/
theorem keyTyped_some {e : KeyEvent} {t : Nat} {c : UInt8}
    (h : keyTyped termSwitch k e = some (t, c)) :
    visibleSlot (e.before k) = some t ∧
      c = convertedChar termSwitch e.scanCode (e.before k) ∧
      (e.before k).kbd.terminalEnabled t = 1 ∧ c ≠ 0 := by
  unfold keyTyped at h
  split at h
  next => cases h
  next t' hvis =>
    dsimp only at h
    split at h
    next htyped =>
      obtain ⟨rfl, rfl⟩ := Prod.mk.inj (Option.some.inj h)
      exact ⟨hvis, rfl, htyped⟩
    next => cases h

/-- A scan code that types a character on a terminal. -/
theorem keyStep_typed (keeps : ∀ t, KeepsKeys (termSwitch t)) {e : KeyEvent} {t : Nat} {c : UInt8}
    (h : keyTyped termSwitch k e = some (t, c)) :
    t < 3 ∧ (keyStep termSwitch k e).kbd.line =
      Function.update (e.before k).kbd.line t (((e.before k).kbd.line t).editKey c) := by
  obtain ⟨hvis, rfl, htyped⟩ := keyTyped_some h
  unfold keyStep
  rw [keyboardHandler_visible hvis]
  exact ⟨visibleSlot_lt hvis, (handleKey_line keeps t e.scanCode).1 htyped⟩

end Handler

/-! ## One terminal's line along a run -/

/-- A property of a terminal's variables and of what was typed on it that characters keep. -/
structure LineRule (P : LineVars → List UInt8 → Prop) : Prop where
  congr : ∀ {l l' : LineVars} {chars : List UInt8}, P l chars → l'.keyBuf = l.keyBuf →
    l'.currIdx = l.currIdx → P l' chars
  enter : ∀ {l : LineVars} {chars : List UInt8}, P l chars → P (l.editKey newline) []
  typed : ∀ {l : LineVars} {chars : List UInt8} {c : UInt8}, P l chars → c ≠ newline → c ≠ 0 →
    P (l.editKey c) (chars ++ [c])

section Rule

variable {termSwitch : TermSwitch} {k : Kernel} {typed : Typed} {P : LineVars → List UInt8 → Prop}

/-- Such a property of one terminal is kept by every scan code, whichever terminal it types on. -/
theorem LineRule.step (R : LineRule P) (keeps : ∀ t, KeepsKeys (termSwitch t)) (e : KeyEvent)
    {t : Nat} (H : P (k.kbd.line t) (typed t)) :
    P ((keyStep termSwitch k e).kbd.line t) (noteKey termSwitch k e typed t) := by
  unfold noteKey
  cases htyped : keyTyped termSwitch k e with
  | none =>
    obtain ⟨hbuf, hidx⟩ := keyStep_untyped keeps htyped t
    exact R.congr H hbuf hidx
  | some sent =>
    obtain ⟨t', c⟩ := sent
    obtain ⟨_, _, _, hc⟩ := keyTyped_some htyped
    obtain ⟨_, hline⟩ := keyStep_typed keeps htyped
    have hbefore : P ((e.before k).kbd.line t) (typed t) :=
      R.congr H (e.keeps k t).1 (e.keeps k t).2
    dsimp only
    rw [hline]
    by_cases heq : t = t'
    · subst heq
      rw [Function.update_self, Function.update_self]
      split
      next henter =>
        rw [henter]
        exact R.enter hbefore
      next hplain => exact R.typed hbefore hplain hc
    · rw [Function.update_of_ne heq, Function.update_of_ne heq]
      exact hbefore

/-- And by any list of them. -/
theorem LineRule.run (R : LineRule P) (keeps : ∀ t, KeepsKeys (termSwitch t)) (es : List KeyEvent)
    {t : Nat} (H : P (k.kbd.line t) (typed t)) :
    P ((es.foldl (keyStep termSwitch) k).kbd.line t) (noteKeys termSwitch k es typed t) := by
  induction es generalizing k typed with
  | nil => exact H
  | cons e es ih => exact ih (R.step keeps e H)

end Rule

/-! ## The invariant -/

/-- The key buffer and the index hold the line that characters leave. -/
structure LineVars.Holds (l : LineVars) (chars : List UInt8) : Prop where
  head : LineEdit.head l.keyBuf l.currIdx = editedLine chars
  plain : newline ∉ chars

section Line

variable {l l' : LineVars} {chars : List UInt8}

theorem LineVars.Holds.currIdx (H : l.Holds chars) : l.currIdx = (editedLine chars).length := by
  rw [← H.head, LineEdit.length_head]

theorem LineVars.Holds.congr (H : l.Holds chars) (keyBuf : l'.keyBuf = l.keyBuf)
    (currIdx : l'.currIdx = l.currIdx) : l'.Holds chars :=
  ⟨by rw [keyBuf, currIdx]; exact H.head, H.plain⟩

/-- A character that is not Enter. -/
theorem LineVars.Holds.typed (H : l.Holds chars) {c : UInt8} (hc : c ≠ newline) :
    (l.editKey c).Holds (chars ++ [c]) := by
  have hlength := H.currIdx
  have hroom : (editedLine chars).length ≤ 127 := LineEdit.length_edit_le chars
  refine ⟨?_, ?_⟩
  · rw [editedLine_snoc]
    unfold LineVars.editKey
    rw [if_neg hc]
    by_cases hback : c = backspace
    · rw [if_pos hback, if_pos hback, ← H.head, ← LineEdit.head_erase]
      split
      next hzero => rw [hzero]
      next => rfl
    · rw [if_neg hback, if_neg hback]
      by_cases hfull : l.currIdx = bufSize - 1
      · have hfull' : l.currIdx = 127 := hfull
        rw [if_pos hfull, if_pos (by omega)]
        exact H.head
      · have hfull' : l.currIdx ≠ 127 := hfull
        rw [if_neg hfull, if_neg (by omega), ← H.head]
        exact LineEdit.head_type _ _ _
  · rw [List.mem_append, List.mem_singleton]
    rintro (h | h)
    · exact H.plain h
    · exact hc h.symm

/-- Enter starts an empty line. -/
theorem LineVars.holds_enter (l : LineVars) : (l.editKey newline).Holds [] := ⟨rfl, by simp⟩

/-- Characters keep the line in the buffer. -/
theorem LineVars.Holds.rule : LineRule LineVars.Holds where
  congr := LineVars.Holds.congr
  enter := fun _ => LineVars.holds_enter _
  typed := fun H hc _ => H.typed hc

/-- Enter leaves the line in the line buffer, ended by its only newline. -/
theorem LineVars.Holds.entered (H : l.Holds chars) :
    LineEdit.head (l.editKey newline).lineBuf ((editedLine chars).length + 1) =
        editedLine chars ++ [newline] ∧
      newline ∉ editedLine chars ∧
      (l.editKey newline).currIdx = 0 ∧ (l.editKey newline).readFlag = 1 := by
  have hroom : (editedLine chars).length ≤ 127 := LineEdit.length_edit_le chars
  refine ⟨?_, fun h => H.plain (LineEdit.mem_of_mem_edit h), rfl, rfl⟩
  have hcopied : ∀ i < (editedLine chars).length + 1, (l.editKey newline).lineBuf i =
      Function.update l.keyBuf (editedLine chars).length newline i := by
    intro i hi
    have hi' : i < bufSize := by
      show i < 128
      omega
    rw [← H.currIdx]
    exact if_pos hi'
  rw [LineEdit.head_congr hcopied, LineEdit.head_type, ← H.currIdx, H.head]

end Line

/-- Every terminal's variables hold its line. -/
def HoldLines (k : Kernel) (typed : Typed) : Prop := ∀ t < 3, (k.kbd.line t).Holds (typed t)

section Runs

variable {termSwitch : TermSwitch} {k : Kernel} {typed : Typed}

/-- What a list of scan codes preserves. -/
theorem HoldLines.run (keeps : ∀ t, KeepsKeys (termSwitch t)) (es : List KeyEvent)
    (H : HoldLines k typed) :
    HoldLines (es.foldl (keyStep termSwitch) k) (noteKeys termSwitch k es typed) :=
  fun t ht => LineVars.Holds.rule.run keeps es (H t ht)

/-- `keyboard_init` starts three empty lines. -/
theorem keyboardInit_holdLines (k : Kernel) : HoldLines k.keyboardInit fun _ => [] := by
  intro t ht
  have hidx : (k.keyboardInit.kbd.line t).currIdx = 0 := by
    unfold Kernel.keyboardInit
    dsimp only
    rw [if_pos ht]
  refine ⟨?_, by simp⟩
  rw [hidx]
  rfl

end Runs

/-- After `keyboard_init` and any scan codes, whatever terminal was visible and enabled at each,
every terminal's index is the length of its edited line, which is at most 127; and the next
Enter on it leaves that line and a newline at the head of its line buffer, the index at 0 and
the read flag set. -/
theorem lineDiscipline_of_run {termSwitch : TermSwitch} (keeps : ∀ t, KeepsKeys (termSwitch t))
    (k₀ : Kernel) (es : List KeyEvent) {t : Nat} (ht : t < 3) :
    let k := es.foldl (keyStep termSwitch) k₀.keyboardInit
    let line := editedLine (noteKeys termSwitch k₀.keyboardInit es (fun _ => []) t)
    (k.kbd.line t).currIdx = line.length ∧ line.length ≤ 127 ∧
      ∀ e, keyTyped termSwitch k e = some (t, newline) →
        let l := (keyStep termSwitch k e).kbd.line t
        LineEdit.head l.lineBuf (line.length + 1) = line ++ [newline] ∧ newline ∉ line ∧
          l.currIdx = 0 ∧ l.readFlag = 1 := by
  intro k line
  have H := (keyboardInit_holdLines k₀).run keeps es t ht
  refine ⟨H.currIdx, LineEdit.length_edit_le _, fun e henter => ?_⟩
  obtain ⟨_, hline⟩ := keyStep_typed keeps henter
  have hbefore := H.congr (e.keeps k t).1 (e.keeps k t).2
  dsimp only
  rw [hline, Function.update_self]
  exact hbefore.entered

/-- A switch that changes the visible terminal alone. -/
def plainSwitch : TermSwitch := fun t k => { k with curVisTerm := t }

/-- A scan code on an enabled terminal. -/
def pressed (scanCode : UInt8) : KeyEvent where
  before := fun k => { k with kbd := { k.kbd with terminalEnabled := fun _ => 1 } }
  keeps := fun _ _ => ⟨rfl, rfl⟩
  scanCode := scanCode

/-- `a`, backspace, `b`, Enter: the line buffer begins with `b` and a newline. -/
theorem lineDiscipline_of_run_erased :
    LineEdit.head
        ((keyStep plainSwitch
          ([pressed 0x1E, pressed 0x0E, pressed 0x30].foldl (keyStep plainSwitch)
            coldBoot.keyboardInit) (pressed 0x1C)).kbd.line 0).lineBuf 2 =
      [0x62, newline] := by
  have keeps : ∀ t, KeepsKeys (plainSwitch t) := fun _ _ _ => ⟨rfl, rfl⟩
  have hrun := lineDiscipline_of_run keeps coldBoot [pressed 0x1E, pressed 0x0E, pressed 0x30]
    (t := 0) (by decide)
  have hline : editedLine (noteKeys plainSwitch coldBoot.keyboardInit
      [pressed 0x1E, pressed 0x0E, pressed 0x30] (fun _ => []) 0) = [0x62] := by decide +kernel
  have henter := (hrun.2.2 (pressed 0x1C) (by decide +kernel)).1
  rw [hline] at henter
  exact henter

end Mp3Kernel
