import Mp3Kernel.Laws.LineDiscipline
import Mathlib.Data.List.GetD

/-!
# What erasing leaves behind

Enter hands the reader all 128 bytes of the key buffer, and clears them all. A backspace only
moves the index back: the character it erased stays in the buffer behind the line, and the next
Enter hands it over unless the line has grown back over it, or the newline falls on it.
-/

namespace Mp3Kernel

/-- A line starts on a terminal: the keyboard is initialised, with the terminal's key buffer
still the zeros it was loaded with, or Enter has just been typed there. -/
inductive LineStart (termSwitch : TermSwitch) (t : Nat) : Kernel → Prop
  | init (k : Kernel) (zeros : ∀ i < bufSize, (k.kbd.line t).keyBuf i = 0) :
    LineStart termSwitch t k.keyboardInit
  | enter (k : Kernel) (e : KeyEvent) (typed : keyTyped termSwitch k e = some (t, newline)) :
    LineStart termSwitch t (keyStep termSwitch k e)

/-- The machine after a list of scan codes. -/
def keyRun (termSwitch : TermSwitch) (k : Kernel) (es : List KeyEvent) : Kernel :=
  es.foldl (keyStep termSwitch) k

/-- The characters a list of scan codes types on a terminal, since the last Enter. -/
def typedOn (termSwitch : TermSwitch) (t : Nat) (k : Kernel) (es : List KeyEvent) : List UInt8 :=
  noteKeys termSwitch k es (fun _ => []) t

/-- The reader is handed the line, a newline and zero bytes. -/
def LineVars.Traceless (l : LineVars) (line : List UInt8) : Prop :=
  ∀ i < bufSize, l.lineBuf i = (line ++ [newline]).getD i 0

/-- Two lines handed over are the same in every byte, and what was erased left no trace. -/
structure SameLine (line : List UInt8) (l₁ l₂ : LineVars) : Prop where
  bytes : ∀ i < bufSize, l₁.lineBuf i = l₂.lineBuf i
  left : l₁.Traceless line
  right : l₂.Traceless line

/-- While characters were typed, the line was never more than one longer than they leave it. -/
def NeverLonger (chars : List UInt8) : Prop :=
  LineEdit.Within 127 (· == backspace) ((editedLine chars).length + 1) chars

instance (chars : List UInt8) : Decidable (NeverLonger chars) :=
  inferInstanceAs (Decidable (LineEdit.Within _ _ _ _))

/-! ## The invariant -/

/-- The buffer holds the line, and behind it whatever the line ever reached. -/
structure LineVars.Residue (l : LineVars) (chars : List UInt8) : Prop extends l.Holds chars where
  behind : LineEdit.Untouched 127 (· == backspace) 0 l.keyBuf chars

section Residue

variable {l l' : LineVars} {chars : List UInt8}

/-- An empty line, in a buffer of zeros. -/
theorem LineVars.residue_nil (idx : l.currIdx = 0) (zeros : ∀ i < bufSize, l.keyBuf i = 0) :
    l.Residue [] := by
  refine ⟨⟨?_, by simp⟩, LineEdit.untouched_nil fun i hi => zeros i (Nat.lt_succ_of_le hi)⟩
  rw [idx]
  rfl

/-- Enter clears the whole buffer. -/
theorem LineVars.residue_enter (l : LineVars) : (l.editKey newline).Residue [] :=
  LineVars.residue_nil rfl fun _ hi => if_pos hi

/-- A character that is not Enter: only one that the line takes is stored. -/
theorem LineVars.Residue.typed (R : l.Residue chars) {c : UInt8} (hc : c ≠ newline)
    (hzero : c ≠ 0) : (l.editKey c).Residue (chars ++ [c]) := by
  refine ⟨R.toHolds.typed hc, ?_⟩
  have hidx := R.currIdx
  have hline := congrArg List.length (editedLine_snoc chars c)
  unfold LineVars.editKey
  rw [if_neg hc]
  by_cases hback : c = backspace
  · have hshort : (editedLine (chars ++ [c])).length ≤ (editedLine chars).length := by
      rw [hline, if_pos hback, List.length_dropLast]
      omega
    rw [if_pos hback]
    split
    next => exact R.behind.skip hshort
    next => exact R.behind.skip hshort
  · rw [if_neg hback] at hline ⊢
    by_cases hfull : l.currIdx = bufSize - 1
    · have hfull' : 127 ≤ (editedLine chars).length := by
        rw [← hidx, hfull]
        decide
      rw [if_pos hfull'] at hline
      rw [if_pos hfull]
      exact R.behind.skip (Nat.le_of_eq hline)
    · have hroom : ¬ 127 ≤ (editedLine chars).length := by
        have hle : (editedLine chars).length ≤ 127 := LineEdit.length_edit_le chars
        have hne : l.currIdx ≠ 127 := hfull
        omega
      rw [if_neg hroom, List.length_append, List.length_singleton] at hline
      rw [if_neg hfull]
      dsimp only
      rw [hidx]
      exact R.behind.store hzero hline

/-- Characters keep the invariant. -/
theorem LineVars.Residue.rule : LineRule LineVars.Residue where
  congr := fun R keyBuf currIdx =>
    ⟨R.toHolds.congr keyBuf currIdx, fun i hi => by rw [keyBuf]; exact R.behind i hi⟩
  enter := fun _ => LineVars.residue_enter _
  typed := fun R hc hzero => R.typed hc hzero

/-- What Enter hands over: the buffer, with the newline after the line. -/
theorem LineVars.Residue.lineBuf (R : l.Residue chars) {i : Nat} (hi : i < bufSize) :
    (l.editKey newline).lineBuf i =
      if i ≤ (editedLine chars).length then (editedLine chars ++ [newline]).getD i 0
      else l.keyBuf i := by
  split
  next hle =>
    rw [← R.entered.1, LineEdit.getD_head (by omega)]
  next hgt =>
    have hidx := R.currIdx
    have hcopied : (l.editKey newline).lineBuf i =
        Function.update l.keyBuf l.currIdx newline i := if_pos hi
    rw [hcopied, Function.update_of_ne (by omega)]

/-- An Enter hands over no trace just when the line was never more than one longer. -/
theorem LineVars.Residue.traceless_iff (R : l.Residue chars) :
    (l.editKey newline).Traceless (editedLine chars) ↔ NeverLonger chars := by
  have hroom : (editedLine chars).length ≤ 127 := LineEdit.length_edit_le chars
  constructor
  · intro traceless
    by_cases hfull : (editedLine chars).length = 127
    · exact (LineEdit.within_room chars).mono (by omega)
    · -- the byte after the newline
      have hi : (editedLine chars).length + 1 < bufSize := by
        show _ < 128
        omega
      have hbyte := traceless _ hi
      rw [R.lineBuf hi, if_neg (by omega), List.getD_eq_default _ _ (by simp)] at hbyte
      exact (R.behind _ (by omega)).mp hbyte
  · intro never i hi
    rw [R.lineBuf hi]
    split
    next => rfl
    next hgt =>
      have hi' : i < 128 := hi
      rw [List.getD_eq_default _ _ (by simp; omega)]
      exact (R.behind i (by omega)).mpr (LineEdit.Within.mono never (by omega))

end Residue

/-! ## Two runs -/

section Runs

variable {termSwitch : TermSwitch} {t : Nat} {k k₁ k₂ : Kernel}

/-- However it starts, a line starts empty in a buffer of zeros. -/
theorem LineStart.residue (start : LineStart termSwitch t k) (ht : t < 3)
    (keeps : ∀ t, KeepsKeys (termSwitch t)) : (k.kbd.line t).Residue [] := by
  cases start with
  | init k zeros =>
    have hline : k.keyboardInit.kbd.line t = { k.kbd.line t with currIdx := 0, readFlag := 0 } :=
      if_pos ht
    rw [hline]
    exact LineVars.residue_nil rfl zeros
  | enter k e typed =>
    obtain ⟨_, hline⟩ := keyStep_typed keeps typed
    rw [hline, Function.update_self]
    exact LineVars.residue_enter _

/-- Enter, after a run from the start of a line. -/
theorem LineStart.entered (start : LineStart termSwitch t k)
    (keeps : ∀ t, KeepsKeys (termSwitch t)) {es : List KeyEvent} {e : KeyEvent}
    (enter : keyTyped termSwitch (keyRun termSwitch k es) e = some (t, newline)) :
    ∃ l : LineVars, l.Residue (typedOn termSwitch t k es) ∧
      (keyStep termSwitch (keyRun termSwitch k es) e).kbd.line t = l.editKey newline := by
  obtain ⟨ht, hline⟩ := keyStep_typed keeps enter
  have R : ((keyRun termSwitch k es).kbd.line t).Residue (typedOn termSwitch t k es) :=
    LineVars.Residue.rule.run keeps es (start.residue ht keeps)
  have R' := LineVars.Residue.rule.congr R (e.keeps _ t).1 (e.keeps _ t).2
  refine ⟨_, R', ?_⟩
  rw [hline, Function.update_self]

/-- Two runs of scan codes that start a line on a terminal and end with Enter, and that leave
the same line: the reader is handed the same 128 bytes, the line, a newline and zeros, just when
in neither run the line was ever more than one character longer. -/
theorem lineBuf_same_iff (keeps : ∀ t, KeepsKeys (termSwitch t))
    (start₁ : LineStart termSwitch t k₁) (start₂ : LineStart termSwitch t k₂)
    {es₁ es₂ : List KeyEvent} {e₁ e₂ : KeyEvent}
    (enter₁ : keyTyped termSwitch (keyRun termSwitch k₁ es₁) e₁ = some (t, newline))
    (enter₂ : keyTyped termSwitch (keyRun termSwitch k₂ es₂) e₂ = some (t, newline))
    {line : List UInt8} (left : editedLine (typedOn termSwitch t k₁ es₁) = line)
    (right : editedLine (typedOn termSwitch t k₂ es₂) = line) :
    SameLine line ((keyStep termSwitch (keyRun termSwitch k₁ es₁) e₁).kbd.line t)
        ((keyStep termSwitch (keyRun termSwitch k₂ es₂) e₂).kbd.line t) ↔
      NeverLonger (typedOn termSwitch t k₁ es₁) ∧ NeverLonger (typedOn termSwitch t k₂ es₂) := by
  obtain ⟨l₁, R₁, hline₁⟩ := start₁.entered keeps enter₁
  obtain ⟨l₂, R₂, hline₂⟩ := start₂.entered keeps enter₂
  rw [hline₁, hline₂, ← R₁.traceless_iff, ← R₂.traceless_iff, left, right]
  constructor
  · intro same
    exact ⟨same.left, same.right⟩
  · rintro ⟨traceless₁, traceless₂⟩
    refine ⟨fun i hi => ?_, traceless₁, traceless₂⟩
    rw [traceless₁ i hi, traceless₂ i hi]

end Runs

/-- `a`, Enter; and `a`, `b`, backspace, Enter. -/
theorem lineBuf_same_short :
    SameLine [0x61]
      ((keyStep plainSwitch (keyRun plainSwitch coldBoot.keyboardInit [pressed 0x1E])
        (pressed 0x1C)).kbd.line 0)
      ((keyStep plainSwitch (keyRun plainSwitch coldBoot.keyboardInit
        [pressed 0x1E, pressed 0x30, pressed 0x0E]) (pressed 0x1C)).kbd.line 0) := by
  have keeps : ∀ t, KeepsKeys (plainSwitch t) := fun _ _ _ => ⟨rfl, rfl⟩
  have start : LineStart plainSwitch 0 coldBoot.keyboardInit := .init coldBoot fun _ _ => rfl
  refine (lineBuf_same_iff keeps start start ?_ ?_ ?_ ?_).mpr ⟨?_, ?_⟩ <;> decide +kernel

/-- `a`, `b`, two backspaces, Enter hands over a `b` that an Enter alone does not. -/
theorem lineBuf_residue :
    LineStart plainSwitch 0 coldBoot.keyboardInit ∧
      keyTyped plainSwitch (keyRun plainSwitch coldBoot.keyboardInit []) (pressed 0x1C) =
        some (0, newline) ∧
      keyTyped plainSwitch (keyRun plainSwitch coldBoot.keyboardInit
        [pressed 0x1E, pressed 0x30, pressed 0x0E, pressed 0x0E]) (pressed 0x1C) =
        some (0, newline) ∧
      editedLine (typedOn plainSwitch 0 coldBoot.keyboardInit []) = [] ∧
      editedLine (typedOn plainSwitch 0 coldBoot.keyboardInit
        [pressed 0x1E, pressed 0x30, pressed 0x0E, pressed 0x0E]) = [] ∧
      ¬ SameLine []
        ((keyStep plainSwitch (keyRun plainSwitch coldBoot.keyboardInit [])
          (pressed 0x1C)).kbd.line 0)
        ((keyStep plainSwitch (keyRun plainSwitch coldBoot.keyboardInit
          [pressed 0x1E, pressed 0x30, pressed 0x0E, pressed 0x0E]) (pressed 0x1C)).kbd.line 0) := by
  refine ⟨.init coldBoot fun _ _ => rfl, by decide +kernel, by decide +kernel, by decide +kernel,
    by decide +kernel, fun same => ?_⟩
  have hbyte := same.bytes 1 (by decide)
  revert hbyte
  decide +kernel

end Mp3Kernel
