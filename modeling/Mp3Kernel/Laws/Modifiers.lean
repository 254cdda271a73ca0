import Mp3Kernel.Laws.VisibleKeys
import Mp3Kernel.Lib.Run
import Mathlib.Algebra.Ring.Parity

/-!
# The modifier byte

`SCAC` packs four flags, and a scan code sets or clears at most one of them. Two of its
updates do not say what the keys do: the two shift keys share a flag, so that either one's
release clears it, and Caps Lock toggles by comparing the whole byte with its own bit, which
SHIFT is above.
-/

namespace Mp3Kernel

/-! ## Four flags in a byte -/

inductive Modifier
  | shift
  | caps
  | alt
  | ctrl
  deriving DecidableEq

def Modifier.bit : Modifier → UInt8
  | .shift => shiftBit
  | .caps => capsBit
  | .alt => altBit
  | .ctrl => ctrlBit

/-- Flags, as `SCAC` packs them. -/
def flagByte (flags : Modifier → Bool) : UInt8 :=
  (if flags .shift then shiftBit else 0) ||| (if flags .caps then capsBit else 0) |||
    (if flags .alt then altBit else 0) ||| (if flags .ctrl then ctrlBit else 0)

section Packing

variable (flags : Modifier → Bool) (x : Modifier)

theorem flagByte_or : flagByte flags ||| x.bit = flagByte (Function.update flags x true) := by
  cases x <;> simp only [flagByte, Modifier.bit, Function.update, eq_rec_constant, dite_eq_ite,
    reduceCtorEq, if_false, if_true] <;>
    cases flags .shift <;> cases flags .caps <;> cases flags .alt <;> cases flags .ctrl <;> rfl

theorem flagByte_and :
    flagByte flags &&& (0xFF - x.bit) = flagByte (Function.update flags x false) := by
  cases x <;> simp only [flagByte, Modifier.bit, Function.update, eq_rec_constant, dite_eq_ite,
    reduceCtorEq, if_false, if_true] <;>
    cases flags .shift <;> cases flags .caps <;> cases flags .alt <;> cases flags .ctrl <;> rfl

/-- A flag is read off its bit. -/
theorem flagByte_bit : flagByte flags &&& x.bit = x.bit ↔ flags x = true := by
  unfold flagByte
  cases x <;>
    cases flags .shift <;> cases flags .caps <;> cases flags .alt <;> cases flags .ctrl <;> decide

/-- Comparing the whole byte with the CAPS bit, as Caps Lock does. -/
theorem flagByte_ge : i8 (flagByte flags) ≥ 4 ↔ flags .shift = true ∨ flags .caps = true := by
  unfold flagByte
  cases flags .shift <;> cases flags .caps <;> cases flags .alt <;> cases flags .ctrl <;> decide

end Packing

/-! ## Keys -/

/-- The keys that set a flag while they are held. -/
inductive HeldKey
  | lshift
  | rshift
  | alt
  | ctrl
  deriving DecidableEq

def HeldKey.modifier : HeldKey → Modifier
  | .lshift => .shift
  | .rshift => .shift
  | .alt => .alt
  | .ctrl => .ctrl

/-- The key of a make or break code, and which of the two it is. -/
def keyCode (scanCode : UInt8) : Option (HeldKey × Bool) :=
  if scanCode = 0x2A then some (.lshift, true)
  else if scanCode = 0xAA then some (.lshift, false)
  else if scanCode = 0x36 then some (.rshift, true)
  else if scanCode = 0xB6 then some (.rshift, false)
  else if scanCode = 0x38 then some (.alt, true)
  else if scanCode = 0xB8 then some (.alt, false)
  else if scanCode = 0x1D then some (.ctrl, true)
  else if scanCode = 0x9D then some (.ctrl, false)
  else none

/-- The modifier flags, and whether Caps Lock has been down since its last press. -/
structure Modifiers where
  flags : Modifier → Bool
  capsHeld : Bool

/-- What a scan code does to them. -/
def Modifiers.next (scanCode : UInt8) (m : Modifiers) : Modifiers :=
  match keyCode scanCode with
  | some (key, made) => { m with flags := Function.update m.flags key.modifier made }
  | none =>
    if scanCode = 0x3A then
      if m.capsHeld then m
      else ⟨Function.update m.flags .caps !(m.flags .shift || m.flags .caps), true⟩
    else if scanCode = 0xBA then { m with capsHeld := false }
    else m

/-- A kernel whose keyboard variables are the packed form of some modifiers. -/
structure ShowsModifiers (k : Kernel) (m : Modifiers) : Prop where
  scac : k.kbd.scac = flagByte m.flags
  holdon : k.kbd.capslockHoldon = if m.capsHeld then 1 else 0

/-- The modifier byte and the Caps Lock flag are the same. -/
def SameModifiers (k k' : Kernel) : Prop :=
  k'.kbd.scac = k.kbd.scac ∧ k'.kbd.capslockHoldon = k.kbd.capslockHoldon

section Handler

variable {k k' : Kernel} {m : Modifiers} {scanCode : UInt8}

theorem ShowsModifiers.congr (S : ShowsModifiers k m) (same : SameModifiers k k') :
    ShowsModifiers k' m :=
  ⟨same.1.trans S.scac, same.2.trans S.holdon⟩

theorem ShowsModifiers.bit (S : ShowsModifiers k m) (x : Modifier) :
    k.kbd.scac &&& x.bit = x.bit ↔ m.flags x = true := by
  rw [S.scac]
  exact flagByte_bit m.flags x

theorem ShowsModifiers.set (S : ShowsModifiers k m) (x : Modifier) :
    ShowsModifiers (k.setScac (k.kbd.scac ||| x.bit))
      { m with flags := Function.update m.flags x true } :=
  ⟨(congrArg (· ||| x.bit) S.scac).trans (flagByte_or m.flags x), S.holdon⟩

theorem ShowsModifiers.clear (S : ShowsModifiers k m) (x : Modifier) :
    ShowsModifiers (k.setScac (k.kbd.scac &&& (0xFF - x.bit)))
      { m with flags := Function.update m.flags x false } :=
  ⟨(congrArg (· &&& (0xFF - x.bit)) S.scac).trans (flagByte_and m.flags x), S.holdon⟩

/-- A new press of Caps Lock. -/
theorem ShowsModifiers.press (S : ShowsModifiers k m) (up : m.capsHeld = false) :
    ∃ k', k.modifierKey 0x3A = some k' ∧ ShowsModifiers k' (m.next 0x3A) := by
  have hzero : k.kbd.capslockHoldon = 0 := by
    rw [S.holdon, up]
    rfl
  have hnext : m.next 0x3A =
      ⟨Function.update m.flags .caps !(m.flags .shift || m.flags .caps), true⟩ := by
    show (if m.capsHeld then m else _) = _
    rw [up]
    rfl
  rw [hnext]
  by_cases hge : i8 k.kbd.scac ≥ 4
  · refine ⟨{ k with kbd := { k.kbd with capslockHoldon := 1 } }.setScac
        (k.kbd.scac &&& (0xFF - capsBit)), ?_, ?_, rfl⟩
    · show (if k.kbd.capslockHoldon = 0 then
        if i8 k.kbd.scac ≥ 4 then some _ else some _ else some k) = _
      rw [if_pos hzero, if_pos hge]
    · have hheld : (m.flags .shift || m.flags .caps) = true := by
        rw [S.scac, flagByte_ge] at hge
        simpa using hge
      rw [hheld]
      exact (S.clear .caps).scac
  · refine ⟨{ k with kbd := { k.kbd with capslockHoldon := 1 } }.setScac
        (k.kbd.scac ||| capsBit), ?_, ?_, rfl⟩
    · show (if k.kbd.capslockHoldon = 0 then
        if i8 k.kbd.scac ≥ 4 then some _ else some _ else some k) = _
      rw [if_pos hzero, if_neg hge]
    · have hheld : (m.flags .shift || m.flags .caps) = false := by
        rw [S.scac, flagByte_ge] at hge
        simpa using hge
      rw [hheld]
      exact (S.set .caps).scac

/-- The modifier cases of the switch. -/
theorem ShowsModifiers.modifierKey (S : ShowsModifiers k m)
    (handled : k.modifierKey scanCode = some k') : ShowsModifiers k' (m.next scanCode) := by
  by_cases hcaps : scanCode = 0x3A
  · subst hcaps
    cases hheld : m.capsHeld with
    | false =>
      obtain ⟨k₁, hk₁, S₁⟩ := S.press hheld
      obtain rfl := Option.some.inj (hk₁.symm.trans handled)
      exact S₁
    | true =>
      have hone : k.kbd.capslockHoldon ≠ 0 := by
        rw [S.holdon, hheld]
        decide
      have hk' : k.modifierKey 0x3A = some k := by
        show (if k.kbd.capslockHoldon = 0 then _ else some k) = _
        exact if_neg hone
      have hnext : m.next 0x3A = m := by
        show (if m.capsHeld then m else _) = m
        rw [hheld]
        rfl
      obtain rfl := Option.some.inj (hk'.symm.trans handled)
      rw [hnext]
      exact S
  · unfold Kernel.modifierKey at handled
    dsimp only at handled
    rw [if_neg hcaps] at handled
    split_ifs at handled with hmake hbreak hcapsUp halt haltUp hctrl hctrlUp
    · obtain rfl := Option.some.inj handled
      rcases hmake with rfl | rfl <;> exact S.set .shift
    · obtain rfl := Option.some.inj handled
      rcases hbreak with rfl | rfl <;> exact S.clear .shift
    · obtain rfl := Option.some.inj handled
      subst hcapsUp
      exact ⟨S.scac, rfl⟩
    · obtain rfl := Option.some.inj handled
      subst halt
      exact S.set .alt
    · obtain rfl := Option.some.inj handled
      subst haltUp
      exact S.clear .alt
    · obtain rfl := Option.some.inj handled
      subst hctrl
      exact S.set .ctrl
    · obtain rfl := Option.some.inj handled
      subst hctrlUp
      exact S.clear .ctrl

/-- The default case is for codes that are no modifier's. -/
theorem next_of_default (default : k.modifierKey scanCode = none) : m.next scanCode = m := by
  unfold Kernel.modifierKey at default
  dsimp only at default
  split_ifs at default with hmake hbreak hcaps hone hge hcapsUp halt haltUp hctrl hctrlUp
  rw [not_or] at hmake hbreak
  have hkey : keyCode scanCode = none := by
    simp [keyCode, hmake, hbreak, halt, haltUp, hctrl, hctrlUp]
  simp [Modifiers.next, hkey, hcaps, hcapsUp]

theorem editKey_sameModifiers (t : Nat) (c : UInt8) : SameModifiers k (k.editKey t c) := by
  unfold Kernel.editKey
  dsimp only
  split_ifs <;> exact ⟨rfl, rfl⟩

/-- A scan code handled, unless it switches terminals. -/
theorem ShowsModifiers.handler {termSwitch : TermSwitch} (S : ShowsModifiers k m)
    (visible : (visibleSlot k).isSome) (notSwitch : ¬ SwitchesTerminal scanCode k) :
    ShowsModifiers (k.keyboardHandler termSwitch scanCode) (m.next scanCode) := by
  obtain ⟨t, hvis⟩ := Option.isSome_iff_exists.mp visible
  rw [keyboardHandler_eq hvis notSwitch]
  cases hmod : k.modifierKey scanCode with
  | some k' => exact S.modifierKey hmod
  | none =>
    rw [next_of_default hmod]
    dsimp only
    split_ifs
    · exact S
    · exact S.congr ⟨rfl, rfl⟩
    · exact S.congr (editKey_sameModifiers t _)
    · exact S

/-- `keyboard_init` clears the flags. -/
theorem keyboardInit_shows (k : Kernel) : ShowsModifiers k.keyboardInit ⟨fun _ => false, false⟩ :=
  ⟨rfl, rfl⟩

end Handler

/-! ## Runs of scan codes -/

/-- A scan code given to the handler, and whatever happens before it: one of the three terminals
is visible then, and the modifiers are the handler's own. -/
structure CodeEvent where
  before : Kernel → Kernel
  keeps : ∀ k, SameModifiers k (before k)
  visible : ∀ k, (visibleSlot (before k)).isSome
  scanCode : UInt8

/-- One scan code. -/
def codeStep (termSwitch : TermSwitch) (e : CodeEvent) (k : Kernel) : Option Kernel :=
  some ((e.before k).keyboardHandler termSwitch e.scanCode)

/-- The codes that are not Alt+F1 to Alt+F3, on a machine with a history of any kind. -/
def KeepsTerminal {History : Type} (s : Kernel × History) (e : CodeEvent) : Prop :=
  ¬ SwitchesTerminal e.scanCode (e.before s.1)

/-- What one scan code preserves, whatever the history. -/
theorem ShowsModifiers.step {termSwitch : TermSwitch} {History : Type}
    {note : CodeEvent → Kernel → Kernel → History → History} {s t : Kernel × History}
    {m : Modifiers} {e : CodeEvent} (S : ShowsModifiers s.1 m) (keeps : KeepsTerminal s e)
    (h : Runs.withHistory (codeStep termSwitch) note e s = some t) :
    ShowsModifiers t.1 (m.next e.scanCode) ∧ t.2 = note e s.1 t.1 s.2 := by
  obtain ⟨hstep, hnote⟩ := Runs.withHistory_some h
  refine ⟨?_, hnote⟩
  obtain hstate := Option.some.inj hstep
  rw [← hstate]
  exact (S.congr (e.keeps s.1)).handler (e.visible s.1) keeps

/-! ## Caps Lock -/

/-- The presses of Caps Lock, its repeats apart; whether it is down; and, if the last code was
one of its own, the modifier byte before that code. -/
structure CapsHistory where
  presses : Nat
  held : Bool
  before : Option UInt8

def noteCaps (e : CodeEvent) (k _ : Kernel) (h : CapsHistory) : CapsHistory :=
  if e.scanCode = 0x3A then
    ⟨if h.held then h.presses else h.presses + 1, true, some k.kbd.scac⟩
  else if e.scanCode = 0xBA then ⟨h.presses, false, some k.kbd.scac⟩
  else { h with before := none }

/-- CAPS says whether the presses are odd, and a code of Caps Lock's own changed no other
flag. -/
structure CapsToggled (s : Kernel × CapsHistory) : Prop where
  odd : s.1.kbd.scac &&& capsBit = capsBit ↔ Odd s.2.presses
  others : ∀ b, s.2.before = some b →
    s.1.kbd.scac &&& (0xFF - capsBit) = b &&& (0xFF - capsBit)

/-- A new press of Caps Lock with SHIFT set and CAPS clear. -/
def ShiftedPress (s : Kernel × CapsHistory) (e : CodeEvent) : Prop :=
  e.scanCode = 0x3A ∧ s.2.held = false ∧ s.1.kbd.scac &&& shiftBit = shiftBit ∧
    s.1.kbd.scac &&& capsBit ≠ capsBit

/-- The kernel's modifiers, the history's view of Caps Lock and the property. -/
structure CapsInv (s : Kernel × CapsHistory) (m : Modifiers) : Prop where
  shows : ShowsModifiers s.1 m
  held : m.capsHeld = s.2.held
  odd : m.flags .caps = true ↔ Odd s.2.presses
  others : ∀ b, s.2.before = some b →
    s.1.kbd.scac &&& (0xFF - capsBit) = b &&& (0xFF - capsBit)

section Caps

variable {termSwitch : TermSwitch} {s t : Kernel × CapsHistory} {m : Modifiers} {e : CodeEvent}

theorem CapsInv.toggled (I : CapsInv s m) : CapsToggled s :=
  ⟨(I.shows.bit .caps).trans I.odd, I.others⟩

/-- Codes that are not Caps Lock's leave its flag alone. -/
theorem Modifiers.next_caps {scanCode : UInt8} (hcaps : scanCode ≠ 0x3A) (m : Modifiers) :
    (m.next scanCode).flags .caps = m.flags .caps ∧
      (m.next scanCode).capsHeld = if scanCode = 0xBA then false else m.capsHeld := by
  unfold Modifiers.next
  split
  next key made hkey =>
    have hne : scanCode ≠ 0xBA := by
      rintro rfl
      cases hkey
    rw [if_neg hne]
    exact ⟨Function.update_of_ne (by cases key <;> exact fun h => nomatch h) .., rfl⟩
  next =>
    rw [if_neg hcaps]
    split <;> exact ⟨rfl, rfl⟩

/-- Caps Lock's own codes change no other flag. -/
theorem Modifiers.next_others {scanCode : UInt8} (hcaps : scanCode = 0x3A ∨ scanCode = 0xBA)
    (m : Modifiers) :
    flagByte (m.next scanCode).flags &&& (0xFF - capsBit) =
      flagByte m.flags &&& (0xFF - capsBit) := by
  have hflags : ∃ b, (m.next scanCode).flags = Function.update m.flags .caps b := by
    rcases hcaps with rfl | rfl
    · cases hheld : m.capsHeld with
      | false => exact ⟨!(m.flags .shift || m.flags .caps), by simp [next, keyCode, hheld]⟩
      | true => exact ⟨m.flags .caps, by simp [next, keyCode, hheld]⟩
    · exact ⟨m.flags .caps, (Function.update_eq_self ..).symm⟩
  obtain ⟨b, hb⟩ := hflags
  have hclear := flagByte_and (m.next scanCode).flags .caps
  rw [hb, Function.update_idem] at hclear
  rw [hb]
  exact hclear.trans (flagByte_and m.flags .caps).symm

/-- A new press toggles CAPS unless SHIFT is taken for it. -/
theorem Modifiers.next_press (up : m.capsHeld = false) :
    ((m.next 0x3A).flags .caps = true ↔ ¬ (m.flags .caps = true)) ↔
      ¬ (m.flags .shift = true ∧ ¬ (m.flags .caps = true)) := by
  have hcaps : (m.next 0x3A).flags .caps = !(m.flags .shift || m.flags .caps) := by
    simp [next, keyCode, up]
  rw [hcaps]
  cases m.flags .shift <;> cases m.flags .caps <;> decide

theorem CapsInv.shiftedPress_iff (I : CapsInv s m) (press : e.scanCode = 0x3A)
    (up : s.2.held = false) :
    ShiftedPress s e ↔ m.flags .shift = true ∧ ¬ (m.flags .caps = true) := by
  have hshift := I.shows.bit .shift
  have hcaps := I.shows.bit .caps
  constructor
  · rintro ⟨-, -, hs, hc⟩
    exact ⟨hshift.mp hs, fun h => hc (hcaps.mpr h)⟩
  · rintro ⟨hs, hc⟩
    exact ⟨press, up, hshift.mpr hs, fun h => hc (hcaps.mp h)⟩

/-- At its own codes the modifier byte before is remembered, and the other flags are as they
were. -/
theorem CapsInv.own (I : CapsInv s m) {scanCode : UInt8}
    (own : scanCode = 0x3A ∨ scanCode = 0xBA) :
    ∀ b, some s.1.kbd.scac = some b →
      flagByte (m.next scanCode).flags &&& (0xFF - capsBit) = b &&& (0xFF - capsBit) := by
  rintro b hb
  obtain rfl := Option.some.inj hb
  rw [I.shows.scac]
  exact m.next_others own

/-- What one scan code does to Caps Lock: at a new press, the parity of the presses flips, and
the flag flips with it just when SHIFT is not taken for it. -/
theorem CapsInv.step (I : CapsInv s m) (keeps : KeepsTerminal s e)
    (h : Runs.withHistory (codeStep termSwitch) noteCaps e s = some t) :
    ShowsModifiers t.1 (m.next e.scanCode) ∧
      (m.next e.scanCode).capsHeld = t.2.held ∧
      (((m.next e.scanCode).flags .caps = true ↔ Odd t.2.presses) ↔ ¬ ShiftedPress s e) ∧
      ∀ b, t.2.before = some b →
        t.1.kbd.scac &&& (0xFF - capsBit) = b &&& (0xFF - capsBit) := by
  obtain ⟨S, hnote⟩ := I.shows.step keeps h
  refine ⟨S, ?_⟩
  rw [hnote, S.scac]
  by_cases hpress : e.scanCode = 0x3A
  · have hhistory : noteCaps e s.1 t.1 s.2 =
        ⟨if s.2.held then s.2.presses else s.2.presses + 1, true, some s.1.kbd.scac⟩ :=
      if_pos hpress
    rw [hhistory]
    have hothers := I.own (.inl hpress)
    cases hheld : s.2.held with
    | true =>
      have hnext : m.next e.scanCode = m := by
        rw [hpress]
        simp [Modifiers.next, keyCode, I.held, hheld]
      refine ⟨?_, ?_, hothers⟩
      · rw [hnext, I.held, hheld]
      · rw [hnext]
        refine iff_of_true I.odd fun bad => ?_
        exact absurd (hheld.symm.trans bad.2.1) (by decide)
    | false =>
      have hup : m.capsHeld = false := I.held.trans hheld
      refine ⟨?_, ?_, hothers⟩
      · rw [hpress]
        simp [Modifiers.next, keyCode, hup]
      · rw [I.shiftedPress_iff hpress hheld, ← Modifiers.next_press hup, hpress, I.odd]
        simp [Nat.odd_add_one]
  · obtain ⟨hflag, hheld⟩ := m.next_caps hpress
    have hno : ¬ ShiftedPress s e := fun bad => hpress bad.1
    by_cases hup : e.scanCode = 0xBA
    · have hhistory : noteCaps e s.1 t.1 s.2 = ⟨s.2.presses, false, some s.1.kbd.scac⟩ :=
        (if_neg hpress).trans (if_pos hup)
      rw [hhistory, hflag]
      refine ⟨?_, iff_of_true I.odd hno, I.own (.inr hup)⟩
      rw [hheld, if_pos hup]
    · have hhistory : noteCaps e s.1 t.1 s.2 = { s.2 with before := none } :=
        (if_neg hpress).trans (if_neg hup)
      rw [hhistory, hflag]
      refine ⟨?_, iff_of_true I.odd hno, fun _ hb => nomatch hb⟩
      rw [hheld, if_neg hup]
      exact I.held

/-- After `keyboard_init` and any scan codes but Alt+F1 to Alt+F3, CAPS says all along whether
Caps Lock has been pressed an odd number of times, and its codes change no other flag, just when
it is never pressed with SHIFT set and CAPS clear. -/
theorem capsLock_toggles_iff (termSwitch : TermSwitch) (k₀ : Kernel) (es : List CodeEvent) :
    Runs.Along (Runs.withHistory (codeStep termSwitch) noteCaps) KeepsTerminal CapsToggled
        (k₀.keyboardInit, ⟨0, false, none⟩) es ↔
      Runs.Meets (Runs.withHistory (codeStep termSwitch) noteCaps) KeepsTerminal
        (fun s e => ¬ ShiftedPress s e) (k₀.keyboardInit, ⟨0, false, none⟩) es := by
  apply Runs.along_iff_meets (fun s => ∃ m, CapsInv s m)
  · rintro s e t ⟨m, I⟩ keeps h toggled
    obtain ⟨S, -, hodd, -⟩ := I.step keeps h
    exact hodd.mp ((S.bit .caps).symm.trans toggled.odd)
  · rintro s e t ⟨m, I⟩ keeps h plain
    obtain ⟨S, hheld, hodd, hothers⟩ := I.step keeps h
    exact ⟨m.next e.scanCode, S, hheld, hodd.mpr plain, hothers⟩
  · rintro s ⟨m, I⟩
    exact I.toggled
  · refine ⟨⟨fun _ => false, false⟩, keyboardInit_shows k₀, rfl, ?_, fun _ hb => nomatch hb⟩
    exact iff_of_false Bool.false_ne_true Nat.not_odd_zero

/-- A scan code, with the first terminal visible. -/
def typedCode (scanCode : UInt8) : CodeEvent where
  before := fun k => { k with curVisTerm := 0 }
  keeps := fun _ => ⟨rfl, rfl⟩
  visible := fun _ => rfl
  scanCode := scanCode

/-- Typing a code that is no function key's is a step, and the history notes it. -/
theorem typedCode_shows (termSwitch : TermSwitch) {History : Type}
    (note : CodeEvent → Kernel → Kernel → History → History) (scanCode : UInt8)
    (plain : ¬ (functionKey scanCode).isSome) {s : Kernel × History} {m : Modifiers}
    (S : ShowsModifiers s.1 m) :
    KeepsTerminal s (typedCode scanCode) ∧
      ∃ t, Runs.withHistory (codeStep termSwitch) note (typedCode scanCode) s = some t ∧
        ShowsModifiers t.1 (m.next scanCode) ∧ t.2 = note (typedCode scanCode) s.1 t.1 s.2 := by
  have hkeeps : KeepsTerminal s (typedCode scanCode) := fun h => plain h.1
  obtain ⟨t, ht⟩ : ∃ t, Runs.withHistory (codeStep termSwitch) note (typedCode scanCode) s =
      some t := ⟨_, rfl⟩
  exact ⟨hkeeps, t, ht, S.step hkeeps ht⟩

/-- Left shift is pressed, then Caps Lock. -/
theorem capsLock_shifted :
    ¬ Runs.Along (Runs.withHistory (codeStep plainSwitch) noteCaps) KeepsTerminal CapsToggled
      (coldBoot.keyboardInit, ⟨0, false, none⟩) [typedCode 0x2A, typedCode 0x3A] := by
  intro along
  let s : Kernel × CapsHistory := (coldBoot.keyboardInit, ⟨0, false, none⟩)
  have S : ShowsModifiers s.1 _ := keyboardInit_shows coldBoot
  obtain ⟨hshift, t, ht, S₁, hnote⟩ := typedCode_shows plainSwitch noteCaps 0x2A (by decide) S
  obtain ⟨hcaps, u, hu, S₂, hnote'⟩ := typedCode_shows plainSwitch noteCaps 0x3A (by decide) S₁
  obtain ⟨toggled, -⟩ := (along t hshift ht).2 u hcaps hu
  have hpresses : u.2.presses = 1 := by
    rw [hnote', hnote]
    rfl
  have hflag := toggled.odd.mpr (by rw [hpresses]; exact odd_one)
  exact absurd ((S₂.bit .caps).mp hflag) (by decide)

end Caps

/-! ## Held keys -/

/-- The keys held: made and not broken since. -/
def noteHeld (e : CodeEvent) (_ _ : Kernel) (held : HeldKey → Bool) : HeldKey → Bool :=
  match keyCode e.scanCode with
  | some (key, made) => Function.update held key made
  | none => held

/-- Each flag says whether a key of its own is held. -/
structure HeldTracked (s : Kernel × (HeldKey → Bool)) : Prop where
  shift : s.1.kbd.scac &&& shiftBit = shiftBit ↔ s.2 .lshift = true ∨ s.2 .rshift = true
  alt : s.1.kbd.scac &&& altBit = altBit ↔ s.2 .alt = true
  ctrl : s.1.kbd.scac &&& ctrlBit = ctrlBit ↔ s.2 .ctrl = true

/-- A shift key is released while the other one is held. -/
def ReleasesSharedShift (s : Kernel × (HeldKey → Bool)) (e : CodeEvent) : Prop :=
  keyCode e.scanCode = some (.lshift, false) ∧ s.2 .rshift = true ∨
    keyCode e.scanCode = some (.rshift, false) ∧ s.2 .lshift = true

/-- Some modifiers that the kernel shows agree with the keys. -/
structure HeldInv (s : Kernel × (HeldKey → Bool)) (m : Modifiers) : Prop where
  shows : ShowsModifiers s.1 m
  shift : m.flags .shift = (s.2 .lshift || s.2 .rshift)
  alt : m.flags .alt = s.2 .alt
  ctrl : m.flags .ctrl = s.2 .ctrl

section Held

variable {termSwitch : TermSwitch} {s t : Kernel × (HeldKey → Bool)} {m : Modifiers}
  {e : CodeEvent}

theorem HeldInv.tracked (I : HeldInv s m) : HeldTracked s where
  shift := by
    rw [← Bool.or_eq_true, ← I.shift]
    exact I.shows.bit .shift
  alt := by
    rw [← I.alt]
    exact I.shows.bit .alt
  ctrl := by
    rw [← I.ctrl]
    exact I.shows.bit .ctrl

/-- Codes of no held key leave their flags alone. -/
theorem Modifiers.next_held {scanCode : UInt8} (hkey : keyCode scanCode = none) (m : Modifiers)
    {x : Modifier} (hx : x ≠ .caps) : (m.next scanCode).flags x = m.flags x := by
  unfold Modifiers.next
  rw [hkey]
  dsimp only
  split_ifs
  · rfl
  · exact Function.update_of_ne hx ..
  · rfl
  · rfl

/-- What one scan code does to the held keys' flags: they go on saying what is held just when it
releases no shift key that shares the flag with another. -/
theorem HeldInv.step (I : HeldInv s m) (keeps : KeepsTerminal s e)
    (h : Runs.withHistory (codeStep termSwitch) noteHeld e s = some t) :
    ShowsModifiers t.1 (m.next e.scanCode) ∧
      ((m.next e.scanCode).flags .shift = (t.2 .lshift || t.2 .rshift) ↔
        ¬ ReleasesSharedShift s e) ∧
      (m.next e.scanCode).flags .alt = t.2 .alt ∧
      (m.next e.scanCode).flags .ctrl = t.2 .ctrl := by
  obtain ⟨S, hnote⟩ := I.shows.step keeps h
  refine ⟨S, ?_⟩
  rw [hnote]
  cases hkey : keyCode e.scanCode with
  | none =>
    have hheld : noteHeld e s.1 t.1 s.2 = s.2 := by
      simp [noteHeld, hkey]
    have hplain : ¬ ReleasesSharedShift s e := by
      simp [ReleasesSharedShift, hkey]
    rw [hheld, m.next_held hkey (x := .shift) (by decide), m.next_held hkey (x := .alt) (by decide),
      m.next_held hkey (x := .ctrl) (by decide)]
    exact ⟨iff_of_true I.shift hplain, I.alt, I.ctrl⟩
  | some code =>
    obtain ⟨key, made⟩ := code
    have hheld : noteHeld e s.1 t.1 s.2 = Function.update s.2 key made := by
      simp [noteHeld, hkey]
    have hnext : (m.next e.scanCode).flags = Function.update m.flags key.modifier made := by
      simp [Modifiers.next, hkey]
    rw [hheld, hnext]
    have hshift := I.shift
    have halt := I.alt
    have hctrl := I.ctrl
    unfold ReleasesSharedShift
    rw [hkey]
    cases key <;> cases made <;>
      simp [HeldKey.modifier, Function.update, hshift, halt, hctrl]

/-- After `keyboard_init` and any scan codes but Alt+F1 to Alt+F3, the flags say all along which
modifiers are held just when no shift key is released while the other one is held. -/
theorem heldModifiers_tracked_iff (termSwitch : TermSwitch) (k₀ : Kernel) (es : List CodeEvent) :
    Runs.Along (Runs.withHistory (codeStep termSwitch) noteHeld) KeepsTerminal HeldTracked
        (k₀.keyboardInit, fun _ => false) es ↔
      Runs.Meets (Runs.withHistory (codeStep termSwitch) noteHeld) KeepsTerminal
        (fun s e => ¬ ReleasesSharedShift s e) (k₀.keyboardInit, fun _ => false) es := by
  apply Runs.along_iff_meets (fun s => ∃ m, HeldInv s m)
  · rintro s e t ⟨m, I⟩ keeps h tracked
    obtain ⟨S, hshift, -, -⟩ := I.step keeps h
    apply hshift.mp
    rw [Bool.eq_iff_iff, Bool.or_eq_true, ← tracked.shift]
    exact (S.bit .shift).symm
  · rintro s e t ⟨m, I⟩ keeps h plain
    obtain ⟨S, hshift, halt, hctrl⟩ := I.step keeps h
    exact ⟨m.next e.scanCode, S, hshift.mpr plain, halt, hctrl⟩
  · rintro s ⟨m, I⟩
    exact I.tracked
  · exact ⟨⟨fun _ => false, false⟩, keyboardInit_shows k₀, rfl, rfl, rfl⟩

/-- Both shift keys are pressed, and the left one released. -/
theorem heldModifiers_sharedShift :
    ¬ Runs.Along (Runs.withHistory (codeStep plainSwitch) noteHeld) KeepsTerminal HeldTracked
      (coldBoot.keyboardInit, fun _ => false)
      [typedCode 0x2A, typedCode 0x36, typedCode 0xAA] := by
  intro along
  let s : Kernel × (HeldKey → Bool) := (coldBoot.keyboardInit, fun _ => false)
  have S : ShowsModifiers s.1 _ := keyboardInit_shows coldBoot
  obtain ⟨hleft, t, ht, S₁, hnote⟩ := typedCode_shows plainSwitch noteHeld 0x2A (by decide) S
  obtain ⟨hright, u, hu, S₂, hnote'⟩ := typedCode_shows plainSwitch noteHeld 0x36 (by decide) S₁
  obtain ⟨hup, v, hv, S₃, hnote''⟩ := typedCode_shows plainSwitch noteHeld 0xAA (by decide) S₂
  obtain ⟨tracked, -⟩ := ((along t hleft ht).2 u hright hu).2 v hup hv
  have hheld : v.2 .rshift = true := by
    rw [hnote'', hnote', hnote]
    rfl
  have hflag := tracked.shift.mpr (.inr hheld)
  exact absurd ((S₃.bit .shift).mp hflag) (by decide)

end Held

end Mp3Kernel
