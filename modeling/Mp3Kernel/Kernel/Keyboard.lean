import Mp3Kernel.Kernel.Console

/-!
# The keyboard (`keyboard.c`)

The source handles the visible terminals 0, 1 and 2 in three pasted branches. They
differ in the terminal whose buffers they use and in the first argument of the
remapping calls, except on Enter, where all three remap with terminal 0's numbers;
`handleKey` is that branch over the terminal. `term_switch` is in a file the
repository does not hold and is a parameter.
-/

namespace Mp3Kernel

/-! ## Scan codes and characters -/

def shiftBit : UInt8 := 0x08

def capsBit : UInt8 := 0x04

def altBit : UInt8 := 0x02

def ctrlBit : UInt8 := 0x01

/-- `BUF_SIZE`. -/
abbrev bufSize : Nat := 128

/-- `scancode_l`. -/
def scancodeL : List UInt8 :=
  bytes "1234567890-=\x08 qwertyuiop[]\n asdfghjkl;'` \\zxcvbnm,./"

/-- `scancode_u`. -/
def scancodeU : List UInt8 :=
  bytes "!@#$ ^&*()_+\x08 QWERTYUIOP\x7b\x7d\n ASDFGHJKL:\"~ |ZXCVBNM<>?"

/-- `scancode_C`. -/
def scancodeC : List UInt8 :=
  bytes "1234567890-=\x08 QWERTYUIOP[]\n ASDFGHJKL;'` \\ZXCVBNM,./"

/-- `scancode_Cu`. -/
def scancodeCu : List UInt8 :=
  bytes "!@#$ ^&*()_+\x08 qwertyuiop\x7b\x7d\n asdfghjkl:\"~ |zxcvbnm<>?"

/-- A table indexed by a scan code; each has a terminator after its last character. -/
def lookupScan (table : List UInt8) (scan : UInt8) : UInt8 := table.getD scan.toNat 0

/-- The terminal an Alt+F-key combination switches to. -/
def functionKey (scanCode : UInt8) : Option Int :=
  if scanCode = 0x3B then some 0
  else if scanCode = 0x3C then some 1
  else if scanCode = 0x3D then some 2
  else none

/-- `term_switch.c`, which is not in the repository. -/
abbrev TermSwitch := Int → Kernel → Kernel

namespace Kernel

/-- A change to the keyboard's modifier byte. -/
def setScac (scac : UInt8) (k : Kernel) : Kernel := { k with kbd := { k.kbd with scac := scac } }

/-- `CAPS_state`, saved before `term_switch` and restored after it. -/
def switchTerminal (termSwitch : TermSwitch) (term : Int) (k : Kernel) : Kernel :=
  let caps : Int := if k.kbd.scac &&& capsBit = capsBit then 1 else 0
  let k := termSwitch term { k with kbd := { k.kbd with capsState := caps } }
  if k.kbd.capsState = 1 then k.setScac (k.kbd.scac ||| capsBit)
  else k.setScac (k.kbd.scac &&& (0xFF - capsBit))

/-- `convert_to_ascii`: the state after it, since Ctrl+L clears the screen and Alt+F1 to
Alt+F3 switch terminals on the way, and the character. -/
def convertToAscii (termSwitch : TermSwitch) (scan : UInt8) (k : Kernel) : Kernel × UInt8 :=
  let scac := k.kbd.scac
  if scan = 0x37 then (k, blank)
  else if scan > 52 then
    if scac = altBit ∨ scac = altBit + capsBit then
      -- `scan + 2` is an `int`, so it does not wrap to a function key's code
      match if scan.toNat + 2 < 256 then functionKey (scan + 2) else none with
      | some term => (k.switchTerminal termSwitch term, 0)
      | none => (k, 0)
    else (k, 0)
  else if scac = shiftBit then
    (k, if scan = 0x04 then 0x25 else lookupScan scancodeU scan)
  else if scac = capsBit then (k, lookupScan scancodeC scan)
  else if scac = capsBit + ctrlBit ∨ scac = ctrlBit then
    (if lookupScan scancodeL scan = 0x6C then k.resetScreen else k, 0)
  -- the ALT cases have no `break` and fall into SHIFT_CAPS
  else if scac = altBit + capsBit ∨ scac = altBit ∨ scac = shiftBit + capsBit then
    (k, if scan = 0x04 then 0x25 else lookupScan scancodeCu scan)
  else if scac = 0 then (k, lookupScan scancodeL scan)
  else (k, 0)

/-! ## The handler -/

/-- A change to one terminal's buffers. -/
def modifyLine (term : Nat) (f : LineVars → LineVars) (k : Kernel) : Kernel :=
  { k with
    kbd := { k.kbd with line := Function.update k.kbd.line term (f (k.kbd.line term)) } }

/-- Enter, on the terminal's buffers up to the copy: the newline is stored, and the whole
buffer moves to `line_buf`. -/
def enterLine (l : LineVars) : LineVars :=
  { l with
    lineBuf := fun i =>
      if i < bufSize then Function.update l.keyBuf l.currIdx newline i else l.lineBuf i
    keyBuf := fun i =>
      if i < bufSize then 0 else Function.update l.keyBuf l.currIdx newline i }

/-- What a branch does with a converted character when its terminal is enabled. -/
def editKey (term : Nat) (c : UInt8) (k : Kernel) : Kernel :=
  if c = 0 then k
  else if c = newline then
    -- every branch remaps with terminal 0's numbers here
    let k := (k.switchTermVim 0 0).modifyLine term enterLine
    let k := (k.putc c).modifyLine term ({ · with currIdx := 0, readFlag := 1 })
    k.switchTermVim term k.curExecuteTerm
  else if c = backspace then
    if (k.kbd.line term).currIdx = 0 then k
    else
      let k := k.modifyLine term fun l => { l with currIdx := l.currIdx - 1 }
      let k := (k.switchTermVim term term).putc c
      k.switchTermVim term k.curExecuteTerm
  else if (k.kbd.line term).currIdx = bufSize - 1 then k
  else
    let k := k.modifyLine term fun l =>
      { l with keyBuf := Function.update l.keyBuf l.currIdx c }
    let k := (k.switchTermVim term term).putc c
    let k := k.switchTermVim term k.curExecuteTerm
    k.modifyLine term fun l => { l with currIdx := l.currIdx + 1 }

/-- The modifier cases of the switch, with the state they leave; `none` is the default. -/
def modifierKey (scanCode : UInt8) (k : Kernel) : Option Kernel :=
  let scac := k.kbd.scac
  if scanCode = 0x2A ∨ scanCode = 0x36 then some (k.setScac (scac ||| shiftBit))
  else if scanCode = 0xAA ∨ scanCode = 0xB6 then some (k.setScac (scac &&& (0xFF - shiftBit)))
  else if scanCode = 0x3A then
    if k.kbd.capslockHoldon = 0 then
      let k := { k with kbd := { k.kbd with capslockHoldon := 1 } }
      -- the whole byte is compared, so a held Shift counts as Caps Lock
      if i8 scac ≥ 4 then some (k.setScac (scac &&& (0xFF - capsBit)))
      else some (k.setScac (scac ||| capsBit))
    else some k
  else if scanCode = 0xBA then some { k with kbd := { k.kbd with capslockHoldon := 0 } }
  else if scanCode = 0x38 then some (k.setScac (scac ||| altBit))
  else if scanCode = 0xB8 then some (k.setScac (scac &&& (0xFF - altBit)))
  else if scanCode = 0x1D then some (k.setScac (scac ||| ctrlBit))
  else if scanCode = 0x9D then some (k.setScac (scac &&& (0xFF - ctrlBit)))
  else none

/-- The range test of the default case: does it return without converting? -/
def ignoresScan (scanCode : UInt8) : Bool :=
  (scanCode > 0x3A || scanCode < 0x01) && (functionKey scanCode).isNone

/-- One branch of the handler: the switch, for the visible terminal `term`. -/
def handleKey (termSwitch : TermSwitch) (term : Nat) (scanCode : UInt8) (k : Kernel) : Kernel :=
  match k.modifierKey scanCode with
  | some k => k
  | none =>
    if ignoresScan scanCode then k
    else
      let r := k.convertToAscii termSwitch (scanCode - 2)
      if r.1.kbd.terminalEnabled term = 1 then r.1.editKey term r.2 else r.1

/-- `keyboard_handler`, on the scan code the port gave it. -/
def keyboardHandler (termSwitch : TermSwitch) (scanCode : UInt8) (k : Kernel) : Kernel :=
  if k.curVisTerm = 0 then k.handleKey termSwitch 0 scanCode
  else if k.curVisTerm = 1 then k.handleKey termSwitch 1 scanCode
  else if k.curVisTerm = 2 then k.handleKey termSwitch 2 scanCode
  else k

/-- `keyboard_init`: the key buffers themselves are not cleared. -/
def keyboardInit (k : Kernel) : Kernel :=
  { k with
    kbd :=
      { k.kbd with
        capslockHoldon := 0
        scac := 0
        line := fun t =>
          if t < 3 then { k.kbd.line t with currIdx := 0, readFlag := 0 } else k.kbd.line t } }

end Kernel

end Mp3Kernel
