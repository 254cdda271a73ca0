import Mp3Kernel.Kernel.Process
import Mp3Kernel.Lib.Traced

/-!
# The array accesses of `execute` and `getargs`

The scanning loops of `execute_handler`, its copy into `execute_arg`, and the copying loop of
`getargs_handler`, with the indices they store to and load from. Nothing here tests a bound
that the source does not test, so an index may lie past the end of its array.
-/

namespace Mp3Kernel

/-! ## `execute_handler`: "parse argument(command)" -/

/-- The locals of the scanning loops. -/
structure Scan where
  i : Nat
  j : Nat
  program : Traced UInt8
  argument : Traced UInt8

/-- The first loop, at `command + i`, and the command from where it stops. -/
def Scan.readProgram : List UInt8 → Scan → Scan × List UInt8
  | [], s => (s, [])
  | c :: rest, s =>
    if c = blank ∨ c = newline ∨ c = 0 then (s, c :: rest)
    else readProgram rest { s with program := s.program.store s.i c, i := s.i + 1 }

/-- The second loop. -/
def Scan.skipSpaces : List UInt8 → Scan → Scan × List UInt8
  | [], s => (s, [])
  | c :: rest, s =>
    if c = blank then skipSpaces rest { s with i := s.i + 1 } else (s, c :: rest)

/-- The third loop. -/
def Scan.readArgument : List UInt8 → Scan → Scan
  | [], s => s
  | c :: rest, s =>
    if c = 0 ∨ c = newline then s
    else
      readArgument rest
        { s with argument := s.argument.store s.j c, j := s.j + 1, i := s.i + 1 }

/-- The three loops and the two terminators, over what the arrays held. -/
def scanCommand (command : List UInt8) (program argument : Buf) : Scan :=
  let r := Scan.readProgram command ⟨0, 0, .start program, .start argument⟩
  let s := { r.1 with program := r.1.program.store r.1.i 0 }
  let r := Scan.skipSpaces r.2 s
  let s := Scan.readArgument r.2 r.1
  { s with argument := s.argument.store s.j 0 }

/-- A copy between two arrays: the one written, and the indices read of the other. -/
structure ArgCopy where
  out : Traced UInt8
  loads : List Nat

/-- One turn that reads. -/
def ArgCopy.move (source : Buf) (i : Nat) (t : ArgCopy) : ArgCopy :=
  ⟨t.out.store i (source i), t.loads ++ [i]⟩

/-- One turn that writes a zero. -/
def ArgCopy.pad (i : Nat) (t : ArgCopy) : ArgCopy := ⟨t.out.store i 0, t.loads⟩

/-- A copying loop, at turn `i` with `n` turns left: it reads while the test on its index
holds, and writes zeros where it does not. -/
def copyLoop (source : Buf) (reads : Nat → Bool) : Nat → Nat → ArgCopy → ArgCopy
  | 0, _, t => t
  | n + 1, i, t =>
    copyLoop source reads n (i + 1) (if reads i then t.move source i else t.pad i)

/-- "added for getargs, to store arguments in pcb": the copy into `execute_arg`, over what
that held. -/
def Scan.storeArgument (s : Scan) (executeArg : Buf) : ArgCopy :=
  copyLoop s.argument.cells (fun i => i ≤ s.j) 255 0 ⟨.start executeArg, []⟩

/-- The scan `execute_handler` makes; a null command, or a full process table, is refused
before it. -/
def handlerScan (command : Option (List UInt8)) (program argument : Buf) (k : Kernel) :
    Option Scan :=
  match command with
  | none => none
  | some command =>
    match findPid k.proc.idArray maximumProcess 0 with
    | none => none
    | some _ => some (scanCommand command program argument)

/-! ## `getargs_handler` -/

/-- `getargs_handler` on a buffer: what it touched, and the result. -/
def getargsAccess (buf : Buf) (nbytes : Int) (k : Kernel) : ArgCopy × Int :=
  let executeArg := k.currentPcb.executeArg
  -- the test reads the argument's first byte
  if executeArg 0 = 0 ∨ nbytes < 0 then (⟨.start buf, [0]⟩, -1)
  else
    let turns := (nbytes - 1).toNat
    ((copyLoop executeArg (fun i => i < 255) turns 0 ⟨.start buf, [0]⟩).pad turns, 0)

end Mp3Kernel
