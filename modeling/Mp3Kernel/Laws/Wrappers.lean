import Mp3Kernel.Kernel.Wrappers
import Mp3Kernel.Laws.Gates

/-!
# What the entry routines keep

The words that an entry routine pushes lie on top of those the processor pushed, and the C
function that it calls leaves them alone. So the registers come back from where they were
saved, and `iret` finds the frame of the interrupt.
-/

namespace Mp3Kernel

open X86

section Routines

variable {b c : Cpu} {ws : List Word} (callee : EntryHandler → Cpu → Cpu)
  (back : List (Line EntryHandler) → Word)

/-- The words that an interrupt routine pushes, on top of those there are. -/
def irqWords (c : Cpu) : List Word := generalRegs (exec c .pushfl) ++ [c.eflags]

/-- The state its function is entered in. -/
def irqEntry (c : Cpu) : Cpu :=
  (exec c .pushfl).pushal.push (back [.ops [.popal, .op .popfl]])

theorem irqWrap_run (h : EntryHandler) (c : Cpu) :
    runLines callee back (irqWrap h) (c, []) =
      (exec (callee h (irqEntry back c)).popal .popfl, [(h, irqEntry back c)]) := by
  rw [irqWrap, runLines_ops, runLines_call, runLines_ops, runLines_nil]
  simp only [List.foldl_cons, List.foldl_nil, execFrame, List.nil_append, irqEntry]

theorem irqEntry_esp (c : Cpu) : (irqEntry back c).reg .esp = c.reg .esp - 40 := by
  rw [irqEntry, Cpu.push_esp, Cpu.pushal_esp]
  show c.reg .esp - 4 - 32 - 4 = _
  grind

theorem irqEntry_grown (G : Grown b ws c) (hws : ws.length ≤ 5) :
    ∃ ret, Grown b (ret :: (irqWords c ++ ws)) (irqEntry back c) := by
  have hflags : Grown b (c.eflags :: ws) (exec c .pushfl) := G.push (by omega) c.eflags
  have hroom : 4 * (generalRegs (exec c .pushfl) ++ c.eflags :: ws).length < 4294967292 := by
    rw [List.length_append, generalRegs_length, List.length_cons]
    omega
  have hregs := hflags.pushal (by rw [List.length_cons]; omega)
  have hentry := hregs.push hroom (back [.ops [.popal, .op .popfl]])
  refine ⟨back [.ops [.popal, .op .popfl]], ?_⟩
  rw [irqWords, List.append_assoc]
  exact hentry

/-- After its function has returned, an interrupt routine has all registers, the flags and the
stack back. -/
theorem irqWrap_returns (G : Grown b ws c) (hws : ws.length ≤ 5) (h : EntryHandler)
    (obeys : ObeysConvention 0 56 (irqEntry back c) (callee h (irqEntry back c))) :
    (exec (callee h (irqEntry back c)).popal .popfl).reg = c.reg ∧
      (exec (callee h (irqEntry back c)).popal .popfl).eflags = c.eflags ∧
      (exec (callee h (irqEntry back c)).popal .popfl).Stacked ws := by
  obtain ⟨ret, hentry⟩ := irqEntry_grown back G hws
  have hlength : (irqWords c ++ ws).length = 9 + ws.length := by
    rw [List.length_append, irqWords, List.length_append, generalRegs_length, List.length_singleton]
  have hleft : (callee h (irqEntry back c)).Stacked (irqWords c ++ ws) := by
    have hheld := ObeysConvention.stacked [] (irqWords c ++ ws) (obeys.mono (by omega))
      hentry.stacked
    rwa [List.length_nil, Nat.mul_zero, BitVec.add_zero] at hheld
  rw [irqWords, List.append_assoc] at hleft
  obtain ⟨hrestored, hpopal, hstacked⟩ := popal_restores hleft
  obtain ⟨heflags, hpopfl, hkept, hrest⟩ := hstacked.popfl
  refine ⟨funext fun r => ?_, heflags, hrest⟩
  by_cases hr : r = .esp
  · rw [hr, hpopfl, hpopal, obeys.returns, irqEntry_esp]
    grind
  · rw [hkept r hr, hrestored r hr]
    exact c.set_of_ne _ hr

/-! ## Interrupts -/

/-- The vectors of the interrupts, with their routines and the functions that these call. -/
def irqs : List (Nat × Routine × EntryHandler) :=
  [(0x20, .pitIrq, .pitHandler), (0x21, .keyboardIrq, .keyboardHandler),
    (0x28, .rtcIrq, .rtcHandler)]

/-- The gate that leads to a routine. -/
def gateTo (address : Routine → Word) (r : Routine) : Gate :=
  ⟨BitVec.ofNat 32 kernelCs, address r⟩

theorem gateTo_level (address : Routine → Word) (r : Routine) :
    level (gateTo address r).selector = 0 := by
  show level (BitVec.ofNat 32 kernelCs) = 0
  decide

theorem irqs_routines {v : Nat} {r : Routine} {h : EntryHandler} (irq : (v, r, h) ∈ irqs) :
    v < 256 ∧ wired.lookup v = some r ∧ r.code = some (irqWrap h) := by
  simp only [irqs, List.mem_cons, Prod.mk.injEq, List.not_mem_nil, or_false] at irq
  rcases irq with ⟨rfl, rfl, rfl⟩ | ⟨rfl, rfl, rfl⟩ | ⟨rfl, rfl, rfl⟩
  all_goals exact ⟨by decide, rfl, rfl⟩

/-- An interrupt of the hardware with a vector that has a routine comes to it. -/
theorem interrupt_enters (address : Routine → Word) (idt : Nat → IdtDesc) (inner : InnerStack)
    {v : Nat} (hv : v < 256) {r : Routine} (routine : wired.lookup v = some r)
    (error : List Word) (m : Machine) :
    interrupt (idtInit address idt) inner v none error m =
      some (m.enter (gateTo address r) inner error) := by
  obtain ⟨d, hentry, hoffset⟩ := idtInit_entry address idt hv
  have hgate : gateOf (idtInit address idt v).word none = some (gateTo address r) := by
    rw [hentry, gateOf_initEntry, hoffset, target, routine, if_pos (by simp)]
    rfl
  rw [interrupt, hgate, Option.map_some]

/-- The state that the function of an interrupt is entered in. -/
def handlerEntry (address : Routine → Word) (inner : InnerStack) (r : Routine) (m : Machine) :
    Cpu :=
  irqEntry back (m.enter (gateTo address r) inner []).cpu

/-- Whatever code an interrupt breaks into, of whichever level and in whatever state, it has its
registers, its flags and its place back after the interrupt, and its segments and memory but for
what the function that is called does to them, as long as that call obeys the C convention; at the
call they are as they were, but for fifteen words below the stack that the interrupt is taken
on. -/
theorem irq_unnoticed (address : Routine → Word) (idt : Nat → IdtDesc) (inner : InnerStack)
    {v : Nat} {r : Routine} {h : EntryHandler} (irq : (v, r, h) ∈ irqs) (m : Machine)
    (obeys : ObeysConvention 0 56 (handlerEntry back address inner r m)
      (callee h (handlerEntry back address inner r m))) :
    ∃ entered code t entry,
      interrupt (idtInit address idt) inner v none [] m = some entered ∧
      entered.eip = address r ∧ r.code = some code ∧
      runLines callee back code (entered.cpu, []) = (t, [(h, entry)]) ∧
      ({ entered with cpu := t } : Machine).iret =
        { m with cpu := { m.cpu with seg := (callee h entry).seg, mem := (callee h entry).mem } } ∧
      entry.seg = m.cpu.seg ∧
      ∀ a : Word, 60 ≤ (a - ((if level m.cs = 0 then m.cpu.reg .esp else inner.esp0) - 60)).toNat →
        entry.mem a = m.cpu.mem a := by
  obtain ⟨hv, hroutine, hcode⟩ := irqs_routines irq
  let g := gateTo address r
  let entered := m.enter g inner []
  have G : Grown (m.onStack g inner) (trapFrame g m) entered.cpu :=
    @Machine.enter_grown g inner m [] (Nat.zero_le _)
  have hframe := trapFrame_length_le g m
  obtain ⟨hreg, heflags, hstacked⟩ := irqWrap_returns callee back G hframe h obeys
  obtain ⟨ret, hentry⟩ := irqEntry_grown back G hframe
  have hkernel : level g.selector = 0 := gateTo_level address r
  have hbase : (m.onStack g inner).reg .esp =
      if level m.cs = 0 then m.cpu.reg .esp else inner.esp0 := by
    unfold Machine.onStack
    rw [hkernel]
    split
    · rfl
    · exact Cpu.set_self ..
  have hsame : (m.onStack g inner).seg = m.cpu.seg ∧ (m.onStack g inner).mem = m.cpu.mem := by
    unfold Machine.onStack
    split <;> exact ⟨rfl, rfl⟩
  have heax : m.cpu.set .eax (entered.cpu.reg .eax) = m.cpu := by
    rw [Machine.enter_reg (Nat.zero_le _) (by decide), Cpu.set_reg_self]
  refine ⟨entered, irqWrap h, _, irqEntry back entered.cpu,
    interrupt_enters address idt inner hv hroutine [] m, rfl, hcode,
    irqWrap_run callee back h entered.cpu, ?_, hentry.seg.trans hsame.1, fun a outside => ?_⟩
  · have hiret := Machine.iret_enter (fun r _ => congrFun hreg r) hstacked
    rw [hiret, congrFun hreg .eax, heax]
    rfl
  · rw [← hsame.2]
    apply hentry.below (n := 60)
    · simp only [List.length_cons, List.length_append, irqWords, generalRegs_length,
        List.length_nil]
      omega
    · rw [hbase]
      exact outside

/-- A variable in the kernel's page. -/
def lastIrq : Word := 0x410004

/-- Handlers that store something in a variable and return. -/
def notes (_ : EntryHandler) (c : Cpu) : Cpu :=
  { c.set .esp (c.reg .esp + 4) with mem := store32 c.mem lastIrq 1 }

/-- They obey the convention where the frame of their caller does not lie over the variable. -/
theorem notes_obeys (h : EntryHandler) {frame : Nat}
    (apart : ∀ i < frame, 4 ≤ (c.reg .esp + 4 + BitVec.ofNat 32 i - lastIrq).toNat) :
    ObeysConvention 0 frame c (notes h c) where
  saved := by
    rintro r (rfl | rfl | rfl | rfl) <;> rfl
  returns := rfl
  frame := fun i hi => if_neg (not_lt.mpr (apart i hi))

/-- A user program in the middle of its code. -/
def runsProgram : Machine where
  cpu :=
    { reg := Function.update (fun _ => 5) .esp 0x83FFFF0
      seg := fun _ => 0x2B
      eflags := 0x246
      mem := fun _ => 0 }
  eip := 0x8048100
  cs := 0x23
  ss := 0x2B

/-- A key is pressed there. -/
theorem irq_unnoticed_keyboard :
    ∃ entered t entry,
      interrupt (idtInit (fun _ => 0x400000) fun _ => ⟨0, 0, 0, 0, 0, 0, 0, 0, 0, 0, 0⟩)
        ⟨0x18, 0x7FFFFC⟩ 0x21 none [] runsProgram = some entered ∧
      runLines notes (fun _ => 0) keyboardIrq (entered.cpu, []) =
        (t, [(.keyboardHandler, entry)]) ∧
      ({ entered with cpu := t } : Machine).iret.eip = 0x8048100 ∧
      ({ entered with cpu := t } : Machine).iret.cpu.reg .eax = 5 := by
  let called := handlerEntry (fun _ => 0) (fun _ => 0x400000) ⟨0x18, 0x7FFFFC⟩ .keyboardIrq
    runsProgram
  have hesp : called.reg .esp = 0x7FFFC0 := by
    have houter : level runsProgram.cs ≠
        level (gateTo (fun _ => 0x400000) .keyboardIrq).selector := by decide
    show (handlerEntry (fun _ => 0) (fun _ => 0x400000) _ _ _).reg .esp = _
    rw [handlerEntry, irqEntry_esp, Machine.enter_esp houter]
    rfl
  have obeys : ObeysConvention 0 56 called (notes .keyboardHandler called) := by
    apply notes_obeys
    rw [hesp]
    decide
  obtain ⟨entered, code, t, entry, hentered, -, hcode, hrun, hiret, -, -⟩ :=
    irq_unnoticed notes (fun _ => 0) (fun _ => 0x400000)
      (fun _ => ⟨0, 0, 0, 0, 0, 0, 0, 0, 0, 0, 0⟩) ⟨0x18, 0x7FFFFC⟩
      (v := 0x21) (r := .keyboardIrq) (h := .keyboardHandler) (by decide) runsProgram obeys
  obtain rfl : keyboardIrq = code := Option.some.inj hcode
  refine ⟨entered, t, entry, hentered, hrun, ?_, ?_⟩
  · rw [hiret]
    rfl
  · rw [hiret]
    rfl

end Routines

/-! ## Exceptions -/

section Exceptions

variable {b c : Cpu} {ws : List Word} (callee : EntryHandler → Cpu → Cpu)
  (back : List (Line EntryHandler) → Word)

/-- The state that `exception_handler` is entered in, from where its error code has been pushed. -/
def exceptionEntry (vectN : Word) (c : Cpu) : Cpu :=
  (c.pushal.push vectN).push (back [.ops exceptionEnd])

theorem exceptionWrap_calls (vectN : Word) (c : Cpu) :
    (runLines callee back (exceptionWrap vectN) (c, [])).2 =
      [(.exceptionHandler, exceptionEntry back vectN (c.push 0))] := by
  rw [exceptionWrap, runLines_ops, runLines_call, runLines_ops, runLines_nil]
  rfl

theorem exceptionWrapCode_calls (vectN : Word) (c : Cpu) :
    (runLines callee back (exceptionWrapCode vectN) (c, [])).2 =
      [(.exceptionHandler, exceptionEntry back vectN c)] := by
  rw [exceptionWrapCode, runLines_ops, runLines_call, runLines_ops, runLines_nil]
  rfl

theorem exceptionEntry_grown (G : Grown b ws c) (hws : ws.length ≤ 6) (vectN : Word) :
    ∃ ret, Grown b (ret :: vectN :: (generalRegs c ++ ws)) (exceptionEntry back vectN c) := by
  have hlength : (generalRegs c ++ ws).length ≤ 14 := by
    rw [List.length_append, generalRegs_length]
    omega
  have hvect := (G.pushal (by omega)).push (by omega) vectN
  exact ⟨_, hvect.push (by rw [List.length_cons]; omega) (back [.ops exceptionEnd])⟩

/-- No routine has two vectors. -/
theorem wired_find : ∀ e ∈ wired, wired.find? (·.2 = e.2) = some e := by decide

theorem wired_lookup : ∀ e ∈ wired, wired.lookup e.1 = some e.2 := by decide

/-- Where the processor pushes no error code, the routine of an exception pushes a zero. -/
theorem exceptions_code {v : Nat} {r : Routine} (hwired : (v, r) ∈ wired) (exception : v < 32) :
    r.code = some (if v ∈ errorVectors then exceptionWrapCode (BitVec.ofNat 32 v)
      else exceptionWrap (BitVec.ofNat 32 v)) := by
  have hvector := wired_find (v, r) hwired
  cases r with
  | pitIrq | keyboardIrq | rtcIrq | systemCall =>
    obtain rfl := (Prod.mk.inj (Option.some.inj hvector)).1
    exact absurd exception (by decide)
  | _ =>
    obtain rfl := (Prod.mk.inj (Option.some.inj hvector)).1
    rfl

/-- The error code that an exception pushes. -/
def errorWords (v : Nat) (code : Word) : List Word := if v ∈ errorVectors then [code] else []

/-- Every exception comes to `exception_handler`, with its vector, the eight registers, an error
code, a zero if it has none, and the frame of the interrupt as the arguments; in `all_regs` only
the stack pointer is not what it was in the code that failed. -/
theorem exception_arguments (address : Routine → Word) (idt : Nat → IdtDesc) (inner : InnerStack)
    {v : Nat} {r : Routine} (hwired : (v, r) ∈ wired) (exception : v < 32) (code : Word)
    (m : Machine) :
    ∃ entered text entry ret esp,
      interrupt (idtInit address idt) inner v none (errorWords v code) m = some entered ∧
      entered.eip = address r ∧ r.code = some text ∧
      (runLines callee back text (entered.cpu, [])).2 = [(.exceptionHandler, entry)] ∧
      entry.Stacked (ret :: BitVec.ofNat 32 v :: (generalRegs (m.cpu.set .esp esp) ++
        (if v ∈ errorVectors then code else 0) :: trapFrame (gateTo address r) m)) := by
  let g := gateTo address r
  let entered := m.enter g inner (errorWords v code)
  have hframe := trapFrame_length_le g m
  have herror : (errorWords v code).length ≤ 8 := by
    unfold errorWords
    split <;> simp
  have G := @Machine.enter_grown g inner m (errorWords v code) herror
  have hregs : ∀ c : Cpu, (∀ r, r ≠ .esp → c.reg r = entered.cpu.reg r) →
      generalRegs c = generalRegs (m.cpu.set .esp (c.reg .esp)) := by
    intro c same
    have hreg : c.reg = (m.cpu.set .esp (c.reg .esp)).reg := by
      funext r
      by_cases hr : r = .esp
      · rw [hr, Cpu.set_self]
      · rw [Cpu.set_of_ne _ _ hr, same r hr, Machine.enter_reg herror hr]
    unfold generalRegs
    rw [← hreg]
  have hentered : interrupt (idtInit address idt) inner v none (errorWords v code) m =
      some entered :=
    interrupt_enters address idt inner (by omega) (wired_lookup _ hwired) _ m
  have hcode := exceptions_code hwired exception
  by_cases h : v ∈ errorVectors
  · rw [if_pos h] at hcode
    have hws : errorWords v code ++ trapFrame g m = code :: trapFrame g m := by
      rw [errorWords, if_pos h, List.singleton_append]
    rw [hws] at G
    obtain ⟨ret, hentry⟩ := exceptionEntry_grown back G (by rw [List.length_cons]; omega)
      (BitVec.ofNat 32 v)
    refine ⟨entered, _, _, ret, entered.cpu.reg .esp, hentered, rfl, hcode,
      exceptionWrapCode_calls callee back _ _, ?_⟩
    rw [if_pos h, ← hregs entered.cpu fun _ _ => rfl]
    exact hentry.stacked
  · rw [if_neg h] at hcode
    have hws : errorWords v code ++ trapFrame g m = trapFrame g m := by
      rw [errorWords, if_neg h, List.nil_append]
    rw [hws] at G
    have hzero := G.push (by omega) 0
    obtain ⟨ret, hentry⟩ := exceptionEntry_grown back hzero (by rw [List.length_cons]; omega)
      (BitVec.ofNat 32 v)
    refine ⟨entered, _, _, ret, (entered.cpu.push 0).reg .esp, hentered, rfl, hcode,
      exceptionWrap_calls callee back _ _, ?_⟩
    rw [if_neg h, ← hregs (entered.cpu.push 0) fun r hr => Cpu.set_of_ne _ _ hr]
    exact hentry.stacked

/-- A program writes where it must not. -/
theorem exception_arguments_pageFault :
    ∃ entered entry ret esp,
      interrupt (idtInit (fun _ => 0x400000) fun _ => ⟨0, 0, 0, 0, 0, 0, 0, 0, 0, 0, 0⟩)
        ⟨0x18, 0x7FFFFC⟩ 14 none [7] runsProgram = some entered ∧
      (runLines notes (fun _ => 0) pageFaultException (entered.cpu, [])).2 =
        [(.exceptionHandler, entry)] ∧
      entry.Stacked [ret, 14, 5, 5, 5, esp, 5, 5, 5, 5, 7, 0x8048100, 0x23, 0x246, 0x83FFFF0,
        0x2B] := by
  obtain ⟨entered, text, entry, ret, esp, hentered, -, hcode, hcalls, hstacked⟩ :=
    exception_arguments notes (fun _ => 0) (fun _ => 0x400000)
      (fun _ => ⟨0, 0, 0, 0, 0, 0, 0, 0, 0, 0, 0⟩) ⟨0x18, 0x7FFFFC⟩
      (v := 14) (r := .pageFaultException) (by decide) (by decide) 7 runsProgram
  obtain rfl : pageFaultException = text := Option.some.inj hcode
  exact ⟨entered, entry, ret, esp, hentered, hcalls, hstacked⟩

end Exceptions

end Mp3Kernel
