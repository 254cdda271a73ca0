import Mp3Kernel.Lib.X86

/-!
# Trap frames

How control comes into a routine through a gate of the interrupt descriptor table, and back
with `iret`; with the instructions such routines save the general registers by. The processor
pushes where the interrupted code was, on the stack of the inner level if that code ran at an
outer one, and `iret` takes the same words off again: a routine that has its stack and its
registers back has not been noticed.
-/

namespace X86

/-! ## Stacks that have grown -/

/-- Words that lie on end with others. -/
theorem Holds.append {m : Memory} {a : Word} {vs ws : List Word} (V : Holds m a vs)
    (W : Holds m (a + BitVec.ofNat 32 (4 * vs.length)) ws) : Holds m a (vs ++ ws) := by
  induction vs generalizing a with
  | nil => simpa using W
  | cons v vs ih =>
    refine ⟨V.1, ih V.2 ?_⟩
    have hoffset : a + 4 + BitVec.ofNat 32 (4 * vs.length) =
        a + BitVec.ofNat 32 (4 * (v :: vs).length) := by
      rw [List.length_cons, Nat.add_comm, Nat.mul_add, BitVec.ofNat_add, BitVec.add_assoc]
      rfl
    rwa [hoffset]

theorem Holds.left {m : Memory} {a : Word} {vs ws : List Word} (H : Holds m a (vs ++ ws)) :
    Holds m a vs := by
  induction vs generalizing a with
  | nil => trivial
  | cons v vs ih => exact ⟨H.1, ih H.2⟩

/-- Words pushed since another state, with nothing else stored. -/
structure Grown (c : Cpu) (ws : List Word) (c' : Cpu) : Prop extends Pushed c ws c' where
  others : ∀ a : Word, 4 * ws.length ≤ (a - c'.reg .esp).toNat → c'.mem a = c.mem a
  seg : c'.seg = c.seg

section Grown

variable {c c' : Cpu} {ws : List Word}

theorem Grown.refl (c : Cpu) : Grown c [] c := ⟨Pushed.refl c, fun _ _ => rfl, rfl⟩

theorem Grown.push (G : Grown c ws c') (room : 4 * ws.length < 4294967292) (w : Word) :
    Grown c (w :: ws) (c'.push w) where
  toPushed := G.toPushed.push room w
  others := by
    intro a far
    rw [Cpu.push_esp, List.length_cons] at far
    have hstep : a - (c'.reg .esp - 4) = a - c'.reg .esp + 4 := by grind
    rw [hstep, BitVec.toNat_add] at far
    have hlt : (a - c'.reg .esp).toNat < 4294967296 := (a - c'.reg .esp).isLt
    have hfour : (4 : Word).toNat = 4 := rfl
    have hmiss : ¬ (a - (c'.reg .esp - 4)).toNat < 4 := by
      rw [hstep, BitVec.toNat_add]
      omega
    exact (if_neg hmiss).trans (G.others a (by omega))
  seg := G.seg

/-- What another state's register holds makes no difference to a stack. -/
theorem Grown.set (G : Grown c ws c') {r : Reg} (hr : r ≠ .esp) (w : Word) :
    Grown (c.set r w) ws (c'.set r w) where
  reg := by
    intro r' hr'
    by_cases heq : r' = r
    · rw [heq, Cpu.set_self, Cpu.set_self]
    · rw [Cpu.set_of_ne _ _ heq, Cpu.set_of_ne _ _ heq, G.reg r' hr']
  esp := by
    rw [Cpu.set_of_ne _ _ (Ne.symm hr), Cpu.set_of_ne _ _ (Ne.symm hr)]
    exact G.esp
  stacked := by
    unfold Cpu.Stacked
    rw [Cpu.set_of_ne _ _ (Ne.symm hr)]
    exact G.stacked
  others := by
    rw [Cpu.set_of_ne _ _ (Ne.symm hr)]
    exact G.others
  seg := G.seg

theorem Grown.pushl (G : Grown c ws c') (room : 4 * ws.length < 4294967292) {r : Reg}
    (hr : r ≠ .esp) : Grown c (c.reg r :: ws) (exec c' (.pushl r)) := by
  rw [← G.reg r hr]
  exact G.push room _

theorem Grown.pushEsp (G : Grown c ws c') (room : 4 * ws.length < 4294967292) :
    Grown c ((c.reg .esp - BitVec.ofNat 32 (4 * ws.length)) :: ws) (exec c' (.pushl .esp)) := by
  rw [← G.esp]
  exact G.push room _

/-- Nor do the flags. -/
theorem Grown.status (G : Grown c ws c') (result : Word) (overflow : Bool) :
    Grown c ws (c'.status result overflow) := ⟨⟨G.reg, G.esp, G.stacked⟩, G.others, G.seg⟩

/-- All that a stack grows into lies below where it began. -/
theorem Grown.below (G : Grown c ws c') {n : Nat} (room : 4 * ws.length ≤ n) {a : Word}
    (outside : n ≤ (a - (c.reg .esp - BitVec.ofNat 32 n)).toNat) :
    c'.mem a = c.mem a := by
  apply G.others
  have hsum : a - (c.reg .esp - BitVec.ofNat 32 n) =
      a - c'.reg .esp + BitVec.ofNat 32 (n - 4 * ws.length) := by
    have hn : BitVec.ofNat 32 n =
        BitVec.ofNat 32 (4 * ws.length) + BitVec.ofNat 32 (n - 4 * ws.length) := by
      rw [← BitVec.ofNat_add, Nat.add_sub_cancel' room]
    rw [G.esp, hn]
    grind
  have hlt : (a - c'.reg .esp).toNat < 4294967296 := (a - c'.reg .esp).isLt
  rw [hsum, BitVec.toNat_add, BitVec.toNat_ofNat] at outside
  omega

/-- Several words pushed, the first of them first. -/
def Cpu.pushAll (ws : List Word) (c : Cpu) : Cpu := ws.foldl (fun c w => c.push w) c

/-- A stack that has grown on top of one that has. -/
theorem Grown.trans {c'' : Cpu} {vs : List Word} (G : Grown c ws c') (G' : Grown c' vs c'')
    (room : 4 * (vs.length + ws.length) ≤ 4294967296) : Grown c (vs ++ ws) c'' where
  reg := fun r hr => (G'.reg r hr).trans (G.reg r hr)
  esp := by
    have hlength : BitVec.ofNat 32 (4 * (vs ++ ws).length) =
        BitVec.ofNat 32 (4 * ws.length) + BitVec.ofNat 32 (4 * vs.length) := by
      rw [List.length_append, Nat.mul_add, Nat.add_comm, BitVec.ofNat_add]
    rw [G'.esp, G.esp, hlength]
    grind
  stacked := by
    apply Holds.append G'.stacked
    have hback : c''.reg .esp + BitVec.ofNat 32 (4 * vs.length) = c'.reg .esp := by
      rw [G'.esp, BitVec.sub_add_cancel]
    rw [hback]
    refine G.stacked.congr fun i hi => G'.others _ ?_
    have hfar : c'.reg .esp + BitVec.ofNat 32 i - c''.reg .esp =
        BitVec.ofNat 32 (4 * vs.length + i) := by
      rw [← hback, BitVec.ofNat_add]
      grind
    rw [hfar, BitVec.toNat_ofNat]
    omega
  others := by
    intro a far
    rw [List.length_append] at far
    have hstep : a - c''.reg .esp = a - c'.reg .esp + BitVec.ofNat 32 (4 * vs.length) := by
      rw [G'.esp]
      grind
    have hlt : (a - c'.reg .esp).toNat < 4294967296 := (a - c'.reg .esp).isLt
    rw [G'.others a (by omega)]
    apply G.others
    rw [hstep, BitVec.toNat_add, BitVec.toNat_ofNat] at far
    omega
  seg := G'.seg.trans G.seg

theorem Grown.pushAll (G : Grown c ws c') (vs : List Word)
    (room : 4 * (vs.length + ws.length) ≤ 4294967292) :
    Grown c (vs.reverse ++ ws) (c'.pushAll vs) := by
  induction vs generalizing ws c' with
  | nil => exact G
  | cons v vs ih =>
    rw [List.length_cons] at room
    have hnext := ih (G.push (by omega) v) (by rw [List.length_cons]; omega)
    rw [List.reverse_cons, List.append_assoc]
    exact hnext

end Grown

/-! ## Instructions -/

/-- The general registers as `pushal` leaves them on the stack, the last one pushed first. -/
def generalRegs (c : Cpu) : List Word :=
  [c.reg .edi, c.reg .esi, c.reg .ebp, c.reg .esp, c.reg .ebx, c.reg .edx, c.reg .ecx, c.reg .eax]

/-- `pushal` pushes the stack pointer as it was before. -/
def Cpu.pushal (c : Cpu) : Cpu := c.pushAll (generalRegs c).reverse

/-- `popal` passes over the stack pointer that `pushal` stored. -/
def Cpu.popal (c : Cpu) : Cpu :=
  let word (i : Nat) : Word := load32 c.mem (c.reg .esp + BitVec.ofNat 32 (4 * i))
  { c with
    reg := fun
      | .edi => word 0
      | .esi => word 1
      | .ebp => word 2
      | .esp => c.reg .esp + 32
      | .ebx => word 4
      | .edx => word 5
      | .ecx => word 6
      | .eax => word 7 }

/-- The instructions of entry routines: those there are, and some that push, pop or load more. -/
inductive FrameOp
  | op (o : Op)
  | pushal
  | popal
  | pushlImm (w : Word)
  /-- A word loaded from a displacement past a register. -/
  | loadl (disp : Word) (base dst : Reg)

def execFrame (c : Cpu) : FrameOp → Cpu
  | .op o => exec c o
  | .pushal => c.pushal
  | .popal => c.popal
  | .pushlImm w => c.push w
  | .loadl disp base dst => c.set dst (load32 c.mem (c.reg base + disp))

/-- A routine without jumps. -/
inductive Line (Callee : Type)
  | ops (os : List FrameOp)
  | call (f : Callee)

/-- What a routine without jumps does; the calls are logged with the state each was entered in. -/
def runLines {Callee : Type} (callee : Callee → Cpu → Cpu) (address : List (Line Callee) → Word) :
    List (Line Callee) → Cpu × List (Callee × Cpu) → Cpu × List (Callee × Cpu)
  | [], s => s
  | .ops os :: rest, (c, calls) =>
    runLines callee address rest (os.foldl execFrame c, calls)
  | .call f :: rest, (c, calls) =>
    let entry := c.push (address rest)
    runLines callee address rest (callee f entry, calls ++ [(f, entry)])

section Lines

variable {Callee : Type} (callee : Callee → Cpu → Cpu) (address : List (Line Callee) → Word)
  (rest : List (Line Callee)) (c : Cpu) (calls : List (Callee × Cpu))

@[simp] theorem runLines_nil : runLines callee address [] (c, calls) = (c, calls) := rfl

@[simp] theorem runLines_ops (os : List FrameOp) :
    runLines callee address (.ops os :: rest) (c, calls) =
      runLines callee address rest (os.foldl execFrame c, calls) := rfl

@[simp] theorem runLines_call (f : Callee) :
    runLines callee address (.call f :: rest) (c, calls) =
      runLines callee address rest
        (callee f (c.push (address rest)), calls ++ [(f, c.push (address rest))]) := rfl

end Lines

section General

variable {c c' : Cpu} {ws : List Word}

theorem generalRegs_length (c : Cpu) : (generalRegs c).length = 8 := rfl

theorem Grown.pushal (G : Grown c ws c') (room : 4 * ws.length < 4294967264) :
    Grown c (generalRegs c' ++ ws) c'.pushal := by
  have hgrown := G.pushAll (generalRegs c').reverse (by
    rw [List.length_reverse, generalRegs_length]
    omega)
  rwa [List.reverse_reverse] at hgrown

theorem Cpu.set_reg_self (c : Cpu) (r : Reg) : c.set r (c.reg r) = c := by
  unfold Cpu.set
  rw [Function.update_eq_self]

theorem Cpu.pushal_esp (c : Cpu) : c.pushal.reg .esp = c.reg .esp - 32 :=
  ((Grown.refl c).pushal (by simp)).esp

/-- A smaller frame is left alone with a larger one. -/
theorem ObeysConvention.mono {args n n' : Nat} (obeys : ObeysConvention args n c c')
    (le : n' ≤ n) : ObeysConvention args n' c c' :=
  ⟨obeys.saved, obeys.returns, fun i hi => obeys.frame i (by omega)⟩

/-- `popfl` of flags pushed. -/
theorem Cpu.Stacked.popfl {w : Word} (S : c.Stacked (w :: ws)) :
    (exec c .popfl).eflags = w ∧ (exec c .popfl).reg .esp = c.reg .esp + 4 ∧
      (∀ r, r ≠ .esp → (exec c .popfl).reg r = c.reg r) ∧ (exec c .popfl).Stacked ws := by
  have hesp : (exec c .popfl).reg .esp = c.reg .esp + 4 := c.set_self .esp _
  refine ⟨S.1, hesp, fun r hr => c.set_of_ne _ hr, ?_⟩
  unfold Cpu.Stacked
  rw [hesp]
  exact S.2

/-- Where the registers lie that were saved, `popal` takes them back. -/
theorem popal_restores (S : c'.Stacked (generalRegs c ++ ws)) :
    (∀ r, r ≠ .esp → c'.popal.reg r = c.reg r) ∧ c'.popal.reg .esp = c'.reg .esp + 32 ∧
      c'.popal.Stacked ws := by
  have hword : ∀ i w rest, Holds c'.mem (c'.reg .esp + BitVec.ofNat 32 (4 * i)) (w :: rest) →
      load32 c'.mem (c'.reg .esp + BitVec.ofNat 32 (4 * i)) = w := fun _ _ _ h => h.1
  have hat : ∀ i, Holds c'.mem (c'.reg .esp + BitVec.ofNat 32 (4 * ((generalRegs c).take i).length))
      ((generalRegs c).drop i ++ ws) := by
    intro i
    apply Holds.of_append
    rw [← List.append_assoc, List.take_append_drop]
    exact S
  refine ⟨fun r hr => ?_, rfl, ?_⟩
  · cases r with
    | esp => exact absurd rfl hr
    | edi => exact hword 0 _ _ (hat 0)
    | esi => exact hword 1 _ _ (hat 1)
    | ebp => exact hword 2 _ _ (hat 2)
    | ebx => exact hword 4 _ _ (hat 4)
    | edx => exact hword 5 _ _ (hat 5)
    | ecx => exact hword 6 _ _ (hat 6)
    | eax => exact hword 7 _ _ (hat 7)
  · exact hat 8

end General

/-! ## Gates -/

/-- A processor in its code: the selectors say at which level it runs, and from which segment its
stack is. -/
structure Machine where
  cpu : Cpu
  eip : Word
  cs : Word
  ss : Word

/-- The privilege level of a code selector. -/
def level (cs : Word) : Nat := cs.toNat % 4

/-- An interrupt gate: the code that it leads to. -/
structure Gate where
  selector : Word
  offset : Word

/-- The stack of the inner level, as the task state segment has it. -/
structure InnerStack where
  ss0 : Word
  esp0 : Word

/-- TF, IF, NT, RF and VM, which an interrupt gate clears. -/
def clearedFlags : List Nat := [8, 9, 14, 16, 17]

/-- The words that an interrupt pushes, the last one first: where the code was, its flags, and,
if the level changes, its stack. -/
def trapFrame (g : Gate) (m : Machine) : List Word :=
  [m.eip, m.cs, m.cpu.eflags] ++
    if level m.cs = level g.selector then [] else [m.cpu.reg .esp, m.ss]

/-- The stack that an interrupt pushes on. -/
def Machine.onStack (g : Gate) (inner : InnerStack) (m : Machine) : Cpu :=
  if level m.cs = level g.selector then m.cpu else m.cpu.set .esp inner.esp0

/-- An interrupt through a gate, with the error code of some of the exceptions. -/
def Machine.enter (g : Gate) (inner : InnerStack) (error : List Word) (m : Machine) : Machine :=
  let c := (m.onStack g inner).pushAll ((error ++ trapFrame g m).reverse)
  { cpu := { c with eflags := clearedFlags.foldl (fun e i => setFlag i false e) c.eflags }
    eip := g.offset
    cs := g.selector
    ss := if level m.cs = level g.selector then m.ss else inner.ss0 }

/-- A word on the stack. -/
def Machine.word (m : Machine) (i : Nat) : Word :=
  load32 m.cpu.mem (m.cpu.reg .esp + BitVec.ofNat 32 (4 * i))

/-- `ret`. -/
def Machine.ret (m : Machine) : Machine :=
  { m with cpu := m.cpu.set .esp (m.cpu.reg .esp + 4), eip := m.word 0 }

/-- `iret`, which takes the stack off too if it goes back to another level. -/
def Machine.iret (m : Machine) : Machine :=
  if level (m.word 1) = level m.cs then
    { cpu := { m.cpu.set .esp (m.cpu.reg .esp + 12) with eflags := m.word 2 }
      eip := m.word 0, cs := m.word 1, ss := m.ss }
  else
    { cpu := { m.cpu.set .esp (m.word 3) with eflags := m.word 2 }
      eip := m.word 0, cs := m.word 1, ss := m.word 4 }

section Gates

variable {g : Gate} {inner : InnerStack} {m t : Machine} {error : List Word}

theorem trapFrame_length_le (g : Gate) (m : Machine) : (trapFrame g m).length ≤ 5 := by
  unfold trapFrame
  split <;> simp

/-- The frame is pushed, and nothing else changes but the flags that are cleared. -/
theorem Machine.enter_grown (room : error.length ≤ 8) :
    Grown (m.onStack g inner) (error ++ trapFrame g m) (m.enter g inner error).cpu := by
  have hlength := trapFrame_length_le g m
  have hgrown := (Grown.refl (m.onStack g inner)).pushAll (error ++ trapFrame g m).reverse (by
    rw [List.length_reverse, List.length_append, List.length_nil]
    omega)
  rw [List.reverse_reverse, List.append_nil] at hgrown
  exact ⟨⟨hgrown.reg, hgrown.esp, hgrown.stacked⟩, hgrown.others, hgrown.seg⟩

theorem Machine.ret_eip {w : Word} {ws : List Word} (S : m.cpu.Stacked (w :: ws)) :
    m.ret.eip = w := by
  have htop : m.cpu.reg .esp + BitVec.ofNat 32 (4 * 0) = m.cpu.reg .esp := BitVec.add_zero _
  exact (congrArg (load32 m.cpu.mem) htop).trans S.1

/-- Where the code comes from an outer level, the frame of five words lies on the inner stack. -/
theorem Machine.enter_esp (outer : level m.cs ≠ level g.selector) :
    (m.enter g inner []).cpu.reg .esp = inner.esp0 - 20 := by
  have hgrown := @Machine.enter_grown g inner m [] (Nat.zero_le _)
  have hbase : (m.onStack g inner).reg .esp = inner.esp0 := by
    rw [Machine.onStack, if_neg outer, Cpu.set_self]
  have hlength : (trapFrame g m).length = 5 := by
    rw [trapFrame, if_neg outer]
    rfl
  rw [hgrown.esp, hbase, List.nil_append, hlength]
  rfl

theorem Machine.enter_reg (room : error.length ≤ 8) {r : Reg} (hr : r ≠ .esp) :
    (m.enter g inner error).cpu.reg r = m.cpu.reg r := by
  have honStack : (m.onStack g inner).reg r = m.cpu.reg r := by
    unfold Machine.onStack
    split
    · rfl
    · exact Cpu.set_of_ne _ _ hr
  rw [(Machine.enter_grown room).reg r hr, honStack]

/-- `iret` over a frame that lies where it was pushed goes back to where the machine was; the
registers it finds, but the stack pointer, it leaves. -/
theorem Machine.iret_frame (frame : t.cpu.Stacked (trapFrame g m)) (cs : t.cs = g.selector)
    (ss : level m.cs = level g.selector → t.ss = m.ss)
    (esp : level m.cs = level g.selector → t.cpu.reg .esp = m.cpu.reg .esp - 12) :
    t.iret =
      { cpu := { t.cpu.set .esp (m.cpu.reg .esp) with eflags := m.cpu.eflags }
        eip := m.eip, cs := m.cs, ss := m.ss } := by
  have hat : ∀ i, Holds t.cpu.mem
      (t.cpu.reg .esp + BitVec.ofNat 32 (4 * ((trapFrame g m).take i).length))
      ((trapFrame g m).drop i) := by
    intro i
    apply Holds.of_append
    rw [List.take_append_drop]
    exact frame
  by_cases hlevel : level m.cs = level g.selector
  · have hframe : trapFrame g m = [m.eip, m.cs, m.cpu.eflags] := by
      unfold trapFrame
      rw [if_pos hlevel, List.append_nil]
    rw [hframe] at hat
    have heip : t.word 0 = m.eip := (hat 0).1
    have hcs : t.word 1 = m.cs := (hat 1).1
    have heflags : t.word 2 = m.cpu.eflags := (hat 2).1
    have hback : t.cpu.reg .esp + 12 = m.cpu.reg .esp := by
      rw [esp hlevel]
      exact BitVec.sub_add_cancel ..
    have hsame : level (t.word 1) = level t.cs := by rw [hcs, cs, hlevel]
    refine (if_pos hsame).trans ?_
    rw [heip, hcs, heflags, hback, ss hlevel]
  · have hframe : trapFrame g m = [m.eip, m.cs, m.cpu.eflags, m.cpu.reg .esp, m.ss] := by
      unfold trapFrame
      rw [if_neg hlevel]
      rfl
    rw [hframe] at hat
    have heip : t.word 0 = m.eip := (hat 0).1
    have hcs : t.word 1 = m.cs := (hat 1).1
    have heflags : t.word 2 = m.cpu.eflags := (hat 2).1
    have hesp : t.word 3 = m.cpu.reg .esp := (hat 3).1
    have hss : t.word 4 = m.ss := (hat 4).1
    have hother : ¬ level (t.word 1) = level t.cs := by rwa [hcs, cs]
    refine (if_neg hother).trans ?_
    rw [heip, hcs, heflags, hesp, hss]

/-- A routine that has its stack and its registers back, but perhaps one, is not noticed but for
that register and the memory. -/
theorem Machine.iret_enter {c : Cpu}
    (regs : ∀ r, r ≠ .eax → c.reg r = (m.enter g inner []).cpu.reg r)
    (frame : c.Stacked (trapFrame g m)) :
    ({ m.enter g inner [] with cpu := c } : Machine).iret =
      { m with cpu :=
        { m.cpu.set .eax (c.reg .eax) with seg := c.seg, mem := c.mem } } := by
  have hgrown := @Machine.enter_grown g inner m [] (Nat.zero_le _)
  have hesp : level m.cs = level g.selector → c.reg .esp = m.cpu.reg .esp - 12 := by
    intro hlevel
    have honStack : m.onStack g inner = m.cpu := if_pos hlevel
    have hframe : trapFrame g m = [m.eip, m.cs, m.cpu.eflags] := by
      unfold trapFrame
      rw [if_pos hlevel, List.append_nil]
    rw [regs .esp (by decide), hgrown.esp, honStack, hframe]
    rfl
  have hiret := Machine.iret_frame (t := { m.enter g inner [] with cpu := c }) frame rfl
    (fun hlevel => if_pos hlevel) hesp
  have hregs : (c.set .esp (m.cpu.reg .esp)).reg = (m.cpu.set .eax (c.reg .eax)).reg := by
    funext r
    by_cases hr : r = .esp
    · rw [hr, Cpu.set_self, Cpu.set_of_ne _ _ (by decide)]
    · rw [Cpu.set_of_ne _ _ hr]
      by_cases hr' : r = .eax
      · rw [hr', Cpu.set_self]
      · rw [Cpu.set_of_ne _ _ hr', regs r hr', Machine.enter_reg (Nat.zero_le _) hr]
  exact hiret.trans (congrArg
    (fun reg => Machine.mk ⟨reg, c.seg, m.cpu.eflags, c.mem⟩ m.eip m.cs m.ss) hregs)

end Gates

end X86
