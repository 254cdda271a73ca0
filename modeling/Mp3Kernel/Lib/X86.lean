import Mp3Kernel.Lib.WordMemory
import Mathlib.Logic.Relation
import Mathlib.Logic.Function.Iterate

/-!
# A 32-bit x86 machine

Enough of the machine to run hand-written routines: the general registers, the flags, flat
byte memory, and the instructions such routines are made of, in the operand order of their
assembler (the source first). A program is its labelled blocks in source order, and the
program counter is the list of instructions still to come, so that control falls through
from one block into the next.

What a `call` enters is a parameter, a function on the state: it finds the return address on
top of the stack and leaves the state after its `ret`. The calls made are logged with the
state each was entered in. `iret` ends a run.
-/

namespace X86

inductive Reg
  | eax
  | ecx
  | edx
  | ebx
  | esp
  | ebp
  | esi
  | edi
  deriving DecidableEq

/-- Segment registers. The segments are flat, so an address does not depend on them. -/
inductive Seg
  | ds
  | es
  deriving DecidableEq

/-- The flags are one word, which `pushfl` stores whole: the two it would leave out, VM and RF,
are clear in such routines. -/
structure Cpu where
  reg : Reg → Word
  seg : Seg → BitVec 16
  eflags : Word
  mem : Memory

/-! ## Flags -/

def zf : Nat := 6

def sf : Nat := 7

def df : Nat := 10

def of : Nat := 11

def setFlag (i : Nat) (v : Bool) (eflags : Word) : Word :=
  if v then eflags ||| BitVec.twoPow 32 i else eflags &&& ~~~(BitVec.twoPow 32 i)

theorem getLsbD_setFlag (i j : Nat) (hj : j < 32) (v : Bool) (eflags : Word) :
    (setFlag i v eflags).getLsbD j = if j = i then v else eflags.getLsbD j := by
  unfold setFlag
  by_cases h : j = i
  · subst h
    cases v <;> simp [hj]
  · cases v <;> simp [h, hj]

namespace Cpu

/-- One of the flags. -/
def flag (i : Nat) (c : Cpu) : Bool := c.eflags.getLsbD i

def set (r : Reg) (w : Word) (c : Cpu) : Cpu := { c with reg := Function.update c.reg r w }

/-- The flags of a result. Those that no instruction here tests are left as they are. -/
def status (result : Word) (overflow : Bool) (c : Cpu) : Cpu :=
  { c with
    eflags := setFlag zf (result == 0) (setFlag sf result.msb (setFlag of overflow c.eflags)) }

def push (w : Word) (c : Cpu) : Cpu :=
  { c.set .esp (c.reg .esp - 4) with mem := store32 c.mem (c.reg .esp - 4) w }

/-- What the string instructions add to their index registers. -/
def stride (c : Cpu) : Word := if c.flag df then -4 else 4

def stosl (c : Cpu) : Cpu :=
  { c.set .edi (c.reg .edi + c.stride) with mem := store32 c.mem (c.reg .edi) (c.reg .eax) }

def movsl (c : Cpu) : Cpu :=
  { (c.set .edi (c.reg .edi + c.stride)).set .esi (c.reg .esi + c.stride) with
    mem := store32 c.mem (c.reg .edi) (load32 c.mem (c.reg .esi)) }

/-- A string instruction repeated `ecx` times. -/
def rep (f : Cpu → Cpu) (c : Cpu) : Cpu := (f^[(c.reg .ecx).toNat] c).set .ecx 0

end Cpu

section Status

variable (c : Cpu) (r : Reg) (w : Word) (overflow : Bool)

@[simp] theorem Cpu.set_reg : (c.set r w).reg = Function.update c.reg r w := rfl

theorem Cpu.set_self : (c.set r w).reg r = w := by
  rw [Cpu.set_reg, Function.update_self]

theorem Cpu.set_of_ne {r r' : Reg} (hr : r' ≠ r) : (c.set r w).reg r' = c.reg r' := by
  rw [Cpu.set_reg, Function.update_of_ne hr]

theorem Cpu.push_esp : (c.push w).reg .esp = c.reg .esp - 4 := c.set_self .esp _

@[simp] theorem Cpu.status_reg : (c.status w overflow).reg = c.reg := rfl

theorem Cpu.status_flag {j : Nat} (hj : j < 32) :
    (c.status w overflow).flag j =
      if j = zf then w == 0 else if j = sf then w.msb else if j = of then overflow
      else c.flag j := by
  unfold Cpu.flag Cpu.status
  rw [getLsbD_setFlag _ _ hj, getLsbD_setFlag _ _ hj, getLsbD_setFlag _ _ hj]

@[simp] theorem Cpu.status_zf : (c.status w overflow).flag zf = (w == 0) :=
  c.status_flag w overflow (by decide)

@[simp] theorem Cpu.status_sf : (c.status w overflow).flag sf = w.msb :=
  c.status_flag w overflow (by decide)

@[simp] theorem Cpu.status_of : (c.status w overflow).flag of = overflow :=
  c.status_flag w overflow (by decide)

end Status

/-! ## Instructions -/

inductive Src
  | imm (w : Word)
  | reg (r : Reg)

def Cpu.value (c : Cpu) : Src → Word
  | .imm w => w
  | .reg r => c.reg r

/-- The instructions that go on to the next one. `movb` comes in the two forms that load and
store a byte through a register. -/
inductive Op
  | pushl (r : Reg)
  | popl (r : Reg)
  | pushfl
  | popfl
  | movl (src : Src) (dst : Reg)
  | movbFrom (src dst : Reg)
  | movbTo (src dst : Reg)
  | movwOf (src : Seg) (dst : Reg)
  | movwTo (src : Reg) (dst : Seg)
  | addl (src : Src) (dst : Reg)
  | subl (src : Src) (dst : Reg)
  | andl (src : Src) (dst : Reg)
  | decl (dst : Reg)
  | shrl (count : Nat) (dst : Reg)
  | cmpl (src : Src) (dst : Reg)
  | testl (src : Src) (dst : Reg)
  | cld
  | repStosl
  | repMovsl

def exec (c : Cpu) : Op → Cpu
  | .pushl r => c.push (c.reg r)
  -- the stack pointer is moved before the word is loaded, so `popl %esp` leaves the word in it
  | .popl r => (c.set .esp (c.reg .esp + 4)).set r (load32 c.mem (c.reg .esp))
  | .pushfl => c.push c.eflags
  | .popfl => { c.set .esp (c.reg .esp + 4) with eflags := load32 c.mem (c.reg .esp) }
  | .movl src dst => c.set dst (c.value src)
  | .movbFrom src dst => c.set dst ((c.reg dst).extractLsb' 8 24 ++ c.mem (c.reg src))
  | .movbTo src dst => { c with mem := store8 c.mem (c.reg dst) (byteOf (c.reg src) 0) }
  | .movwOf src dst => c.set dst ((c.reg dst).extractLsb' 16 16 ++ c.seg src)
  | .movwTo src dst =>
    { c with seg := Function.update c.seg dst ((c.reg src).extractLsb' 0 16) }
  | .addl src dst =>
    let result := c.reg dst + c.value src
    (c.set dst result).status result ((c.reg dst).saddOverflow (c.value src))
  | .subl src dst =>
    let result := c.reg dst - c.value src
    (c.set dst result).status result ((c.reg dst).ssubOverflow (c.value src))
  | .andl src dst =>
    let result := c.reg dst &&& c.value src
    (c.set dst result).status result false
  | .decl dst =>
    let result := c.reg dst - 1
    (c.set dst result).status result ((c.reg dst).ssubOverflow 1)
  | .shrl count dst =>
    let result := c.reg dst >>> count
    -- for a count other than one the overflow flag is undefined
    (c.set dst result).status result (c.reg dst).msb
  | .cmpl src dst =>
    c.status (c.reg dst - c.value src) ((c.reg dst).ssubOverflow (c.value src))
  | .testl src dst => c.status (c.reg dst &&& c.value src) false
  | .cld => { c with eflags := setFlag df false c.eflags }
  | .repStosl => c.rep Cpu.stosl
  | .repMovsl => c.rep Cpu.movsl

/-- Conditions of the conditional jumps. -/
inductive Cond
  | z
  | l
  | g

def Cpu.meets (c : Cpu) : Cond → Bool
  | .z => c.flag zf
  | .l => c.flag sf != c.flag of
  | .g => !c.flag zf && c.flag sf == c.flag of

/-- The sign flag and the overflow flag of a difference differ when it is negative as integers
have it. -/
theorem msb_sub_ne (v w : Word) : (v - w).msb ≠ v.ssubOverflow w ↔ v.toInt < w.toInt := by
  have hv := @BitVec.toInt_lt 32 v
  have hv' := BitVec.le_toInt v
  have hw := @BitVec.toInt_lt 32 w
  have hw' := BitVec.le_toInt w
  rw [BitVec.msb_eq_toInt, BitVec.toInt_sub, BitVec.ssubOverflow, Ne, Bool.eq_iff_iff]
  simp only [decide_eq_true_eq, Bool.or_eq_true, Int.bmod_def]
  omega

section Conditions

variable (c : Cpu) (src : Src) (dst : Reg)

theorem cmpl_l :
    (exec c (.cmpl src dst)).meets .l = decide ((c.reg dst).toInt < (c.value src).toInt) := by
  rw [Bool.eq_iff_iff, decide_eq_true_eq, ← msb_sub_ne]
  simp [Cpu.meets, exec]

theorem cmpl_g :
    (exec c (.cmpl src dst)).meets .g = decide ((c.value src).toInt < (c.reg dst).toInt) := by
  have hlt := msb_sub_ne (c.reg dst) (c.value src)
  have heq : c.reg dst - c.value src = 0 ↔ (c.reg dst).toInt = (c.value src).toInt := by
    rw [BitVec.toInt_inj]
    grind
  rw [Bool.eq_iff_iff, decide_eq_true_eq]
  simp only [Cpu.meets, exec, Cpu.status_zf, Cpu.status_sf, Cpu.status_of]
  grind

theorem addl_reg : (exec c (.addl src dst)).reg = (c.set dst (c.reg dst + c.value src)).reg := rfl

theorem decl_reg : (exec c (.decl dst)).reg = (c.set dst (c.reg dst - 1)).reg := rfl

theorem Cpu.stride_forward (forward : c.flag df = false) : c.stride = 4 := by
  unfold Cpu.stride
  rw [forward]
  rfl

theorem testl_z :
    (exec c (.testl src dst)).meets .z = (c.reg dst &&& c.value src == 0) := by
  simp [Cpu.meets, exec]

end Conditions

/-! ## The stack -/

section Stack

variable {c c' : Cpu} {r : Reg} {w : Word} {ws : List Word}

/-- The words on top of the stack. -/
def Cpu.Stacked (c : Cpu) (ws : List Word) : Prop := Holds c.mem (c.reg .esp) ws

theorem Cpu.Stacked.push (S : c.Stacked ws) (room : 4 * ws.length < 4294967292) (w : Word) :
    (c.push w).Stacked (w :: ws) := by
  have hback : c.reg .esp - 4 + 4 = c.reg .esp := BitVec.sub_add_cancel ..
  unfold Cpu.Stacked
  rw [Cpu.push_esp]
  apply Holds.push
  · rw [hback]
    exact S
  · exact room

/-- A state, with words pushed since another one; the last one pushed comes first. -/
structure Pushed (c : Cpu) (ws : List Word) (c' : Cpu) : Prop where
  reg : ∀ r, r ≠ .esp → c'.reg r = c.reg r
  esp : c'.reg .esp = c.reg .esp - BitVec.ofNat 32 (4 * ws.length)
  stacked : c'.Stacked ws

theorem Pushed.refl (c : Cpu) : Pushed c [] c := ⟨fun _ _ => rfl, by simp, trivial⟩

theorem Pushed.push (P : Pushed c ws c') (room : 4 * ws.length < 4294967292) (w : Word) :
    Pushed c (w :: ws) (c'.push w) where
  reg := fun r hr => (c'.set_of_ne _ hr).trans (P.reg r hr)
  esp := by
    have hlength : BitVec.ofNat 32 (4 * (w :: ws).length) =
        BitVec.ofNat 32 (4 * ws.length) + 4 := by
      rw [List.length_cons, Nat.mul_add, BitVec.ofNat_add]
      rfl
    rw [Cpu.push_esp, P.esp, hlength]
    grind
  stacked := P.stacked.push room w

theorem Pushed.pushl (P : Pushed c ws c') (room : 4 * ws.length < 4294967292) (hr : r ≠ .esp) :
    Pushed c (c.reg r :: ws) (exec c' (.pushl r)) := by
  rw [← P.reg r hr]
  exact P.push room _

/-- `pushl %esp` pushes the stack pointer as it was before. -/
theorem Pushed.pushEsp (P : Pushed c ws c') (room : 4 * ws.length < 4294967292) :
    Pushed c ((c.reg .esp - BitVec.ofNat 32 (4 * ws.length)) :: ws) (exec c' (.pushl .esp)) := by
  rw [← P.esp]
  exact P.push room _

theorem Pushed.cmpl (P : Pushed c ws c') (src : Src) (dst : Reg) :
    Pushed c ws (exec c' (.cmpl src dst)) := ⟨P.reg, P.esp, P.stacked⟩

theorem Cpu.Stacked.popl (S : c.Stacked (w :: ws)) (hr : r ≠ .esp) :
    exec c (.popl r) = (c.set .esp (c.reg .esp + 4)).set r w ∧ (exec c (.popl r)).Stacked ws := by
  have hexec : exec c (.popl r) = (c.set .esp (c.reg .esp + 4)).set r w :=
    congrArg (fun w => (c.set .esp (c.reg .esp + 4)).set r w) S.1
  refine ⟨hexec, ?_⟩
  have hesp : ((c.set .esp (c.reg .esp + 4)).set r w).reg .esp = c.reg .esp + 4 :=
    (Cpu.set_of_ne _ _ (Ne.symm hr)).trans (c.set_self .esp _)
  unfold Cpu.Stacked
  rw [hexec, hesp]
  exact S.2

/-- `popl %esp` of the stack pointer pushed is an ordinary pop. -/
theorem Cpu.Stacked.popEsp (S : c.Stacked (w :: ws)) (own : w = c.reg .esp + 4) :
    exec c (.popl .esp) = c.set .esp (c.reg .esp + 4) ∧ (exec c (.popl .esp)).Stacked ws := by
  have hexec : exec c (.popl .esp) = c.set .esp (c.reg .esp + 4) := by
    show (c.set .esp (c.reg .esp + 4)).set .esp (load32 c.mem (c.reg .esp)) = _
    rw [S.1, own, Cpu.set, Cpu.set, Function.update_idem]
  refine ⟨hexec, ?_⟩
  unfold Cpu.Stacked
  rw [hexec, c.set_self]
  exact S.2

/-- A state on the way back: some registers have another state's values again, and the words
still on the stack end where that state's stack did. -/
structure Popped (c : Cpu) (rs : List Reg) (ws : List Word) (c' t : Cpu) : Prop where
  restored : ∀ r ∈ rs, r ≠ .esp → t.reg r = c.reg r
  kept : ∀ r, r ∉ rs → r ≠ .esp → t.reg r = c'.reg r
  esp : t.reg .esp = c.reg .esp - BitVec.ofNat 32 (4 * ws.length)
  stacked : t.Stacked ws

variable {t : Cpu} {rs : List Reg}

theorem Popped.esp_add (P : Popped c rs (w :: ws) c' t) :
    t.reg .esp + 4 = c.reg .esp - BitVec.ofNat 32 (4 * ws.length) := by
  have hlength : BitVec.ofNat 32 (4 * (w :: ws).length) = BitVec.ofNat 32 (4 * ws.length) + 4 := by
    rw [List.length_cons, Nat.mul_add, BitVec.ofNat_add]
    rfl
  rw [P.esp, hlength]
  grind

theorem Popped.popl (P : Popped c rs (c.reg r :: ws) c' t) (hr : r ≠ .esp) :
    Popped c (r :: rs) ws c' (exec t (.popl r)) := by
  obtain ⟨hexec, hstacked⟩ := P.stacked.popl hr
  refine ⟨fun r' hr' hesp => ?_, fun r' hr' hesp => ?_, ?_, hstacked⟩
  · rw [hexec]
    by_cases heq : r' = r
    · rw [heq, Cpu.set_self]
    · rw [Cpu.set_of_ne _ _ heq, Cpu.set_of_ne _ _ hesp]
      exact P.restored r' ((List.mem_cons.mp hr').resolve_left heq) hesp
  · rw [List.mem_cons, not_or] at hr'
    rw [hexec, Cpu.set_of_ne _ _ hr'.1, Cpu.set_of_ne _ _ hesp]
    exact P.kept r' hr'.2 hesp
  · rw [hexec, Cpu.set_of_ne _ _ (Ne.symm hr), Cpu.set_self]
    exact P.esp_add

theorem Popped.popEsp (P : Popped c rs (w :: ws) c' t)
    (own : w = c.reg .esp - BitVec.ofNat 32 (4 * ws.length)) :
    Popped c rs ws c' (exec t (.popl .esp)) := by
  obtain ⟨hexec, hstacked⟩ := P.stacked.popEsp (own.trans P.esp_add.symm)
  refine ⟨fun r' hr' hesp => ?_, fun r' hr' hesp => ?_, ?_, hstacked⟩
  · rw [hexec, Cpu.set_of_ne _ _ hesp]
    exact P.restored r' hr' hesp
  · rw [hexec, Cpu.set_of_ne _ _ hesp]
    exact P.kept r' hr' hesp
  · rw [hexec, Cpu.set_self]
    exact P.esp_add

theorem Popped.popfl (P : Popped c rs (w :: ws) c' t) :
    Popped c rs ws c' (exec t .popfl) ∧ (exec t .popfl).eflags = w := by
  have hesp : (exec t .popfl).reg .esp = t.reg .esp + 4 := t.set_self .esp _
  refine ⟨⟨fun r' hr' hne => ?_, fun r' hr' hne => ?_, ?_, ?_⟩, P.stacked.1⟩
  · exact (t.set_of_ne _ hne).trans (P.restored r' hr' hne)
  · exact (t.set_of_ne _ hne).trans (P.kept r' hr' hne)
  · rw [hesp]
    exact P.esp_add
  · unfold Cpu.Stacked
    rw [hesp]
    exact P.stacked.2

/-- The C calling convention, for one call of a function of some argument words: it keeps four
registers, takes the return address off the stack, and of its caller's frame, the bytes above the
argument words, it leaves so many alone. The other registers, the flags, the argument words and
all other memory are its own. -/
structure ObeysConvention (args frame : Nat) (c c' : Cpu) : Prop where
  saved : ∀ r, r = .ebx ∨ r = .esi ∨ r = .edi ∨ r = .ebp → c'.reg r = c.reg r
  returns : c'.reg .esp = c.reg .esp + 4
  frame : ∀ i < frame,
    c'.mem (c.reg .esp + BitVec.ofNat 32 (4 * (1 + args)) + BitVec.ofNat 32 i) =
      c.mem (c.reg .esp + BitVec.ofNat 32 (4 * (1 + args)) + BitVec.ofNat 32 i)

/-- What such a call leaves on the stack: the words above its arguments. -/
theorem ObeysConvention.stacked (args ws : List Word)
    (obeys : ObeysConvention args.length (4 * ws.length) c c')
    (S : c.Stacked (w :: (args ++ ws))) :
    Holds c'.mem (c'.reg .esp + BitVec.ofNat 32 (4 * args.length)) ws := by
  have hoffset : c'.reg .esp + BitVec.ofNat 32 (4 * args.length) =
      c.reg .esp + BitVec.ofNat 32 (4 * (1 + args.length)) := by
    rw [obeys.returns, Nat.mul_add, BitVec.ofNat_add, BitVec.add_assoc]
    rfl
  have hheld := @Holds.of_append c.mem (c.reg .esp) ws (w :: args) S
  rw [List.length_cons, Nat.add_comm] at hheld
  rw [hoffset]
  exact hheld.congr fun i hi => obeys.frame i hi

end Stack

/-- What a program is made of: instructions in a row, and the ones that direct control. -/
inductive Instr (Label Callee : Type)
  | ops (os : List Op)
  | jcc (cond : Cond) (target : Label)
  | jmp (target : Label)
  | jmpTable (table : List Label) (index : Reg)
  | call (f : Callee)
  | iret

structure Block (Label Callee : Type) where
  label : Label
  body : List (Instr Label Callee)

abbrev Program (Label Callee : Type) := List (Block Label Callee)

/-! ## Runs -/

structure Env (Label Callee : Type) where
  program : Program Label Callee
  callee : Callee → Cpu → Cpu
  /-- The address of an instruction, as `call` pushes it. -/
  address : List (Instr Label Callee) → Word

structure Config (Label Callee : Type) where
  cpu : Cpu
  code : List (Instr Label Callee)
  calls : List (Callee × Cpu)

section Runs

variable {Label Callee : Type} [DecidableEq Label]

/-- The code from a label on. -/
def codeAt (program : Program Label Callee) (label : Label) : List (Instr Label Callee) :=
  (program.dropWhile (·.label ≠ label)).flatMap (·.body)

def step (env : Env Label Callee) : Config Label Callee → Option (Config Label Callee)
  | ⟨c, .ops os :: rest, calls⟩ => some ⟨os.foldl exec c, rest, calls⟩
  | ⟨c, .jcc cond target :: rest, calls⟩ =>
    some ⟨c, if c.meets cond then codeAt env.program target else rest, calls⟩
  | ⟨c, .jmp target :: _, calls⟩ => some ⟨c, codeAt env.program target, calls⟩
  | ⟨c, .jmpTable table index :: _, calls⟩ =>
    table[(c.reg index).toNat]?.map fun target => ⟨c, codeAt env.program target, calls⟩
  | ⟨c, .call f :: rest, calls⟩ =>
    let entry := c.push (env.address rest)
    some ⟨env.callee f entry, rest, calls ++ [(f, entry)]⟩
  | ⟨_, .iret :: _, _⟩ => none
  | ⟨_, [], _⟩ => none

/-- Some steps lead from one configuration to the other. -/
def Reaches (env : Env Label Callee) : Config Label Callee → Config Label Callee → Prop :=
  Relation.ReflTransGen fun s t => step env s = some t

variable {env : Env Label Callee} {s t u : Config Label Callee}

theorem Reaches.refl : Reaches env s s := Relation.ReflTransGen.refl

theorem Reaches.head (rest : Reaches env t u) (first : step env s = some t) : Reaches env s u :=
  Relation.ReflTransGen.head first rest

theorem Reaches.trans (first : Reaches env s t) (rest : Reaches env t u) : Reaches env s u :=
  Relation.ReflTransGen.trans first rest

/-- The log of the calls only grows. -/
theorem step_calls (next : step env s = some t) : s.calls <+: t.calls := by
  obtain ⟨c, code, calls⟩ := s
  cases code with
  | nil => exact nomatch next
  | cons i rest =>
    cases i with
    | iret => exact nomatch next
    | call f =>
      obtain rfl := Option.some.inj next
      exact List.prefix_append ..
    | jmpTable table index =>
      obtain ⟨_, -, rfl⟩ := Option.map_eq_some_iff.mp next
      exact List.prefix_refl _
    | _ =>
      obtain rfl := Option.some.inj next
      exact List.prefix_refl _

theorem Reaches.calls (run : Reaches env s t) : s.calls <+: t.calls := by
  induction run with
  | refl => exact List.prefix_refl _
  | tail _ next ih => exact ih.trans (step_calls next)

/-- The first call that a run makes, with the state that the function is entered in. -/
def Calls (env : Env Label Callee) (s : Config Label Callee) (f : Callee) (entry : Cpu) : Prop :=
  ∃ rest, Reaches env s ⟨env.callee f entry, rest, s.calls ++ [(f, entry)]⟩

/-- As the machine is deterministic, there is one at most. -/
theorem Calls.unique {f f' : Callee} {entry entry' : Cpu} (first : Calls env s f entry)
    (other : Calls env s f' entry') : f = f' ∧ entry = entry' := by
  obtain ⟨rest, hfirst⟩ := first
  obtain ⟨rest', hother⟩ := other
  have functional : Relator.RightUnique fun s t : Config Label Callee => step env s = some t :=
    fun _ _ _ h h' => Option.some.inj (h.symm.trans h')
  have hlogs : s.calls ++ [(f, entry)] = s.calls ++ [(f', entry')] := by
    rcases Relation.ReflTransGen.total_of_right_unique functional hfirst hother with h | h
    · exact (Reaches.calls h).eq_of_length (by simp)
    · exact ((Reaches.calls h).eq_of_length (by simp)).symm
  exact Prod.mk.inj (List.cons.inj (List.append_cancel_left hlogs)).1

section Steps

variable {c : Cpu} {rest : List (Instr Label Callee)} {calls : List (Callee × Cpu)}

theorem Reaches.ops {os : List Op} (next : Reaches env ⟨os.foldl exec c, rest, calls⟩ u) :
    Reaches env ⟨c, .ops os :: rest, calls⟩ u := next.head rfl

theorem Reaches.jcc {cond : Cond} {target : Label}
    (next : Reaches env ⟨c, if c.meets cond then codeAt env.program target else rest, calls⟩ u) :
    Reaches env ⟨c, .jcc cond target :: rest, calls⟩ u := next.head rfl

theorem Reaches.taken {cond : Cond} {target : Label} (met : c.meets cond = true)
    (next : Reaches env ⟨c, codeAt env.program target, calls⟩ u) :
    Reaches env ⟨c, .jcc cond target :: rest, calls⟩ u := by
  apply Reaches.jcc
  rw [if_pos met]
  exact next

theorem Reaches.passed {cond : Cond} {target : Label} (unmet : c.meets cond = false)
    (next : Reaches env ⟨c, rest, calls⟩ u) :
    Reaches env ⟨c, .jcc cond target :: rest, calls⟩ u := by
  apply Reaches.jcc
  rw [unmet, if_neg Bool.false_ne_true]
  exact next

theorem Reaches.jmp {target : Label}
    (next : Reaches env ⟨c, codeAt env.program target, calls⟩ u) :
    Reaches env ⟨c, .jmp target :: rest, calls⟩ u := next.head rfl

theorem Reaches.jmpTable {table : List Label} {index : Reg} {target : Label}
    (entry : table[(c.reg index).toNat]? = some target)
    (next : Reaches env ⟨c, codeAt env.program target, calls⟩ u) :
    Reaches env ⟨c, .jmpTable table index :: rest, calls⟩ u := by
  apply next.head
  simp only [step, entry, Option.map_some]

theorem Reaches.call {f : Callee}
    (next : Reaches env ⟨env.callee f (c.push (env.address rest)), rest,
      calls ++ [(f, c.push (env.address rest))]⟩ u) :
    Reaches env ⟨c, .call f :: rest, calls⟩ u := next.head rfl

end Steps

/-- The rule for a loop: its turns count down, and where no turn is left to make, it has come to
its exit. -/
theorem Reaches.loop {Inv : Nat → Config Label Callee → Prop} {Exit : Config Label Callee → Prop}
    (turn : ∀ n s, Inv n s → (∃ t, Reaches env s t ∧ Exit t) ∨
      ∃ m < n, ∃ t, Reaches env s t ∧ Inv m t) {n : Nat} (start : Inv n s) :
    ∃ t, Reaches env s t ∧ Exit t := by
  induction n using Nat.strong_induction_on generalizing s with
  | _ n ih =>
    rcases turn n s start with hexit | ⟨m, hm, t, hturn, hnext⟩
    · exact hexit
    · obtain ⟨u, hrest, hexit⟩ := ih m hm hnext
      exact ⟨u, hturn.trans hrest, hexit⟩

end Runs

end X86
