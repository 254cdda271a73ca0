import Mp3Kernel.Kernel.UserStubs
import Mp3Kernel.Laws.Linkage
import Mp3Kernel.Laws.Wrappers

/-!
# System calls from end to end

From a user program's call of a stub to the C handler in the kernel and back: the stub puts the
arguments into registers, the gate changes the stack, `system_call` pushes them for the handler,
and each of the three undoes what it did. A user's stack is left alone by all of them, as it is
not the one that they push on.
-/

namespace Mp3Kernel

open X86

/-! ## Into the kernel -/

theorem savesRegisters_grown (c : Cpu) :
    Grown c (savedWords c) (savesRegisters.foldl exec c) := by
  have hflags : Grown c [c.eflags] (exec c .pushfl) := (Grown.refl c).push (by decide) c.eflags
  have hebx := hflags.pushl (by simp) (r := .ebx) (by decide)
  have hecx := hebx.pushl (by simp) (r := .ecx) (by decide)
  have hedx := hecx.pushl (by simp) (r := .edx) (by decide)
  have hebp := hedx.pushl (by simp) (r := .ebp) (by decide)
  have hesp := hebp.pushEsp (by simp)
  have hesi := hesp.pushl (by simp) (r := .esi) (by decide)
  exact hesi.pushl (by simp) (by decide)

section Calls

variable (callee : Handler → Cpu → Cpu) (address : List (Instr WrapLabel Handler) → Word)

/-- For a call number in range, the handler of the number is called; all that has been stored by
then are the words on the stack, and of the registers only `eax` has changed. -/
theorem systemCall_calls (c : Cpu) (valid : CallNumber (c.reg .eax)) :
    ∃ h entry ret rest, handlers[(c.reg .eax).toInt.toNat - 1]? = some h ∧
      Grown (c.set .eax (c.reg .eax - 1))
        (ret :: ([c.reg .ebx, c.reg .ecx, c.reg .edx] ++ savedWords c)) entry ∧
      Reaches (wrapEnv callee address) (systemCall c)
        ⟨callee h entry, .jmp .done :: rest, [(h, entry)]⟩ := by
  let c₁ := savesRegisters.foldl exec c
  let c₂ := exec c₁ (.cmpl (.imm 1) .eax)
  let c₃ := exec c₂ (.cmpl (.imm 10) .eax)
  let c₄ := exec (exec (exec c₃ (.pushl .edx)) (.pushl .ecx)) (.pushl .ebx)
  let c₅ := exec c₄ (.decl .eax)
  have hsaved : Grown c (savedWords c) c₁ := savesRegisters_grown c
  have hlow : c₂.meets .l = false := by
    have hcmp : c₂.meets .l = decide ((c₁.reg .eax).toInt < 1) := cmpl_l c₁ (.imm 1) .eax
    rw [hcmp, hsaved.reg .eax (by decide), decide_eq_false (by have := valid.1; omega)]
  have hhigh : c₃.meets .g = false := by
    have hcmp : c₃.meets .g = decide (10 < (c₂.reg .eax).toInt) := cmpl_g c₂ (.imm 10) .eax
    rw [hcmp]
    show decide (10 < (c₁.reg .eax).toInt) = false
    rw [hsaved.reg .eax (by decide), decide_eq_false (by have := valid.2; omega)]
  have htested : Grown c (savedWords c) c₃ := (hsaved.status _ _).status _ _
  have hpushed : Grown c ([c.reg .ebx, c.reg .ecx, c.reg .edx] ++ savedWords c) c₄ :=
    ((htested.pushl (by simp [savedWords]) (by decide)).pushl (by simp [savedWords])
      (by decide)).pushl (by simp [savedWords]) (by decide)
  have heax : c₅.reg .eax = c.reg .eax - 1 := by
    rw [decl_reg, Cpu.set_self, hpushed.reg .eax (by decide)]
  have hcounted : Grown (c.set .eax (c.reg .eax - 1))
      ([c.reg .ebx, c.reg .ecx, c.reg .edx] ++ savedWords c) c₅ := by
    have hset := (hpushed.set (r := .eax) (by decide) (c₄.reg .eax - 1)).status
      (c₄.reg .eax - 1) ((c₄.reg .eax).ssubOverflow 1)
    rwa [hpushed.reg .eax (by decide)] at hset
  obtain ⟨hindex, hi⟩ := valid.toNat
  obtain ⟨label, h, rest, hlabel, hhandler, hcode⟩ := jumpTable_calls hi
  let ret := address (.jmp .done :: rest)
  refine ⟨h, c₅.push ret, ret, rest, hhandler, hcounted.push (by simp [savedWords]) ret, ?_⟩
  have htext : codeAt systemCallWrap .systemCall =
      .ops (savesRegisters ++ [.cmpl (.imm 1) .eax]) :: .jcc .l .retInvalid ::
        .ops [.cmpl (.imm 10) .eax] :: .jcc .g .retInvalid :: dispatch := rfl
  have hentry : jumpTable[(c₅.reg .eax).toNat]? = some label := by
    rw [heax, hindex]
    exact hlabel
  unfold systemCall
  rw [htext]
  apply Reaches.ops
  rw [List.foldl_append]
  apply Reaches.passed hlow
  apply Reaches.ops
  apply Reaches.passed hhigh
  apply Reaches.ops
  apply Reaches.jmpTable hentry
  show Reaches _ ⟨_, codeAt systemCallWrap label, _⟩ _
  rw [hcode]
  exact Reaches.call Reaches.refl

/-- What `done` leaves, where the eight words lie that were saved. -/
def afterDone (c : Cpu) : Cpu := restoresRegisters.foldl exec (exec c (.addl (.imm 12) .esp))

theorem done_runs (c : Cpu) (calls : List (Handler × Cpu)) :
    Reaches (wrapEnv callee address) ⟨c, codeAt systemCallWrap .done, calls⟩
      ⟨afterDone c, [.iret], calls⟩ := by
  have hcode : codeAt systemCallWrap .done =
      [.ops (.addl (.imm 12) .esp :: restoresRegisters), .iret] := rfl
  rw [hcode]
  apply Reaches.ops
  rw [List.foldl_cons]
  exact Reaches.refl

/-- The registers and the flags are back, and memory is as the handler left it. -/
theorem afterDone_restores {c c' : Cpu} (esp : c'.reg .esp = c.reg .esp - 44)
    (held : Holds c'.mem (c'.reg .esp + 12) (savedWords c)) :
    (∀ r, r ≠ .eax → (afterDone c').reg r = c.reg r) ∧ (afterDone c').reg .eax = c'.reg .eax ∧
      (afterDone c').eflags = c.eflags ∧ (afterDone c').mem = c'.mem := by
  let dropped := exec c' (.addl (.imm 12) .esp)
  have hesp : dropped.reg .esp = c'.reg .esp + 12 := by
    rw [addl_reg, Cpu.set_self]
    rfl
  have hstacked : dropped.Stacked (savedWords c) := by
    unfold Cpu.Stacked
    rw [hesp]
    exact held
  have hown : dropped.reg .esp = c.reg .esp - 32 := by
    rw [hesp, esp]
    grind
  obtain ⟨heflags, hreg, heax⟩ := restoresRegisters_restores hstacked hown
  refine ⟨hreg, heax.trans ?_, heflags, rfl⟩
  rw [addl_reg, Cpu.set_of_ne _ _ (by decide)]

end Calls

/-! ## The stub -/

section Stub

variable {c : Cpu} {m : Machine} {number ret a₁ a₂ a₃ : Word} (next : Word)

/-- A stub saves `ebx` and loads the call number and three words: its arguments, and for the
stubs with fewer of them what lies above. -/
theorem doCall_loads (args : c.Stacked [ret, a₁, a₂, a₃]) (number : Word) :
    (doCall number).foldl execFrame c =
      ((((c.push (c.reg .ebx)).set .eax number).set .ebx a₁).set .ecx a₂).set .edx a₃ := by
  let p := c.push (c.reg .ebx)
  have hstacked : p.Stacked [c.reg .ebx, ret, a₁, a₂, a₃] := args.push (by simp) _
  have hat : ∀ i, Holds p.mem
      (p.reg .esp + BitVec.ofNat 32 (4 * ([c.reg .ebx, ret, a₁, a₂, a₃].take i).length))
      ([c.reg .ebx, ret, a₁, a₂, a₃].drop i) := by
    intro i
    apply Holds.of_append
    rw [List.take_append_drop]
    exact hstacked
  have h₁ : load32 p.mem (p.reg .esp + 8) = a₁ := (hat 2).1
  have h₂ : load32 p.mem (p.reg .esp + 12) = a₂ := (hat 3).1
  have h₃ : load32 p.mem (p.reg .esp + 16) = a₃ := (hat 4).1
  let p₁ := p.set .eax number
  have hp₁ : p₁.reg .esp = p.reg .esp := Cpu.set_of_ne _ _ (by decide)
  let p₂ := p₁.set .ebx a₁
  have hp₂ : p₂.reg .esp = p.reg .esp := (Cpu.set_of_ne _ _ (by decide)).trans hp₁
  let p₃ := p₂.set .ecx a₂
  have hp₃ : p₃.reg .esp = p.reg .esp := (Cpu.set_of_ne _ _ (by decide)).trans hp₂
  have hebx : execFrame p₁ (.loadl 8 .esp .ebx) = p₂ := by
    show p₁.set .ebx (load32 p.mem (p₁.reg .esp + 8)) = _
    rw [hp₁, h₁]
  have hecx : execFrame p₂ (.loadl 12 .esp .ecx) = p₃ := by
    show p₂.set .ecx (load32 p.mem (p₂.reg .esp + 12)) = _
    rw [hp₂, h₂]
  have hedx : execFrame p₃ (.loadl 16 .esp .edx) = p₃.set .edx a₃ := by
    show p₃.set .edx (load32 p.mem (p₃.reg .esp + 16)) = _
    rw [hp₃, h₃]
  have hstart : execFrame (execFrame c (.op (.pushl .ebx))) (.op (.movl (.imm number) .eax)) = p₁ :=
    rfl
  simp only [doCall, List.foldl_cons, List.foldl_nil]
  rw [hstart, hebx, hecx, hedx]

theorem stubs_numbers {h : Handler} (stub : (number, h) ∈ stubs) :
    CallNumber number ∧ handlers[number.toInt.toNat - 1]? = some h := by
  have hall : ∀ s ∈ stubs, CallNumber s.1 ∧ handlers[s.1.toInt.toNat - 1]? = some s.2 := by
    decide
  exact hall (number, h) stub

/-- `int $0x80` is let through at every level. -/
theorem Entrance.entered_eq (e : Entrance) (m : Machine) :
    e.entered m = some (m.enter (gateTo e.address .systemCall) e.inner []) := by
  obtain ⟨d, hentry, hoffset⟩ := idtInit_entry e.address e.idt (v := systemCallVector) (by decide)
  have hlevel : level m.cs < 4 := Nat.mod_lt _ (by decide)
  have hgate : gateOf (idtInit e.address e.idt systemCallVector).word (some (level m.cs)) =
      some (gateTo e.address .systemCall) := by
    rw [hentry, gateOf_initEntry, hoffset, if_pos]
    · rfl
    · rintro cpl hcpl
      obtain rfl := Option.mem_some_iff.mp hcpl
      rw [if_pos rfl]
      omega
  rw [entered, interrupt, hgate, Option.map_some]

/-- The registers at `int $0x80`. -/
theorem atInt_regs (args : m.cpu.Stacked [ret, a₁, a₂, a₃]) :
    (atInt number next m).cpu.reg .eax = number ∧ (atInt number next m).cpu.reg .ebx = a₁ ∧
      (atInt number next m).cpu.reg .ecx = a₂ ∧ (atInt number next m).cpu.reg .edx = a₃ ∧
      (∀ r, r = .esi ∨ r = .edi ∨ r = .ebp → (atInt number next m).cpu.reg r = m.cpu.reg r) ∧
      (atInt number next m).cpu.reg .esp = m.cpu.reg .esp - 4 ∧
      (atInt number next m).cpu.eflags = m.cpu.eflags ∧
      (atInt number next m).cpu.mem = (m.cpu.push (m.cpu.reg .ebx)).mem := by
  have hcpu : (atInt number next m).cpu = _ := doCall_loads args number
  rw [hcpu]
  refine ⟨rfl, rfl, rfl, rfl, ?_, rfl, rfl, rfl⟩
  rintro r (rfl | rfl | rfl) <;> rfl

/-- A stub gets into the kernel, and its handler is entered there with the arguments; all that has
been stored since `int $0x80` are words below the process's stack in the kernel. -/
theorem stub_enters (e : Entrance) {h : Handler} (stub : (number, h) ∈ stubs)
    (args : m.cpu.Stacked [ret, a₁, a₂, a₃]) :
    ∃ entered back rest entry, e.entered (atInt number next m) = some entered ∧
      entered = (atInt number next m).enter (gateTo e.address .systemCall) e.inner [] ∧
      Reaches (wrapEnv e.callee e.back) (systemCall entered.cpu)
        ⟨e.callee h entry, .jmp .done :: rest, [(h, entry)]⟩ ∧
      Grown (entered.cpu.set .eax (entered.cpu.reg .eax - 1))
        (back :: ([a₁, a₂, a₃] ++ savedWords entered.cpu)) entry := by
  obtain ⟨heax, hebx, hecx, hedx, -⟩ := @atInt_regs m number ret a₁ a₂ a₃ next args
  let entered := (atInt number next m).enter (gateTo e.address .systemCall) e.inner []
  have hreg : ∀ r, r ≠ .esp → entered.cpu.reg r = (atInt number next m).cpu.reg r :=
    fun r hr => Machine.enter_reg (Nat.zero_le _) hr
  have hnumber : entered.cpu.reg .eax = number := (hreg .eax (by decide)).trans heax
  obtain ⟨hvalid, hhandler⟩ := stubs_numbers stub
  obtain ⟨h', entry, back, rest, hcalled, hgrown, hreaches⟩ :=
    systemCall_calls e.callee e.back entered.cpu (by rw [hnumber]; exact hvalid)
  rw [hnumber, hhandler] at hcalled
  obtain rfl := Option.some.inj hcalled
  rw [hreg .ebx (by decide), hebx, hreg .ecx (by decide), hecx, hreg .edx (by decide), hedx]
    at hgrown
  exact ⟨entered, back, rest, entry, e.entered_eq _, rfl, hreaches, hgrown⟩

/-- Whatever code calls a stub, the handler for its number is called in the kernel, with the
stub's arguments. -/
theorem stub_calls (e : Entrance) {h : Handler} (stub : (number, h) ∈ stubs)
    (args : m.cpu.Stacked [ret, a₁, a₂, a₃]) :
    ∃ entry, e.Calls (atInt number next m) h entry ∧
      Holds entry.mem (entry.reg .esp + 4) [a₁, a₂, a₃] := by
  obtain ⟨entered, back, rest, entry, hentered, heq, hreaches, hgrown⟩ :=
    stub_enters next e stub args
  obtain ⟨-, h₁, h₂, h₃, -⟩ := hgrown.stacked
  exact ⟨entry, ⟨entered, _, hentered, by rw [heq]; rfl, hreaches⟩, h₁, h₂, h₃, trivial⟩

/-- No other handler is called, and this one in no other state. -/
theorem Entrance.Calls.unique {e : Entrance} {h h' : Handler} {entry entry' : Cpu}
    (first : e.Calls m h entry) (other : e.Calls m h' entry') : h = h' ∧ entry = entry' := by
  obtain ⟨entered, rest, hentered, -, hreaches⟩ := first
  obtain ⟨entered', rest', hentered', -, hreaches'⟩ := other
  obtain rfl := Option.some.inj (hentered.symm.trans hentered')
  have hcalls : X86.Calls (wrapEnv e.callee e.back) (systemCall entered.cpu) h entry :=
    ⟨rest, hreaches⟩
  exact hcalls.unique ⟨rest', hreaches'⟩

/-- The handler that a user program calls is entered on the process's stack in the kernel. -/
theorem called_onStack (e : Entrance) {h : Handler} (stub : (number, h) ∈ stubs)
    (args : m.cpu.Stacked [ret, a₁, a₂, a₃]) (user : level m.cs ≠ 0) {entry : Cpu}
    (called : e.Calls (atInt number next m) h entry) :
    entry.reg .esp = e.inner.esp0 - 68 := by
  obtain ⟨entered, back, rest, entry', hentered, heq, hreaches, hgrown⟩ :=
    stub_enters next e stub args
  have hcalled : e.Calls (atInt number next m) h entry' :=
    ⟨entered, _, hentered, by rw [heq]; rfl, hreaches⟩
  have houter : level (atInt number next m).cs ≠ level (gateTo e.address .systemCall).selector := by
    rwa [gateTo_level]
  rw [(called.unique hcalled).2, hgrown.esp, Cpu.set_of_ne _ _ (by decide), heq,
    Machine.enter_esp houter]
  show e.inner.esp0 - 20 - 48 = _
  grind

/-- What comes back through `iret`: the machine as it was at `int $0x80`, but for `eax`, which is
the handler's, and what the handler did to segments and memory. -/
theorem stub_comesBack (e : Entrance) {h : Handler} (stub : (number, h) ∈ stubs)
    (args : m.cpu.Stacked [ret, a₁, a₂, a₃]) (user : level m.cs ≠ 0)
    (obeys : ∀ entry, e.Calls (atInt number next m) h entry →
      ObeysConvention 3 52 entry (e.callee h entry)) :
    ∃ entry t : Cpu, ∃ u, e.Returns (atInt number next m) [(h, entry)] u ∧
      e.Calls (atInt number next m) h entry ∧ Holds entry.mem (entry.reg .esp + 4) [a₁, a₂, a₃] ∧
      (∀ a : Word, 68 ≤ (a - (e.inner.esp0 - 68)).toNat →
        entry.mem a = (m.cpu.push (m.cpu.reg .ebx)).mem a) ∧
      t.mem = (e.callee h entry).mem ∧ t.reg .eax = (e.callee h entry).reg .eax ∧
      u = { atInt number next m with cpu :=
        { (atInt number next m).cpu.set .eax (t.reg .eax) with seg := t.seg, mem := t.mem } } := by
  let mi := atInt number next m
  let g := gateTo e.address .systemCall
  obtain ⟨_, back, rest, entry, hentered, rfl, hreaches, hgrown⟩ :=
    stub_enters next e stub args
  have hcalled : e.Calls mi h entry := ⟨_, _, hentered, rfl, hreaches⟩
  have hobeys := obeys entry hcalled
  let c := (mi.enter g e.inner []).cpu
  have hframe := trapFrame_length_le g mi
  have hlength : (savedWords c).length = 8 := rfl
  -- every word stored since `int $0x80`, the frame of the interrupt first
  have hall : Grown ((mi.onStack g e.inner).set .eax (c.reg .eax - 1))
      (back :: ([a₁, a₂, a₃] ++ savedWords c) ++ trapFrame g mi) entry := by
    have hentry := @Machine.enter_grown g e.inner mi [] (Nat.zero_le _)
    apply (hentry.set (r := .eax) (by decide) (c.reg .eax - 1)).trans hgrown
    rw [List.length_cons, List.length_append, hlength, List.length_cons, List.length_cons]
    show 4 * (_ + (trapFrame g mi).length) ≤ _
    simp only [List.length_cons, List.length_nil]
    omega
  have hkept : Holds (e.callee h entry).mem ((e.callee h entry).reg .esp + 12)
      (savedWords c ++ trapFrame g mi) := by
    have hstacked : entry.Stacked (back :: ([a₁, a₂, a₃] ++ (savedWords c ++ trapFrame g mi))) := by
      rw [← List.append_assoc]
      exact hall.stacked
    refine ObeysConvention.stacked [a₁, a₂, a₃] _ (hobeys.mono ?_) hstacked
    rw [List.length_append, hlength]
    omega
  have hesp : (e.callee h entry).reg .esp = c.reg .esp - 44 := by
    have hset : (c.set .eax (c.reg .eax - 1)).reg .esp = c.reg .esp := Cpu.set_of_ne _ _ (by decide)
    rw [hobeys.returns, hgrown.esp, hset]
    show c.reg .esp - 48 + 4 = _
    grind
  obtain ⟨hregs, heax, heflags, hmem⟩ := afterDone_restores hesp hkept.left
  let t := afterDone (e.callee h entry)
  have hstacked : t.Stacked (trapFrame g mi) := by
    have hheld := hkept.of_append
    have hback : (e.callee h entry).reg .esp + 12 + BitVec.ofNat 32 (4 * (savedWords c).length) =
        t.reg .esp := by
      rw [hregs .esp (by decide), hesp, hlength]
      show c.reg .esp - 44 + 12 + 32 = _
      grind
    rw [hback] at hheld
    unfold Cpu.Stacked
    rw [hmem]
    exact hheld
  obtain ⟨-, h₁, h₂, h₃, -⟩ := hgrown.stacked
  refine ⟨entry, t, _, ⟨_, t, [], hentered, rfl, ?_, rfl⟩, hcalled, ⟨h₁, h₂, h₃, trivial⟩,
    fun a outside => ?_, hmem, heax, Machine.iret_enter (fun r hr => hregs r hr) hstacked⟩
  · exact hreaches.trans (Reaches.jmp (done_runs e.callee e.back _ _))
  · have hbase : ((mi.onStack g e.inner).set .eax (c.reg .eax - 1)).reg .esp = e.inner.esp0 := by
      have hother : ¬ level mi.cs = level g.selector := by rwa [gateTo_level]
      rw [Cpu.set_of_ne _ _ (by decide), Machine.onStack, if_neg hother, Cpu.set_self]
    have hsame : (mi.onStack g e.inner).mem = mi.cpu.mem := by
      unfold Machine.onStack
      split <;> rfl
    obtain ⟨-, -, -, -, -, -, -, hpushed⟩ := @atInt_regs m number ret a₁ a₂ a₃ next args
    rw [← hpushed, ← hsame]
    apply hall.below (n := 68)
    · rw [List.length_append, List.length_cons, List.length_append, hlength]
      simp only [List.length_cons, List.length_nil]
      omega
    · rw [hbase]
      exact outside

/-- The stubs that come back: `halt_handler` does not return. -/
def returningStubs : List (Word × Handler) := stubs.filter (·.1 ≠ sysHalt)

/-- A user program that calls a stub other than `ece391_halt` gets what the handler returned, as
from a C function: the stub comes back to its caller with the registers that a function keeps, the
flags and the stack as they were. That is so if the handler's call obeys the convention for what
lies on its own stack, and leaves alone the two words that the stub needs on the user's, which is
not where the kernel's is. -/
theorem stub_returns (e : Entrance) {h : Handler} (stub : (number, h) ∈ returningStubs)
    (args : m.cpu.Stacked [ret, a₁, a₂, a₃]) (user : level m.cs ≠ 0)
    (apart : ∀ i < 8,
      68 ≤ (m.cpu.reg .esp - 4 + BitVec.ofNat 32 i - (e.inner.esp0 - 68)).toNat)
    (obeys : ∀ entry, e.Calls (atInt number next m) h entry →
      ObeysConvention 3 52 entry (e.callee h entry))
    (keeps : ∀ entry, e.Calls (atInt number next m) h entry → ∀ i < 8,
      (e.callee h entry).mem (m.cpu.reg .esp - 4 + BitVec.ofNat 32 i) =
        entry.mem (m.cpu.reg .esp - 4 + BitVec.ofNat 32 i)) :
    ∃ entry m', e.Stub number next m [(h, entry)] m' ∧
      Holds entry.mem (entry.reg .esp + 4) [a₁, a₂, a₃] ∧
      m'.cpu.reg .eax = (e.callee h entry).reg .eax ∧
      m'.eip = ret ∧ m'.cs = m.cs ∧ m'.ss = m.ss ∧ m'.cpu.eflags = m.cpu.eflags ∧
      m'.cpu.reg .esp = m.cpu.reg .esp + 4 ∧
      (∀ r, r = .ebx ∨ r = .esi ∨ r = .edi ∨ r = .ebp → m'.cpu.reg r = m.cpu.reg r) ∧
      m'.cpu.mem = (e.callee h entry).mem := by
  obtain ⟨entry, t, u, hreturns, hcalled, hargs, hothers, hmem, heax, hu⟩ :=
    stub_comesBack next e (List.mem_of_mem_filter stub) args user obeys
  obtain ⟨-, -, -, -, hregs, hesp, heflags, -⟩ := @atInt_regs m number ret a₁ a₂ a₃ next args
  have hpushed : (m.cpu.push (m.cpu.reg .ebx)).Stacked [m.cpu.reg .ebx, ret, a₁, a₂, a₃] :=
    Cpu.Stacked.push args (by simp) _
  have hwords : (m.cpu.push (m.cpu.reg .ebx)).Stacked [m.cpu.reg .ebx, ret] :=
    ⟨hpushed.1, hpushed.2.1, trivial⟩
  have huesp : u.cpu.reg .esp = m.cpu.reg .esp - 4 := by
    rw [hu]
    exact (Cpu.set_of_ne (r := .eax) _ (t.reg .eax) (by decide)).trans hesp
  have humem : u.cpu.mem = (e.callee h entry).mem := by
    rw [hu]
    exact hmem
  have hstacked : u.cpu.Stacked [m.cpu.reg .ebx, ret] := by
    unfold Cpu.Stacked
    rw [huesp, humem]
    apply Holds.congr (m := (m.cpu.push (m.cpu.reg .ebx)).mem)
    · rw [← Cpu.push_esp m.cpu (m.cpu.reg .ebx)]
      exact hwords
    · intro i hi
      rw [keeps entry hcalled i hi]
      exact hothers _ (apart i hi)
  obtain ⟨hpop, hrest⟩ := hstacked.popl (r := .ebx) (by decide)
  refine ⟨entry, _, ⟨u, hreturns, by rw [hu]; rfl, rfl⟩, hargs, ?_, ?_, ?_, ?_, ?_, ?_, ?_, humem⟩
  · rw [hu]
    exact heax
  · exact Machine.ret_eip hrest
  · rw [hu]
    rfl
  · rw [hu]
    rfl
  · rw [hu]
    exact heflags
  · have hpopped : (exec u.cpu (.popl .ebx)).reg .esp = m.cpu.reg .esp := by
      rw [hpop, Cpu.set_of_ne _ _ (by decide), Cpu.set_self, huesp]
      exact BitVec.sub_add_cancel ..
    exact (Cpu.set_self ..).trans (congrArg (· + 4) hpopped)
  · intro r hr
    have hne : r ≠ .esp ∧ r ≠ .eax := by rcases hr with rfl | rfl | rfl | rfl <;> decide
    refine (Cpu.set_of_ne (exec u.cpu (.popl .ebx)) _ hne.1).trans ?_
    show (exec u.cpu (.popl .ebx)).reg r = _
    rw [hpop]
    rcases hr with rfl | hr
    · exact Cpu.set_self ..
    · have hother : r ≠ .ebx := by rcases hr with rfl | rfl | rfl <;> decide
      rw [Cpu.set_of_ne _ _ hother, Cpu.set_of_ne _ _ hne.1, hu]
      exact (Cpu.set_of_ne (r := .eax) _ (t.reg .eax) hne.2).trans (hregs r hr)

/-- A kernel whose handlers store their number and return it. -/
def echoKernel : Entrance where
  address := fun _ => 0x400000
  idt := fun _ => ⟨0, 0, 0, 0, 0, 0, 0, 0, 0, 0, 0⟩
  inner := ⟨0x18, 0x7FFFFC⟩
  callee := echoes
  back := fun _ => 0

/-- `runsProgram` calls `ece391_write`. -/
theorem stub_returns_write :
    ∃ entry m', echoKernel.Stub sysWrite 0x8048200 runsProgram [(.writeFd, entry)] m' ∧
      m'.cpu.reg .eax = 4 ∧ m'.eip = 0 ∧ m'.cpu.reg .esp = 0x83FFFF4 := by
  have args : runsProgram.cpu.Stacked [0, 0, 0, 0] := ⟨rfl, rfl, rfl, rfl, trivial⟩
  have hesp : ∀ entry, echoKernel.Calls (atInt sysWrite 0x8048200 runsProgram) .writeFd entry →
      entry.reg .esp = 0x7FFFB8 := fun entry called =>
    called_onStack 0x8048200 echoKernel (by decide) args (by decide) called
  have obeys : ∀ entry, echoKernel.Calls (atInt sysWrite 0x8048200 runsProgram) .writeFd entry →
      ObeysConvention 3 52 entry (echoes .writeFd entry) := by
    intro entry called
    apply echoes_obeys .writeFd (by decide)
    rw [hesp entry called]
    decide
  -- the user's stack is far from the variable and from the argument
  have keeps : ∀ entry, echoKernel.Calls (atInt sysWrite 0x8048200 runsProgram) .writeFd entry →
      ∀ i < 8, (echoes .writeFd entry).mem (0x83FFFF0 - 4 + BitVec.ofNat 32 i) =
        entry.mem (0x83FFFF0 - 4 + BitVec.ofNat 32 i) := by
    intro entry called i hi
    have hargument : ∀ i < 8,
        ¬ ((0x83FFFF0 : Word) - 4 + BitVec.ofNat 32 i - (0x7FFFB8 + 4)).toNat < 4 := by decide
    have hvariable : ∀ i < 8,
        ¬ ((0x83FFFF0 : Word) - 4 + BitVec.ofNat 32 i - lastCall).toNat < 4 := by decide
    rw [← hesp entry called] at hargument
    exact (if_neg (hargument i hi)).trans (if_neg (hvariable i hi))
  obtain ⟨entry, m', hstub, -, heax, heip, -, -, -, hesp, -, -⟩ :=
    stub_returns 0x8048200 echoKernel (by decide) args (by decide) (by decide) obeys keeps
  exact ⟨entry, m', hstub, heax.trans rfl, heip, hesp⟩

end Stub

/-! ## `_start` -/

section Start

variable (callee : StartCallee → Cpu → Cpu) (back : List (Line StartCallee) → Word)

/-- Whatever `main` does, `_start` calls `ece391_halt` with what it returned, and two zeros. -/
theorem start_calls (c : Cpu) :
    ∃ returned entry ret, (runLines callee back start (c, [])).2 =
        [(.main, returned), (.ece391Halt, entry)] ∧
      entry.Stacked [ret, (callee .main returned).reg .eax, 0, 0] := by
  let returned := c.push (back start.tail)
  let c₁ := callee .main returned
  let c₂ := ((c₁.push 0).push 0).push (c₁.reg .eax)
  have hpushed : Grown c₁ [c₁.reg .eax, 0, 0] c₂ :=
    (((Grown.refl c₁).push (by decide) 0).push (by simp) 0).push (by simp) _
  refine ⟨returned, c₂.push (back []), back [], ?_, (hpushed.push (by simp) _).stacked⟩
  rw [start, runLines_call, runLines_ops, runLines_call, runLines_nil]
  rfl

/-- A user program whose `main` returns halts with what it returned: through the stub,
`halt_handler` is called with it. -/
theorem start_halts (e : Entrance) (next : Word) (m : Machine) :
    ∃ returned atHalt entry, (runLines callee back start (m.cpu, [])).2 =
        [(.main, returned), (.ece391Halt, atHalt)] ∧
      e.Calls (atInt sysHalt next { m with cpu := atHalt }) .haltHandler entry ∧
      Holds entry.mem (entry.reg .esp + 4) [(callee .main returned).reg .eax, 0, 0] := by
  obtain ⟨returned, atHalt, ret, hcalls, hstacked⟩ := start_calls callee back m.cpu
  obtain ⟨entry, hcalled, hargs⟩ :=
    @stub_calls { m with cpu := atHalt } sysHalt ret _ 0 0 next e .haltHandler (by decide) hstacked
  exact ⟨returned, atHalt, entry, hcalls, hcalled, hargs⟩

end Start

end Mp3Kernel
