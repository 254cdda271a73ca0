import Mp3Kernel.Kernel.SystemCall

/-!
# System-call linkage

`system_call` saves eight words, the stack pointer among them, and both ways out pop them
again. For a call number in range it also pushes the three arguments and goes through the jump
table; the handler leaves the eight words alone, and the way out drops the arguments first.
-/

namespace Mp3Kernel

open X86

/-- The handlers by their call numbers, from 1. -/
def handlers : List Handler :=
  [.haltHandler, .executeHandler, .readFd, .writeFd, .openFile, .closeFd, .getargsHandler,
    .vidmapHandler, .setHandlerHandler, .sigreturnHandler]

/-- The call numbers there are, as the signed number in a register. -/
def CallNumber (w : Word) : Prop := 1 ≤ w.toInt ∧ w.toInt ≤ 10

instance (w : Word) : Decidable (CallNumber w) := inferInstanceAs (Decidable (_ ∧ _))

/-- The words `system_call` saves, the last one pushed first. -/
def savedWords (c : Cpu) : List Word :=
  [c.reg .edi, c.reg .esi, c.reg .esp - 20, c.reg .ebp, c.reg .edx, c.reg .ecx, c.reg .ebx,
    c.eflags]

section Saving

variable {c c' : Cpu}

theorem savesRegisters_pushed (c : Cpu) :
    Pushed c (savedWords c) (savesRegisters.foldl exec c) := by
  have hflags : Pushed c [c.eflags] (exec c .pushfl) := (Pushed.refl c).push (by decide) c.eflags
  have hebx := hflags.pushl (by simp) (r := .ebx) (by decide)
  have hecx := hebx.pushl (by simp) (r := .ecx) (by decide)
  have hedx := hecx.pushl (by simp) (r := .edx) (by decide)
  have hebp := hedx.pushl (by simp) (r := .ebp) (by decide)
  have hesp := hebp.pushEsp (by simp)
  have hesi := hesp.pushl (by simp) (r := .esi) (by decide)
  exact hesi.pushl (by simp) (by decide)

/-- The eight pops, where the words lie that were saved. -/
theorem restoresRegisters_restores (S : c'.Stacked (savedWords c))
    (own : c'.reg .esp = c.reg .esp - 32) :
    (restoresRegisters.foldl exec c').eflags = c.eflags ∧
      (∀ r, r ≠ .eax → (restoresRegisters.foldl exec c').reg r = c.reg r) ∧
      (restoresRegisters.foldl exec c').reg .eax = c'.reg .eax := by
  have hstart : Popped c [] (savedWords c) c' c' :=
    ⟨fun _ hr => (nomatch hr), fun _ _ _ => rfl, own, S⟩
  have hedi := hstart.popl (by decide)
  have hesi := hedi.popl (by decide)
  have hesp := hesi.popEsp rfl
  have hebp := hesp.popl (by decide)
  have hedx := hebp.popl (by decide)
  have hecx := hedx.popl (by decide)
  have hebx := hecx.popl (by decide)
  obtain ⟨hdone, hflags⟩ := hebx.popfl
  refine ⟨hflags, fun r hr => ?_, hdone.kept .eax (by decide) (by decide)⟩
  by_cases heq : r = .esp
  · rw [heq]
    exact hdone.esp.trans (BitVec.sub_zero _)
  · refine hdone.restored r ?_ heq
    cases r <;> first | decide | contradiction

end Saving

/-! ## The way in -/

section Runs

variable (callee : Handler → Cpu → Cpu) (address : List (Instr WrapLabel Handler) → Word)
  {c c' : Cpu} {calls : List (Handler × Cpu)}

/-- The code after the range test. -/
def dispatch : List (Instr WrapLabel Handler) :=
  .ops [.pushl .edx, .pushl .ecx, .pushl .ebx, .decl .eax] :: .jmpTable jumpTable .eax ::
    codeAt systemCallWrap .sysHalt

/-- A number out of range, on either side, goes to `ret_invalid`, and one in range on to the jump
table; the eight words are saved by then. -/
theorem systemCall_tests (c : Cpu) :
    ∃ c', Pushed c (savedWords c) c' ∧
      Reaches (wrapEnv callee address) (systemCall c)
        ⟨c', if CallNumber (c.reg .eax) then dispatch else codeAt systemCallWrap .retInvalid,
          []⟩ := by
  let c₁ := savesRegisters.foldl exec c
  let c₂ := exec c₁ (.cmpl (.imm 1) .eax)
  let c₃ := exec c₂ (.cmpl (.imm 10) .eax)
  have hsaved : Pushed c (savedWords c) c₁ := savesRegisters_pushed c
  have heax : c₁.reg .eax = c.reg .eax := hsaved.reg .eax (by decide)
  have hlow : c₂.meets .l = decide ((c.reg .eax).toInt < 1) := by
    rw [← heax]
    exact cmpl_l c₁ (.imm 1) .eax
  have hhigh : c₃.meets .g = decide (10 < (c.reg .eax).toInt) := by
    rw [← heax]
    exact cmpl_g c₂ (.imm 10) .eax
  let tested : List (Instr WrapLabel Handler) :=
    .ops [.cmpl (.imm 10) .eax] :: .jcc .g .retInvalid :: dispatch
  have hfirst : Reaches (wrapEnv callee address) (systemCall c)
      ⟨c₂, if c₂.meets .l then codeAt systemCallWrap .retInvalid else tested, []⟩ := by
    have hcode : codeAt systemCallWrap .systemCall =
        .ops (savesRegisters ++ [.cmpl (.imm 1) .eax]) :: .jcc .l .retInvalid :: tested := rfl
    unfold systemCall
    rw [hcode]
    apply Reaches.ops
    rw [List.foldl_append]
    exact Reaches.jcc Reaches.refl
  by_cases hl : (c.reg .eax).toInt < 1
  · have hout : ¬ CallNumber (c.reg .eax) := fun valid => absurd valid.1 (by omega)
    rw [hlow, decide_eq_true hl, if_pos rfl] at hfirst
    refine ⟨c₂, hsaved.cmpl _ _, ?_⟩
    rw [if_neg hout]
    exact hfirst
  · rw [hlow, decide_eq_false hl, if_neg Bool.false_ne_true] at hfirst
    have hsecond : Reaches (wrapEnv callee address) ⟨c₂, tested, []⟩
        ⟨c₃, if c₃.meets .g then codeAt systemCallWrap .retInvalid else dispatch, []⟩ :=
      Reaches.ops (Reaches.jcc Reaches.refl)
    refine ⟨c₃, (hsaved.cmpl _ _).cmpl _ _, hfirst.trans ?_⟩
    by_cases hg : 10 < (c.reg .eax).toInt
    · have hout : ¬ CallNumber (c.reg .eax) := fun valid => absurd valid.2 (by omega)
      rw [hhigh, decide_eq_true hg, if_pos rfl] at hsecond
      rw [if_neg hout]
      exact hsecond
    · have hin : CallNumber (c.reg .eax) := ⟨by omega, by omega⟩
      rw [hhigh, decide_eq_false hg, if_neg Bool.false_ne_true] at hsecond
      rw [if_pos hin]
      exact hsecond

/-! ## The ways out -/

/-- A configuration that has come to `iret` with the registers and the flags of the entry. -/
structure ReturnsFrom (c : Cpu) (t : Config WrapLabel Handler) : Prop where
  atIret : ∃ rest, t.code = .iret :: rest
  eflags : t.cpu.eflags = c.eflags
  reg : ∀ r, r ≠ .eax → t.cpu.reg r = c.reg r

theorem retInvalid_returns (P : Pushed c (savedWords c) c') :
    ∃ t, Reaches (wrapEnv callee address) ⟨c', codeAt systemCallWrap .retInvalid, calls⟩ t ∧
      ReturnsFrom c t ∧ t.calls = calls ∧ t.cpu.reg .eax = -1 := by
  obtain ⟨hflags, hreg, -⟩ := restoresRegisters_restores P.stacked P.esp
  have hcode : codeAt systemCallWrap .retInvalid =
      .ops (restoresRegisters ++ [.movl (.imm (-1)) .eax]) :: .iret ::
        codeAt systemCallWrap .done := rfl
  refine ⟨⟨(restoresRegisters.foldl exec c').set .eax (-1), .iret :: codeAt systemCallWrap .done,
    calls⟩, ?_, ⟨⟨_, rfl⟩, hflags, fun r hr => ?_⟩, rfl, Cpu.set_self ..⟩
  · rw [hcode]
    apply Reaches.ops
    rw [List.foldl_append]
    exact Reaches.refl
  · exact (Cpu.set_of_ne _ _ hr).trans (hreg r hr)

/-- The way out past the three arguments. -/
theorem done_returns (esp : c'.reg .esp = c.reg .esp - 44)
    (held : Holds c'.mem (c'.reg .esp + 12) (savedWords c)) :
    ∃ t, Reaches (wrapEnv callee address) ⟨c', codeAt systemCallWrap .done, calls⟩ t ∧
      ReturnsFrom c t ∧ t.calls = calls ∧ t.cpu.reg .eax = c'.reg .eax := by
  let dropped := exec c' (.addl (.imm 12) .esp)
  have hesp : dropped.reg .esp = c'.reg .esp + 12 := by
    rw [addl_reg, Cpu.set_self]
    rfl
  have hstacked : dropped.Stacked (savedWords c) := by
    unfold Cpu.Stacked
    rw [hesp]
    exact held
  have hown : dropped.reg .esp = c.reg .esp - 32 := by
    rw [hesp, esp]
    grind
  obtain ⟨hflags, hreg, heax⟩ := restoresRegisters_restores hstacked hown
  have hkept : dropped.reg .eax = c'.reg .eax := by
    rw [addl_reg, Cpu.set_of_ne _ _ (by decide)]
  have hcode : codeAt systemCallWrap .done =
      [.ops (.addl (.imm 12) .esp :: restoresRegisters), .iret] := rfl
  refine ⟨⟨restoresRegisters.foldl exec dropped, [.iret], calls⟩, ?_,
    ⟨⟨[], rfl⟩, hflags, hreg⟩, rfl, heax.trans hkept⟩
  rw [hcode]
  apply Reaches.ops
  rw [List.foldl_cons]
  exact Reaches.refl

/-! ## The call -/

/-- A call number's place in the jump table. -/
theorem CallNumber.toNat {w : Word} (valid : CallNumber w) :
    (w - 1).toNat = w.toInt.toNat - 1 ∧ w.toInt.toNat - 1 < 10 := by
  obtain ⟨hlow, hhigh⟩ := valid
  have hw : w.toInt.toNat = w.toNat ∧ 1 ≤ w.toNat := by
    rw [BitVec.toInt_eq_toNat_cond] at hlow hhigh ⊢
    split at hlow <;> omega
  rw [BitVec.toNat_sub]
  have hone : (1 : Word).toNat = 1 := rfl
  omega

/-- Each entry of the jump table calls the handler of its number and jumps to `done`. -/
theorem jumpTable_calls {i : Nat} (hi : i < 10) :
    ∃ label h rest, jumpTable[i]? = some label ∧ handlers[i]? = some h ∧
      codeAt systemCallWrap label = .call h :: .jmp .done :: rest := by
  interval_cases i <;> exact ⟨_, _, _, rfl, rfl, rfl⟩

/-- The handler of a call number in range is called, with the three arguments on the stack above
its return address. -/
theorem dispatch_calls (P : Pushed c (savedWords c) c') (valid : CallNumber (c.reg .eax)) :
    ∃ h entry back rest, handlers[(c.reg .eax).toInt.toNat - 1]? = some h ∧
      entry.Stacked (back :: ([c.reg .ebx, c.reg .ecx, c.reg .edx] ++ savedWords c)) ∧
      entry.reg .esp = c.reg .esp - 48 ∧
      Reaches (wrapEnv callee address) ⟨c', dispatch, []⟩
        ⟨callee h entry, .jmp .done :: rest, [(h, entry)]⟩ := by
  have hedx := P.pushl (by simp [savedWords]) (r := .edx) (by decide)
  have hecx := hedx.pushl (by simp [savedWords]) (r := .ecx) (by decide)
  have hebx := hecx.pushl (by simp [savedWords]) (r := .ebx) (by decide)
  let called := exec (exec (exec (exec c' (.pushl .edx)) (.pushl .ecx)) (.pushl .ebx)) (.decl .eax)
  have heax : called.reg .eax = c.reg .eax - 1 := by
    rw [decl_reg, Cpu.set_self, hebx.reg .eax (by decide)]
  have hesp : called.reg .esp = c.reg .esp - 44 := by
    rw [decl_reg, Cpu.set_of_ne _ _ (by decide)]
    exact hebx.esp
  have hstacked : called.Stacked ([c.reg .ebx, c.reg .ecx, c.reg .edx] ++ savedWords c) := by
    have hsame : called.reg .esp =
        (exec (exec (exec c' (.pushl .edx)) (.pushl .ecx)) (.pushl .ebx)).reg .esp :=
      hesp.trans hebx.esp.symm
    unfold Cpu.Stacked
    rw [hsame]
    exact hebx.stacked
  obtain ⟨hindex, hi⟩ := valid.toNat
  obtain ⟨label, h, rest, hlabel, hhandler, hcode⟩ := jumpTable_calls hi
  let back := address (.jmp .done :: rest)
  refine ⟨h, called.push back, back, rest, hhandler,
    hstacked.push (by simp [savedWords]) back, ?_, ?_⟩
  · rw [Cpu.push_esp, hesp]
    grind
  · have hentry : jumpTable[(called.reg .eax).toNat]? = some label := by
      rw [heax, hindex]
      exact hlabel
    apply Reaches.ops
    apply Reaches.jmpTable hentry
    show Reaches _ ⟨_, codeAt systemCallWrap label, _⟩ _
    rw [hcode]
    exact Reaches.call Reaches.refl

/-- The handler that is called is entered below the arguments and the words saved. -/
theorem called_esp {h : Handler} {entry : Cpu} (valid : CallNumber (c.reg .eax))
    (called : Calls (wrapEnv callee address) (systemCall c) h entry) :
    entry.reg .esp = c.reg .esp - 48 := by
  obtain ⟨c', P, hin⟩ := systemCall_tests callee address c
  rw [if_pos valid] at hin
  obtain ⟨h', entry', back, rest, -, -, hesp, hcall⟩ := dispatch_calls callee address P valid
  have hcalled : Calls (wrapEnv callee address) (systemCall c) h' entry' := ⟨_, hin.trans hcall⟩
  rw [(called.unique hcalled).2]
  exact hesp

/-- Whatever the registers, the flags and the stack on entry, and whatever the handler does that
is called, as long as that call obeys the C convention, `system_call` comes to `iret` with the
stack pointer, the flags and all registers but `eax` as they were; `eax` holds what the handler of
its number returned, called with `ebx`, `ecx` and `edx`, or -1, with no handler called, if there
is none. -/
theorem systemCall_linkage {callee : Handler → Cpu → Cpu}
    {address : List (Instr WrapLabel Handler) → Word} {c : Cpu}
    (obeys : ∀ h entry, Calls (wrapEnv callee address) (systemCall c) h entry →
      ObeysConvention 3 32 entry (callee h entry)) :
    ∃ t, Reaches (wrapEnv callee address) (systemCall c) t ∧ ReturnsFrom c t ∧
      (CallNumber (c.reg .eax) →
        ∃ h entry, handlers[(c.reg .eax).toInt.toNat - 1]? = some h ∧ t.calls = [(h, entry)] ∧
          Holds entry.mem (entry.reg .esp + 4) [c.reg .ebx, c.reg .ecx, c.reg .edx] ∧
          t.cpu.reg .eax = (callee h entry).reg .eax) ∧
      (¬ CallNumber (c.reg .eax) → t.calls = [] ∧ t.cpu.reg .eax = -1) := by
  obtain ⟨c', P, hin⟩ := systemCall_tests callee address c
  by_cases valid : CallNumber (c.reg .eax)
  · rw [if_pos valid] at hin
    obtain ⟨h, entry, back, rest, hhandler, hstacked, hesp, hcall⟩ :=
      dispatch_calls callee address P valid
    have hobeys := obeys h entry ⟨_, hin.trans hcall⟩
    have hleft : Holds (callee h entry).mem ((callee h entry).reg .esp + 12) (savedWords c) :=
      ObeysConvention.stacked [c.reg .ebx, c.reg .ecx, c.reg .edx] (savedWords c) hobeys hstacked
    have hreturned : (callee h entry).reg .esp = c.reg .esp - 44 := by
      rw [hobeys.returns, hesp]
      grind
    obtain ⟨t, hout, hreturns, hcalls, heax⟩ := done_returns callee address hreturned hleft
    refine ⟨t, (hin.trans hcall).trans (Reaches.jmp hout), hreturns, fun _ => ?_,
      fun invalid => absurd valid invalid⟩
    obtain ⟨hebx, hecx, hedx, -⟩ := hstacked.2
    exact ⟨h, entry, hhandler, hcalls, ⟨hebx, hecx, hedx, trivial⟩, heax⟩
  · rw [if_neg valid] at hin
    obtain ⟨t, hout, hreturns, hcalls, heax⟩ := retInvalid_returns callee address P
    exact ⟨t, hin.trans hout, hreturns, fun h => absurd h valid, fun _ => ⟨hcalls, heax⟩⟩

/-- A variable in the kernel's page. -/
def lastCall : Word := 0x410000

/-- Handlers that return their own number, and store it in a variable and over their first
argument. -/
def echoes (h : Handler) (c : Cpu) : Cpu :=
  let number := BitVec.ofNat 32 (handlers.idxOf h + 1)
  { (c.set .esp (c.reg .esp + 4)).set .eax number with
    mem := store32 (store32 c.mem lastCall number) (c.reg .esp + 4) number }

/-- They obey the convention where the frame of their caller does not lie over the variable. -/
theorem echoes_obeys (h : Handler) {frame : Nat} (room : frame ≤ 64)
    (apart : ∀ i < frame, 4 ≤ (c.reg .esp + 16 + BitVec.ofNat 32 i - lastCall).toNat) :
    ObeysConvention 3 frame c (echoes h c) where
  saved := by
    rintro r (rfl | rfl | rfl | rfl) <;> rfl
  returns := rfl
  frame := by
    intro i hi
    have hargument : c.reg .esp + 16 + BitVec.ofNat 32 i - (c.reg .esp + 4) =
        BitVec.ofNat 32 (12 + i) := by
      rw [BitVec.ofNat_add]
      grind
    have hpast : ¬ (c.reg .esp + 16 + BitVec.ofNat 32 i - (c.reg .esp + 4)).toNat < 4 := by
      rw [hargument, BitVec.toNat_ofNat]
      omega
    exact (if_neg hpast).trans (if_neg (not_lt.mpr (apart i hi)))

/-- A program that asks for call number 6. -/
def asksClose : Cpu where
  reg := Function.update (Function.update (fun _ => 0) .eax 6) .esp 0x800000
  seg := fun _ => 0x18
  eflags := 0x202
  mem := fun _ => 0

/-- It gets `close`. -/
theorem systemCall_linkage_close :
    ∃ t entry, Reaches (wrapEnv echoes fun _ => 0) (systemCall asksClose) t ∧
      t.calls = [(.closeFd, entry)] ∧ t.cpu.reg .eax = 6 ∧ t.cpu.reg .esp = 0x800000 := by
  have obeys : ∀ h entry, Calls (wrapEnv echoes fun _ => 0) (systemCall asksClose) h entry →
      ObeysConvention 3 32 entry (echoes h entry) := by
    intro h entry called
    have hesp : entry.reg .esp = 0x7FFFD0 := called_esp echoes (fun _ => 0) (by decide) called
    apply echoes_obeys h (by decide)
    rw [hesp]
    decide
  obtain ⟨t, hreaches, hreturns, hcall, -⟩ := systemCall_linkage obeys
  obtain ⟨h, entry, hhandler, hcalls, -, heax⟩ := hcall (by decide)
  obtain rfl : .closeFd = h := Option.some.inj hhandler
  exact ⟨t, entry, hreaches, hcalls, heax.trans rfl, hreturns.reg .esp (by decide)⟩

end Runs

end Mp3Kernel
