import Mp3Kernel.Laws.Calls
import Mp3Kernel.Laws.Isolation
import Mp3Kernel.Laws.TextPage

/-!
# A failed execute

`execute_handler` claims its pid before it has looked at the command, so each of its error
exits gives the slot back. What it has done besides is a lookup: that moves the file system's
globals and may print a message, on the page the kernel's own table maps at `0xB8000`, which
is never in a user frame.
-/

namespace Mp3Kernel

/-- The kernel's page table leads below 8 MB, where the user frames begin. -/
def Mmu.KernelLow (m : Mmu) : Prop := ∀ i < 1024, (m.pageTable i).pageBaseAddr < 2048

/-- What the process code relies on: the terminal driver leaves the page tables as they
were. -/
structure TerminalDriver.KeepsPages (term : TerminalDriver) : Prop where
  read : ∀ buf nbytes k, (term.terminalRead buf nbytes k).1.mmu = k.mmu
  write : ∀ buf nbytes k, (term.terminalWrite buf nbytes k).1.mmu = k.mmu

/-! ## The kernel's page table -/

namespace Mmu

variable {m : Mmu}

/-- A kernel address is not in a user frame. -/
theorem KernelLow.kernelAddr_lt (h : m.KernelLow) (va : Int) : m.kernelAddr va < 8388608 := by
  have hframe : (m.pageTable (ptIndex va.toNat)).pageBaseAddr < 2048 :=
    h _ (Nat.mod_lt _ (by decide))
  unfold kernelAddr
  omega

theorem KernelLow.congr {m' : Mmu} (h : m.KernelLow) (table : m'.pageTable = m.pageTable) :
    m'.KernelLow := by
  unfold KernelLow
  rwa [table]

theorem KernelLow.switchTermVim (h : m.KernelLow) (flag visTerm exeTerm : Int) :
    (m.switchTermVim flag visTerm exeTerm).KernelLow := by
  have hframe := termFrame_text visTerm exeTerm
  have hshown : (m.showUserPage flag).pageTable = m.pageTable := by
    unfold showUserPage
    split <;> rfl
  have htable : (m.switchTermVim flag visTerm exeTerm).pageTable =
      Function.update m.pageTable (m.showUserPage flag).vimPtIdx
        { m.pageTable (m.showUserPage flag).vimPtIdx with
          pageBaseAddr := termFrame visTerm exeTerm } := by
    unfold Mmu.switchTermVim
    dsimp only
    rw [hshown]
    split <;> rfl
  intro i hi
  rw [htable]
  by_cases hidx : i = (m.showUserPage flag).vimPtIdx
  · subst hidx
    rw [Function.update_self]
    obtain ⟨_, hlt⟩ := hframe
    exact Nat.lt_trans hlt (by decide)
  · rw [Function.update_of_ne hidx]
    exact h i hi

theorem kernelLow_pagingInit (m : Mmu) : m.pagingInit.KernelLow := by
  intro i hi
  unfold pagingInit
  dsimp only
  split
  · decide
  · split
    · decide
    · split
      · decide
      · split
        · decide
        · decide

end Mmu

section Runs

variable {img : FsImage} {term : TerminalDriver} {k k' : Kernel}

theorem TerminalDriver.KeepsPages.spared (keeps : term.KeepsPages) : Spared term Kernel.mmu :=
  ⟨fun _ _ => rfl, fun _ _ => rfl, fun _ _ => rfl, fun s k => k.printfPlain_mmu s, keeps.read,
    keeps.write⟩

/-- What one call preserves. -/
theorem Mmu.KernelLow.call (L : k.mmu.KernelLow) (T : Proc.Table k.proc) (keeps : term.KeepsPages)
    {e : ProcEvent ⊕ FdEvent} (h : sysStep img term e k = some k') : k'.mmu.KernelLow := by
  cases e with
  | inr e =>
    rw [sysStep_fd h, keeps.spared.fdStep]
    exact L
  | inl e =>
    cases procStep_some h with
    | noShell _ hsame | noChild _ hsame => exact L.congr (by rw [hsame.mmu])
    | shell _ hstarted | child _ hstarted => exact L.congr (by rw [hstarted.mmu]; rfl)
    | restarted hnew =>
      obtain ⟨_, hstarted⟩ := hnew.started
      exact L.congr (by rw [hstarted.mmu]; rfl)
    | stray hstray => exact absurd hstray T.not_stray
    | returned hback =>
      refine L.congr ?_
      rw [hback.handed.mmu]
      split <;> rfl
    | notMapped _ hsame => rwa [hsame]
    | mapped _ hmapped => exact L.congr (by rw [hmapped.mmu]; rfl)
    | unmapped hsame => exact L.congr (by rw [hsame]; rfl)
    | remapped hsame | switched hsame =>
      rw [hsame]
      exact L.switchTermVim _ _ _
    | @scheduled pid _ _ _ hsame =>
      have hpage : (k.mmu.setPage pid).KernelLow := L.congr rfl
      rw [hsame]
      exact hpage.switchTermVim _ _ _

/-- The page table over whole runs of calls. -/
theorem kernelLow_of_calls (keepsProc : term.KeepsProcesses) (keepsPages : term.KeepsPages)
    {frame : Frame} {k₀ k₁ : Kernel} {eip esp : Nat} (boot : Booted k₀)
    (first : initShell img frame k₀ = some (k₁, .iret eip esp))
    (run : Runs.Reach (sysStep img term) callsLeaf k₁ k) : k.mmu.KernelLow := by
  have hstart : k₁.mmu.KernelLow := by
    obtain ⟨m, _, hmmu⟩ := boot.paging
    rcases initShell_some first with ⟨_, hexit, _⟩ | ⟨_, pid, _, _, hstarted⟩
    · cases hexit
    · refine m.kernelLow_pagingInit.congr ?_
      rw [hstarted.mmu, hmmu]
      rfl
  exact (run.invariant (fun k => Proc.Table k.proc ∧ k.mmu.KernelLow)
    ⟨boot.table first, hstart⟩ fun _ _ _ ⟨T, L⟩ ok h =>
      ⟨T.call keepsProc ok h, L.call T keepsPages h⟩).2

/-! ## The call -/

/-- A refused call writes to memory only through the page at `0xB8000`. -/
theorem executeHandler_elsewhere {frame : Frame} {command : Option (List UInt8)} {eax : Int}
    {a : Nat} (h : ∀ off, k.pageAt videoAddr off ≠ a)
    (failed : executeHandler img frame command k = some (k', .ret eax)) : k'.mem a = k.mem a := by
  unfold executeHandler at failed
  split at failed
  next =>
    obtain ⟨rfl, _⟩ := Prod.mk.inj (Option.some.inj failed)
    rfl
  next command =>
    dsimp only at failed
    split at failed
    next =>
      obtain ⟨rfl, _⟩ := Prod.mk.inj (Option.some.inj failed)
      rfl
    next pid _ =>
      have hlookup := readDentryByName_elsewhere (k := k.setId pid 1) h img
        (cstr (parseCommand command).1)
      split at failed
      next => cases failed
      next =>
        split at failed
        next =>
          obtain ⟨rfl, _⟩ := Prod.mk.inj (Option.some.inj failed)
          exact hlookup
        next =>
          rcases startProgram_some failed with ⟨_, _, rfl⟩ | ⟨_, _, _, hexit, _⟩
          · exact hlookup
          · cases hexit

/-- In every state a run of calls reaches, an `execute` that returns -1 leaves the process
globals, every PCB, the TSS, the page tables and every user frame as they were. -/
theorem failedExecute_changes_nothing (keepsProc : term.KeepsProcesses)
    (keepsPages : term.KeepsPages) {frame : Frame} {k₀ k₁ : Kernel} {eip esp : Nat}
    (boot : Booted k₀) (first : initShell img frame k₀ = some (k₁, .iret eip esp))
    (run : Runs.Reach (sysStep img term) callsLeaf k₁ k) {frame' : Frame}
    {command : Option (List UInt8)}
    (failed : executeHandler img frame' command k = some (k', .ret (-1))) :
    k'.proc = k.proc ∧ k'.mmu = k.mmu ∧
      ∀ pid, ValidPid pid → ∀ a, FrameAddr pid a → k'.mem a = k.mem a := by
  have L := kernelLow_of_calls keepsProc keepsPages boot first run
  rcases executeHandler_some failed with ⟨_, _, hsame⟩ | ⟨_, _, _, hexit, _⟩
  · refine ⟨hsame.proc, hsame.mmu, fun pid hpid a ha => ?_⟩
    refine executeHandler_elsewhere (fun off => ?_) failed
    have hlow : k.pageAt videoAddr off < 8388608 := L.kernelAddr_lt _
    obtain ⟨lo, _⟩ := hpid
    obtain ⟨hframe, _⟩ := ha
    omega
  · cases hexit

/-- The first shell asks for a program that is not there. -/
theorem failedExecute_changes_nothing_unknown :
    ∃ k₁ k', initShell shellImage zeroFrame coldBoot = some (k₁, .iret 0x08048018 newUserBottom) ∧
      executeHandler shellImage zeroFrame (some (bytes "cat a")) k₁ = some (k', .ret (-1)) ∧
      k'.proc = k₁.proc ∧ k'.mmu = k₁.mmu :=
  ⟨_, _, rfl, rfl,
    have h := @failedExecute_changes_nothing shellImage quietTerminal _ _ quietTerminal_keeps
      ⟨fun _ _ _ => rfl, fun _ _ _ => rfl⟩ zeroFrame coldBoot _ _ _ coldBoot_booted rfl .refl
      zeroFrame (some (bytes "cat a")) rfl
    ⟨h.1, h.2.1⟩⟩

end Runs

end Mp3Kernel
