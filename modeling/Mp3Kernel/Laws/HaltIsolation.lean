import Mp3Kernel.Laws.Calls

/-!
# What a halt leaves its parent

While a child lives, nothing touches its parent's descriptors, argument or `vidmap` flag: the
parent does not run, and every call works on the running process. `halt` itself breaks this at
the end. It makes the parent current before its closing loop, and `close` works on the
current process, so the loop closes the parent's descriptors and leaves the child's alone.
-/

namespace Mp3Kernel

/-! ## What a caller leaves behind -/

/-- What a process expects to find again: its descriptors, argument and `vidmap` flag. -/
structure PcbView where
  fdArray : Int → FileD
  executeArg : Buf
  vidmapFlag : Nat

def Pcb.view (pcb : Pcb) : PcbView := ⟨pcb.fdArray, pcb.executeArg, pcb.vidmapFlag⟩

theorem Pcb.SameButRegs.view {a b : Pcb} (h : a.SameButRegs b) : b.view = a.view := by
  rw [h]
  rfl

/-- What each process left behind when it last called `execute` with success. -/
abbrev Saved := Int → PcbView

/-- A successful `execute`, which takes a free pid, records its caller. -/
def noteCaller (e : ProcEvent ⊕ FdEvent) (k k' : Kernel) (saved : Saved) : Saved :=
  match e with
  | .inl (.execute _ _) =>
    if k.proc.idArray k'.proc.currentId = 0 then
      Function.update saved k.proc.currentId k.currentPcb.view
    else saved
  | _ => saved

/-- The machine of all calls that remembers what callers left behind. -/
def callStep (img : FsImage) (term : TerminalDriver) :
    ProcEvent ⊕ FdEvent → Kernel × Saved → Option (Kernel × Saved) :=
  Runs.withHistory (sysStep img term) noteCaller

/-- The scheduler chooses leaves. -/
def callAllowed (s : Kernel × Saved) : ProcEvent ⊕ FdEvent → Prop
  | .inl e => schedulesLeaf s.1 e
  | .inr _ => True

/-- A process with a live child is as it was when it called `execute`. -/
structure CallersKept (s : Kernel × Saved) : Prop where
  table : Proc.Table s.1.proc
  kept : ∀ a q, s.1.proc.Live a → s.1.proc.parent a = some q → (s.1.proc.pcb q).view = s.2 q

section Steps

variable {k k' : Kernel} {saved : Saved}

/-- A step that keeps the forest and every PCB but the current one's. -/
theorem CallersKept.of_current (C : CallersKept (k, saved)) (T : Proc.Table k'.proc)
    (ids : k'.proc.idArray = k.proc.idArray)
    (links : ∀ a, Proc.SameLinks k.proc k'.proc a)
    (pcbs : ∀ a, a ≠ k.proc.currentId → k'.proc.pcb a = k.proc.pcb a) :
    CallersKept (k', saved) := by
  refine ⟨T, fun a q ha hq => ?_⟩
  have hold : k.proc.Live a := by simpa only [Proc.Live, ids] using ha
  rw [(links a).parent] at hq
  have hne : q ≠ k.proc.currentId := fun e => C.table.leaf a hold (e ▸ hq)
  dsimp only
  rw [pcbs q hne]
  exact C.kept a q hold hq

/-- A start: whoever is a parent afterwards, other than the caller, was one before. -/
theorem CallersKept.started {frame : Frame} {parentPtr parentId : Int} {pid : Int}
    {saved' : Saved} (T : Proc.Table k'.proc) (before : ∀ a q, k.proc.Live a →
      k.proc.parent a = some q → k.proc.Live q ∧ (k.proc.pcb q).view = saved' q)
    (caller : ∀ q, parentOf parentId = some q → k.proc.Live q ∧ (k.proc.pcb q).view = saved' q)
    (h : Started frame parentPtr parentId k k' pid) : CallersKept (k', saved') := by
  refine ⟨T, fun a q ha hq => ?_⟩
  have hparent : k.proc.Live q ∧ (k.proc.pcb q).view = saved' q := by
    by_cases hpid : a = pid
    · obtain ⟨_, hnew⟩ := h.pcb_new
      refine caller q (Eq.trans ?_ hq)
      rw [hpid]
      exact (congrArg parentOf hnew.parentProcessId).symm
    · have hold : k.proc.Live a := by simpa [Proc.Live, h.idArray, hpid] using ha
      refine before a q hold (Eq.trans ?_ hq)
      exact (congrArg parentOf (h.pcb_old hpid).parentProcessId).symm
  have hne : q ≠ pid := fun e => h.not_live (e ▸ hparent.1)
  exact (h.pcb_old hne).view.trans hparent.2

/-- A PCB that is neither the halting process's nor its parent's. -/
theorem HandedOver.pcb_other {pid currPcb : Int} (h : HandedOver pid currPcb k k') {a : Int}
    (hcurr : pcbAddr a ≠ currPcb) (hptr : pcbAddr a ≠ k.proc.currentPcbPtr) :
    k'.proc.pcb a = k.proc.pcb a := by
  unfold Proc.pcb
  rw [h.pcbs]
  simp [Kernel.modifyPcb, Function.update_of_ne hcurr, Function.update_of_ne hptr]

/-- The halting process's PCB, when it is not its own parent. -/
theorem HandedOver.pcb_halted {pid a : Int} (h : HandedOver pid (pcbAddr a) k k')
    (hptr : pcbAddr a ≠ k.proc.currentPcbPtr) : k'.proc.pcb a = (k.proc.pcb a).retire := by
  unfold Proc.pcb
  rw [h.pcbs]
  simp [Kernel.modifyPcb, Function.update_of_ne hptr]

/-- The parent's PCB. -/
theorem HandedOver.pcb_parent {pid currPcb a : Int} (h : HandedOver pid currPcb k k')
    (hptr : k.proc.currentPcbPtr = pcbAddr a) (hcurr : pcbAddr a ≠ currPcb) :
    k'.proc.pcb a = (k.proc.pcb a).clearSlots userSlot := by
  unfold Proc.pcb
  rw [h.pcbs, hptr]
  simp [Kernel.modifyPcb, Function.update_of_ne hcurr]

/-- The parent and child of a halt, by the addresses of their PCBs. -/
theorem Proc.Table.halt_addrs (T : Proc.Table k.proc) (h : k.currentPcb.parentProcessId ≠ -1) :
    k.proc.currentPcbPtr = pcbAddr k.proc.currentId ∧
      k.toParent.proc.currentPcbPtr = pcbAddr k.currentPcb.parentProcessId ∧
      pcbAddr k.currentPcb.parentProcessId ≠ pcbAddr k.proc.currentId := by
  have hup := T.parent_current h
  refine ⟨T.ptr_eq, T.arr_live (T.live_parent T.current hup), fun e => ?_⟩
  rw [pcbAddr_inj] at e
  exact T.leaf _ T.current (e ▸ hup)

theorem CallersKept.returned (C : CallersKept (k, saved)) (T : Proc.Table k'.proc)
    (h : Returned k k') : CallersKept (k', saved) := by
  obtain ⟨hchild, hparent, _⟩ := C.table.halt_addrs h.child
  dsimp only at hchild hparent
  have hup := C.table.parent_current h.child
  refine ⟨T, fun a q ha hq => ?_⟩
  obtain ⟨hold, hac⟩ := (h.live a).mp ha
  have hq' : k.proc.parent a = some q := (h.handed.links a).parent ▸ hq
  have hqc : q ≠ k.proc.currentId := fun e => C.table.leaf a hold (e ▸ hq')
  have hqp : q ≠ k.currentPcb.parentProcessId := fun e =>
    hac (C.table.single a k.proc.currentId _ hold C.table.current (e ▸ hq') hup)
  have hsame : k'.proc.pcb q = k.toParent.proc.pcb q := by
    refine h.handed.pcb_other ?_ ?_
    · rw [hchild]
      exact fun e => hqc (pcbAddr_inj.mp e)
    · rw [hparent]
      exact fun e => hqp (pcbAddr_inj.mp e)
  dsimp only
  rw [hsame]
  exact C.kept a q hold hq'

theorem CallersKept.mapped (C : CallersKept (k, saved)) (T : Proc.Table k'.proc)
    (h : Mapped k k') : CallersKept (k', saved) := by
  refine C.of_current T h.idArray h.links fun a ha => ?_
  have haddr : pcbAddr a ≠ k.proc.currentPcbPtr := by
    have hptr : k.proc.currentPcbPtr = pcbAddr k.proc.currentId := C.table.ptr_eq
    rw [hptr]
    exact fun e => ha (pcbAddr_inj.mp e)
  unfold Proc.pcb
  rw [h.proc]
  simp [Kernel.modifyPcb, Function.update_of_ne haddr]

/-- What one call preserves. -/
theorem CallersKept.step {img : FsImage} {term : TerminalDriver} (keeps : term.KeepsProcesses)
    {e : ProcEvent ⊕ FdEvent} {s t : Kernel × Saved} (C : CallersKept s)
    (allowed : callAllowed s e) (h : callStep img term e s = some t) : CallersKept t := by
  obtain ⟨k, saved⟩ := s
  obtain ⟨k', saved'⟩ := t
  obtain ⟨hstep, hnote⟩ := Runs.withHistory_some h
  dsimp only at hstep hnote
  have hbit : k.proc.idArray k.proc.currentId = 1 := C.table.current.2
  have before : ∀ a q, k.proc.Live a → k.proc.parent a = some q →
      k.proc.Live q ∧ (k.proc.pcb q).view = saved q := fun a q ha hq =>
    ⟨C.table.live_parent ha hq, C.kept a q ha hq⟩
  cases e with
  | inr e =>
    obtain rfl : saved' = saved := hnote
    have hproc : fdStep img term e k = k' := (sysStep_fd hstep).symm
    obtain ⟨fdArray, hfds⟩ := @fdStep_proc img term keeps e k
    rw [hproc] at hfds
    have hlinks : ∀ a, Proc.SameLinks k.proc k'.proc a := by
      rw [hfds]
      exact Proc.withFds_links fdArray
    refine C.of_current (hfds ▸ C.table.withFds fdArray) (by rw [hfds]; rfl) hlinks fun a ha => ?_
    rw [hfds]
    exact Proc.withFds_pcb_of_ne C.table fdArray ha
  | inl e =>
    have T : Proc.Table k'.proc := C.table.step allowed hstep
    cases procStep_some hstep with
    | noShell _ hsame =>
      obtain rfl : saved' = saved := hnote
      exact ⟨T, by rw [hsame.proc]; exact C.kept⟩
    | noChild _ hsame =>
      obtain rfl : saved' = saved := by
        rw [hnote, noteCaller, hsame.proc, if_neg (by omega)]
      exact ⟨T, by rw [hsame.proc]; exact C.kept⟩
    | shell _ hstarted =>
      obtain rfl : saved' = saved := hnote
      exact .started T before (by simp [parentOf]) hstarted
    | @child _ _ pid _ hstarted =>
      have hsaved : saved' = Function.update saved k.proc.currentId k.currentPcb.view := by
        rw [hnote, noteCaller, hstarted.currentId, if_pos hstarted.free]
      have hpcb : k.currentPcb = k.proc.pcb k.proc.currentId := C.table.currentPcb_eq
      rw [hsaved]
      refine .started T (fun a q ha hq => ?_) (fun q hq => ?_) hstarted
      · have hne : q ≠ k.proc.currentId := fun e => C.table.leaf a ha (e ▸ hq)
        rw [Function.update_of_ne hne]
        exact before a q ha hq
      · obtain ⟨rfl, _⟩ := parentOf_eq_some.mp hq
        rw [Function.update_self, hpcb]
        exact ⟨C.table.current, rfl⟩
    | restarted hnew =>
      obtain rfl : saved' = saved := hnote
      obtain ⟨_, hstarted⟩ := hnew.started
      refine CallersKept.started (k := k.released) T (fun a q ha hq => ?_) (by simp [parentOf])
        hstarted
      obtain ⟨hold, _⟩ := (k.released_live a).mp ha
      have hne : q ≠ k.proc.currentId := fun e => C.table.leaf a hold (e ▸ hq)
      exact ⟨(k.released_live q).mpr ⟨(before a q hold hq).1, hne⟩, (before a q hold hq).2⟩
    | stray hstray => exact absurd hstray C.table.not_stray
    | returned hback =>
      obtain rfl : saved' = saved := hnote
      exact C.returned T hback
    | notMapped _ hsame =>
      obtain rfl : saved' = saved := hnote
      rwa [hsame]
    | mapped _ hmapped =>
      obtain rfl : saved' = saved := hnote
      exact C.mapped T hmapped
    | unmapped hsame | remapped hsame | switched hsame =>
      obtain rfl : saved' = saved := hnote
      rw [hsame]
      exact ⟨C.table, C.kept⟩
    | scheduled _ hsame =>
      obtain rfl : saved' = saved := hnote
      rw [hsame] at T ⊢
      exact ⟨T, C.kept⟩

/-- The first shell has no parent, and nobody else is live. -/
theorem Booted.callersKept {img : FsImage} {frame : Frame} {eip esp : Nat} (boot : Booted k)
    (first : initShell img frame k = some (k', .iret eip esp)) (saved : Saved) :
    CallersKept (k', saved) := by
  have hdead : ∀ a, ¬ k.proc.Live a := fun a ha => by
    have := boot.ids a ha.1
    have := ha.2
    omega
  rcases initShell_some first with ⟨_, hexit, _⟩ | ⟨_, pid, _, _, hstarted⟩
  · cases hexit
  · exact .started (boot.table first) (fun a _ ha => absurd ha (hdead a)) (by simp [parentOf])
      hstarted

end Steps

/-! ## The halt -/

section Halt

variable {k k' : Kernel} {saved : Saved}

/-- Clearing the flags of slots 2 to 7 changes nothing just when they are clear. -/
theorem Pcb.view_clearSlots_userSlot {pcb : Pcb} :
    (pcb.clearSlots userSlot).view = pcb.view ↔
      ∀ fd, 2 ≤ fd → fd ≤ 7 → (pcb.fdArray fd).flags = 0 := by
  constructor
  · intro hview fd lo hi
    have hslot := congrFun (congrArg PcbView.fdArray hview) fd
    simp only [Pcb.view, Pcb.clearSlots, userSlot_eq_true, lo, hi, and_self, if_true] at hslot
    rw [← hslot]
  · intro hclear
    have hfds : (pcb.clearSlots userSlot).fdArray = pcb.fdArray := by
      funext fd
      by_cases h : 2 ≤ fd ∧ fd ≤ 7
      · have hzero := hclear fd h.1 h.2
        simp only [Pcb.clearSlots, userSlot_eq_true, h, and_self, if_true]
        rw [← hzero]
      · simp only [Pcb.clearSlots, userSlot_eq_true, h, if_false]
    unfold Pcb.view
    rw [hfds]
    rfl

/-- `retire` leaves slots 2 to 7 open if they were. -/
theorem Pcb.retire_userSlot (pcb : Pcb) {fd : Int} (lo : 2 ≤ fd) :
    pcb.retire.fdArray fd = pcb.fdArray fd := by
  have hstd : stdSlot fd = false := by
    simp only [stdSlot, Bool.or_eq_false_iff, beq_eq_false_iff_ne]
    omega
  simp only [Pcb.retire, Pcb.clearSlots, hstd]
  rfl

/-- In every state a run reaches in which the current process has a parent, its halt returns
to the parent. The parent is then as it was when it called `execute`, and the process's own
descriptors closed, just when neither of them had any of the descriptors 2 to 7 open. -/
theorem halt_isolates_iff {img : FsImage} {term : TerminalDriver} (keeps : term.KeepsProcesses)
    {frame : Frame} {k₀ k₁ : Kernel} {eip esp : Nat} {saved₁ : Saved} (boot : Booted k₀)
    (first : initShell img frame k₀ = some (k₁, .iret eip esp))
    (run : Runs.Reach (callStep img term) callAllowed (k₁, saved₁) (k, saved))
    (child : (k.proc.pcb k.proc.currentId).parentProcessId ≠ -1) (frame' : Frame)
    (status : UInt8) :
    let parentId := (k.proc.pcb k.proc.currentId).parentProcessId
    ∃ k' esp ebp eax, haltHandler img frame' status k = some (k', .leave esp ebp eax) ∧
      ((k'.currentPcb.view = saved parentId ∧
          ∀ fd, 2 ≤ fd → fd ≤ 7 → ((k.proc.pcb k.proc.currentId).fdArray fd).flags ≠ 0 →
            ((k'.proc.pcb k.proc.currentId).fdArray fd).flags = 0) ↔
        ∀ fd, 2 ≤ fd → fd ≤ 7 →
          ((k.proc.pcb parentId).fdArray fd).flags = 0 ∧
            ((k.proc.pcb k.proc.currentId).fdArray fd).flags = 0) := by
  have C : CallersKept (k, saved) := run.invariant CallersKept (boot.callersKept first saved₁)
    fun _ _ _ C allowed h => C.step keeps allowed h
  have T : Proc.Table k.proc := C.table
  intro parentId
  obtain ⟨k', esp, ebp, eax, hcall, hback⟩ := T.halt_returns img frame' status child
  refine ⟨k', esp, ebp, eax, hcall, ?_⟩
  have hpcb : k.currentPcb = k.proc.pcb k.proc.currentId := T.currentPcb_eq
  obtain ⟨hchild, hparent, hne⟩ := T.halt_addrs hback.child
  have hup := T.parent_current hback.child
  rw [hpcb] at hparent hne hup
  have hsaved : (k.proc.pcb parentId).view = saved parentId := C.kept _ _ T.current hup
  have hptr : k'.proc.currentPcbPtr = pcbAddr parentId := hback.handed.ptr.trans hparent
  have hcurrent : k'.currentPcb = (k.proc.pcb parentId).clearSlots userSlot := by
    rw [Kernel.currentPcb, Proc.currentPcb, hptr]
    exact hback.handed.pcb_parent hparent (by rw [hchild]; exact hne)
  have hhalted : k'.proc.pcb k.proc.currentId = (k.proc.pcb k.proc.currentId).retire := by
    have hhanded := hback.handed
    rw [hchild] at hhanded
    exact hhanded.pcb_halted (by rw [hparent]; exact hne.symm)
  rw [hcurrent, ← hsaved, Pcb.view_clearSlots_userSlot, hhalted]
  constructor
  · rintro ⟨hclear, hclosed⟩ fd lo hi
    refine ⟨hclear fd lo hi, ?_⟩
    by_contra hopen
    have hstill := hclosed fd lo hi hopen
    rw [Pcb.retire_userSlot _ lo] at hstill
    exact hopen hstill
  · intro hnone
    exact ⟨fun fd lo hi => (hnone fd lo hi).1, fun fd lo hi hopen =>
      absurd (hnone fd lo hi).2 hopen⟩

end Halt

/-- A shell run from the first shell, neither with a descriptor open, leaves the first shell
as it was. -/
theorem halt_isolates_idle :
    ∃ k₁ k saved k' exit,
      initShell shellImage zeroFrame coldBoot = some (k₁, .iret 0x08048018 newUserBottom) ∧
      callStep shellImage quietTerminal (.inl (.execute zeroFrame (some (bytes "shell"))))
        (k₁, fun _ => zeroFrame.childPcb.view) = some (k, saved) ∧
      haltHandler shellImage zeroFrame 0 k = some (k', exit) ∧ k'.currentPcb.view = saved 0 := by
  obtain ⟨k', esp, ebp, eax, hcall, hiff⟩ :=
    @halt_isolates_iff _ _ shellImage quietTerminal quietTerminal_keeps zeroFrame coldBoot _ _ _
      (fun _ => zeroFrame.childPcb.view) coldBoot_booted rfl
      (.tail .refl (e := .inl (.execute zeroFrame (some (bytes "shell")))) trivial rfl) (by decide)
      zeroFrame 0
  refine ⟨_, _, _, k', _, rfl, rfl, hcall, (hiff.mpr fun fd lo hi => ?_).1⟩
  obtain rfl | rfl | rfl | rfl | rfl | rfl :
      fd = 2 ∨ fd = 3 ∨ fd = 4 ∨ fd = 5 ∨ fd = 6 ∨ fd = 7 := by omega
  all_goals exact ⟨rfl, rfl⟩

/-- The first shell opens a file and runs a second shell, which halts: the file is closed. -/
theorem halt_closes_parent :
    ∃ k₁ k saved k' exit,
      initShell shellImage zeroFrame coldBoot = some (k₁, .iret 0x08048018 newUserBottom) ∧
      Runs.Reach (callStep shellImage quietTerminal) callAllowed
        (k₁, fun _ => zeroFrame.childPcb.view) (k, saved) ∧
      (k.proc.pcb k.proc.currentId).parentProcessId = 0 ∧
      haltHandler shellImage zeroFrame 0 k = some (k', exit) ∧
      ¬ (k'.currentPcb.view = saved 0 ∧
          ∀ fd, 2 ≤ fd → fd ≤ 7 → ((k.proc.pcb k.proc.currentId).fdArray fd).flags ≠ 0 →
            ((k'.proc.pcb k.proc.currentId).fdArray fd).flags = 0) := by
  refine ⟨_, _, _, _, _, rfl,
    .tail (.tail .refl (e := .inr (.openFile (some (cstr (bytes "shell"))))) trivial rfl)
      (e := .inl (.execute zeroFrame (some (bytes "shell")))) trivial rfl, rfl, rfl, ?_⟩
  rintro ⟨hview, _⟩
  have hslot : (0 : Nat) = 1 := congrArg (fun view => (view.fdArray 2).flags) hview
  cases hslot

end Mp3Kernel
