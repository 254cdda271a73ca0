import Mp3Kernel.Laws.HaltIsolation
import Mp3Kernel.Laws.FileStream
import Mp3Kernel.Laws.Arguments
import Mp3Kernel.Laws.Listing
import Mp3Kernel.User.Calls

/-!
# A process among others

A process that starts no other has no child, and nobody but its own calls and the halt of a child
touches its descriptors, its argument or its `vidmap` flag. So whatever other processes call
while it waits, it finds them as it left them (`Undisturbed.others`), and each of its own calls
can be told from them alone: one rule for each call, for programs built of calls.
-/

namespace Mp3Kernel.User

open Interaction (Program Event)

/-- A live process without a child, and what its PCB holds. -/
structure Undisturbed (pid : Int) (view : PcbView) (k : Kernel) : Prop where
  table : Proc.Table k.proc
  live : k.proc.Live pid
  childless : ∀ a, k.proc.Live a → k.proc.parent a ≠ some pid
  view : (k.proc.pcb pid).view = view

section Others

variable {img : FsImage} {term : TerminalDriver} {k k' : Kernel} {pid : Int} {view : PcbView}

/-- A start of another process, under another one or under none. -/
theorem Undisturbed.started {frame : Frame} {parentPtr parentId new : Int}
    (T : Proc.Table k'.proc) (live : k.proc.Live pid)
    (childless : ∀ a, k.proc.Live a → k.proc.parent a ≠ some pid)
    (hview : (k.proc.pcb pid).view = view) (other : parentId ≠ pid)
    (h : Started frame parentPtr parentId k k' new) : Undisturbed pid view k' := by
  have hne : pid ≠ new := fun e => h.not_live (e ▸ live)
  refine ⟨T, (h.live pid).mpr (.inr live), fun a ha => ?_, ?_⟩
  · rcases (h.live a).mp ha with rfl | hold
    · obtain ⟨_, hnew⟩ := h.pcb_new
      have hparent : k'.proc.parent a = parentOf parentId :=
        congrArg parentOf hnew.parentProcessId
      rw [hparent]
      exact fun e => other (parentOf_eq_some.mp e).1
    · have hparent : k'.proc.parent a = k.proc.parent a :=
        congrArg parentOf (h.pcb_old fun e => h.not_live (e ▸ hold)).parentProcessId
      rw [hparent]
      exact childless a hold
  · exact (h.pcb_old hne).view.trans hview

/-- A change that keeps the live processes, the links and the PCB of the process. -/
theorem Undisturbed.congr (U : Undisturbed pid view k) (T : Proc.Table k'.proc)
    (ids : k'.proc.idArray = k.proc.idArray) (links : ∀ a, Proc.SameLinks k.proc k'.proc a)
    (pcb : k'.proc.pcb pid = k.proc.pcb pid) : Undisturbed pid view k' := by
  have hlive : ∀ a, k'.proc.Live a ↔ k.proc.Live a := fun a => by simp only [Proc.Live, ids]
  refine ⟨T, (hlive pid).mpr U.live, fun a ha => ?_, by rw [pcb, U.view]⟩
  rw [(links a).parent]
  exact U.childless a ((hlive a).mp ha)

/-- A child of another process returns to its parent. -/
theorem Undisturbed.returned (U : Undisturbed pid view k) (T : Proc.Table k'.proc)
    (other : k.proc.currentId ≠ pid) (h : Returned k k') : Undisturbed pid view k' := by
  obtain ⟨hchild, hparent, _⟩ := U.table.halt_addrs h.child
  have hup := U.table.parent_current h.child
  have hnot : pid ≠ k.currentPcb.parentProcessId := fun e =>
    U.childless _ U.table.current (e ▸ hup)
  refine ⟨T, (h.live pid).mpr ⟨U.live, other.symm⟩, fun a ha => ?_, ?_⟩
  · obtain ⟨hold, _⟩ := (h.live a).mp ha
    have hlink : k'.proc.parent a = k.proc.parent a := (h.handed.links a).parent
    rw [hlink]
    exact U.childless a hold
  · have hsame : k'.proc.pcb pid = k.toParent.proc.pcb pid := by
      refine h.handed.pcb_other ?_ ?_
      · rw [hchild]
        exact fun e => other (pcbAddr_inj.mp e).symm
      · rw [hparent]
        exact fun e => hnot (pcbAddr_inj.mp e)
    rw [hsame]
    exact U.view

/-- What one event of the others preserves. -/
theorem Undisturbed.step (U : Undisturbed pid view k) (keeps : term.KeepsProcesses)
    {e : ProcEvent ⊕ FdEvent} (ok : byOthers pid k e) (h : sysStep img term e k = some k') :
    Undisturbed pid view k' := by
  obtain ⟨hleaf, hother⟩ := ok
  have T : Proc.Table k'.proc := U.table.call keeps hleaf h
  cases e with
  | inr e =>
    obtain ⟨fdArray, hfds⟩ := @fdStep_proc img term keeps e k
    rw [← sysStep_fd h] at hfds
    refine U.congr T (by rw [hfds]; rfl) (fun a => hfds ▸ Proc.withFds_links fdArray a) ?_
    rw [hfds]
    exact Proc.withFds_pcb_of_ne U.table fdArray hother.symm
  | inl e =>
    cases procStep_some h with
    | noShell _ hsame | noChild _ hsame =>
      exact U.congr T (by rw [hsame.proc]) (fun a => by rw [hsame.proc]; exact ⟨rfl, rfl⟩)
        (by rw [hsame.proc])
    | shell _ hstarted =>
      have hne : (-1 : Int) ≠ pid := fun e => U.live.1.ne_neg_one e.symm
      exact .started T U.live U.childless U.view hne hstarted
    | child _ hstarted => exact .started T U.live U.childless U.view hother hstarted
    | restarted hnew =>
      have hne : (-1 : Int) ≠ pid := fun e => U.live.1.ne_neg_one e.symm
      obtain ⟨_, hstarted⟩ := hnew.started
      refine Undisturbed.started (k := k.released) T ?_ (fun a ha => ?_) U.view hne hstarted
      · exact (k.released_live pid).mpr ⟨U.live, fun e => hother e.symm⟩
      · exact U.childless a ((k.released_live a).mp ha).1
    | stray hstray => exact absurd hstray U.table.not_stray
    | returned hback => exact U.returned T hother hback
    | notMapped _ hsame =>
      rw [hsame]
      exact U
    | mapped _ hmapped =>
      refine U.congr T hmapped.idArray hmapped.links ?_
      have haddr : pcbAddr pid ≠ k.proc.currentPcbPtr := by
        have hptr : k.proc.currentPcbPtr = pcbAddr k.proc.currentId := U.table.ptr_eq
        rw [hptr]
        exact fun e => hother (pcbAddr_inj.mp e).symm
      unfold Proc.pcb
      rw [hmapped.proc]
      simp [Kernel.modifyPcb, Function.update_of_ne haddr]
    | unmapped hsame | remapped hsame | switched hsame =>
      rw [hsame]
      exact ⟨U.table, U.live, U.childless, U.view⟩
    | scheduled _ hsame =>
      rw [hsame] at T ⊢
      exact ⟨T, U.live, U.childless, U.view⟩

end Others

/-! ## Its own calls -/

section Own

variable {img : FsImage} {term : TerminalDriver} {k k' : Kernel} {pid : Int} {view : PcbView}

theorem Undisturbed.ptr_ne (U : Undisturbed pid view k) : k.proc.currentPcbPtr ≠ 0 := by
  rw [U.table.ptr]
  exact U.table.arr_ne_zero U.table.current

theorem Undisturbed.currentPcb (U : Undisturbed pid view k) (current : k.proc.currentId = pid) :
    k.currentPcb.view = view := by
  have hpcb : k.currentPcb = k.proc.pcb k.proc.currentId := U.table.currentPcb_eq
  rw [hpcb, current, U.view]

theorem Undisturbed.fds (U : Undisturbed pid view k) (current : k.proc.currentId = pid) :
    k.fds = view.fdArray :=
  congrArg PcbView.fdArray (U.currentPcb current)

/-- A call of the process itself changes its descriptors at most. -/
theorem Undisturbed.own (U : Undisturbed pid view k) (current : k.proc.currentId = pid)
    (h : ∃ fdArray, k'.proc = k.proc.withFds fdArray) :
    Undisturbed pid { view with fdArray := k'.fds } k' := by
  obtain ⟨fdArray, hproc⟩ := h
  have hfds : k'.fds = fdArray := fds_of_withFds hproc
  have hpcb : (k'.proc.pcb pid).view = { view with fdArray := k'.fds } := by
    have hcur := U.currentPcb current
    have hptr : pcbAddr pid = k.proc.currentPcbPtr := by
      rw [← current]
      exact U.table.ptr_eq.symm
    unfold Proc.pcb
    rw [hfds, hproc, hptr, ← hcur]
    simp [Proc.withFds, Pcb.view, Kernel.currentPcb]
  refine ⟨hproc ▸ U.table.withFds fdArray, ?_, fun a ha => ?_, hpcb⟩
  · rw [hproc]
    exact U.live
  · rw [hproc] at ha ⊢
    rw [(Proc.withFds_links fdArray a).parent]
    exact U.childless a ha

theorem Undisturbed.congr_proc (U : Undisturbed pid view k) (h : k'.proc = k.proc) :
    Undisturbed pid view k' :=
  ⟨h ▸ U.table, h ▸ U.live, h ▸ U.childless, h ▸ U.view⟩

end Own

/-! ## The rules -/

/-- Something that the process relies on besides its PCB: what the others are admitted to do
keeps it, and so do the process's own calls, but for those that list the directory. -/
structure Setting (img : FsImage) (term : TerminalDriver)
    (admits : Kernel → ProcEvent ⊕ FdEvent → Prop) (extra : Kernel → Prop) : Prop where
  keeps : term.KeepsProcesses
  others : ∀ {k e k'}, extra k → admits k e → sysStep img term e k = some k' → extra k'
  own : ∀ {k e}, extra k → dirReadOf k (.inr e) = none → extra (fdStep img term e k)

structure Settled (extra : Kernel → Prop) (pid : Int) (view : PcbView) (k : Kernel) : Prop
    extends Undisturbed pid view k where
  extra : extra k

section Rules

variable {img : FsImage} {term : TerminalDriver} {admits : Kernel → ProcEvent ⊕ FdEvent → Prop}
  {extra : Kernel → Prop} {k k' : Kernel} {pid : Int} {view : PcbView} {β : Type}
  {post : List (Event Call Call.Answer) → β → Kernel → Prop}

/-- Whatever the others do, the process finds what it left. -/
theorem Settled.others (U : Settled extra pid view k) (S : Setting img term admits extra)
    (wait : Runs.Reach (sysStep img term) (fun k e => byOthers pid k e ∧ admits k e) k k') :
    Settled extra pid view k' :=
  wait.invariant (Settled extra pid view) U fun _ _ _ U ok h =>
    ⟨U.toUndisturbed.step S.keeps ok.1 h, S.others U.extra ok.2 h⟩

/-- One of its own calls, other than one that lists the directory. -/
theorem Settled.own (U : Settled extra pid view k) (S : Setting img term admits extra)
    (current : k.proc.currentId = pid) {e : FdEvent} (other : dirReadOf k (.inr e) = none)
    {fdArray : Int → FileD} (hfds : (fdStep img term e k).fds = fdArray) :
    Settled extra pid { view with fdArray := fdArray } (fdStep img term e k) := by
  have hown := U.toUndisturbed.own current (@fdStep_proc img term S.keeps e k)
  rw [hfds] at hown
  exact ⟨hown, S.own U.extra other⟩

/-- The rule for a call: it is made when the process is current again. -/
theorem Settled.call (U : Settled extra pid view k) (S : Setting img term admits extra) {c : Call}
    {f : c.Answer → UserProgram β}
    (h : ∀ t, Settled extra pid view t → t.proc.currentId = pid → ∃ u r,
      answer img term c t = (u, r) ∧
        (f r).Always (machine img term pid admits) (fun es => post (⟨c, r⟩ :: es)) u) :
    (Program.call c .done >>= f).Always (machine img term pid admits) post k := by
  rintro t ⟨wait, current⟩
  have U' := U.others S wait
  obtain ⟨u, r, hanswer, hnext⟩ := h t U' current
  exact ⟨r, u, (if_neg U'.ptr_ne).trans (congrArg some hanswer), hnext⟩

/-- `write`, whatever it returns. -/
theorem Settled.write (U : Settled extra pid view k) (S : Setting img term admits extra) {fd : Int}
    {buf : Buf} {nbytes : Int} {f : Int → UserProgram β}
    (h : ∀ r t, Settled extra pid view t → (f r).Always (machine img term pid admits)
      (fun es => post (⟨.write fd buf nbytes, r⟩ :: es)) t) :
    (ece391Write fd buf nbytes >>= f).Always (machine img term pid admits) post k := by
  refine U.call S fun t U' current => ⟨_, _, rfl, h _ _ ?_⟩
  have hfds : (fdStep img term (.write fd (some buf) nbytes) t).fds = view.fdArray :=
    (fds_of_proc (writeCall_proc S.keeps fd (some buf) nbytes t)).trans (U'.fds current)
  exact U'.own S current rfl hfds

/-- `ece391_fdputs`, of a string. -/
theorem Settled.fdputs (U : Settled extra pid view k) (S : Setting img term admits extra) {fd : Int}
    {s : Buf} {f : Unit → UserProgram β}
    (h : ∀ r t, Settled extra pid view t → (f ()).Always (machine img term pid admits)
      (fun es => post (⟨.write fd s (ece391Strlen s), r⟩ :: es)) t) :
    (ece391Fdputs fd s >>= f).Always (machine img term pid admits) post k :=
  U.write S h

/-- `open`, of a name that the directory has. -/
theorem Settled.openKnown (U : Settled extra pid view k) (S : Setting img term admits extra)
    (T : FdTable view.fdArray) (room : ¬ SlotTable.Full (openFds view.fdArray) 2 7)
    {filename : Buf} {j : Nat} (known : knownEntry img filename = some j)
    {f : Int → UserProgram β}
    (h : ∀ fd t, SlotTable.FirstFree (openFds view.fdArray) 2 7 fd →
      Settled extra pid { view with
        fdArray := Function.update view.fdArray fd (openedSlot (img.dentry j)) } t →
      (f fd).Always (machine img term pid admits)
        (fun es => post (⟨.openFile filename, fd⟩ :: es)) t) :
    (ece391Open filename >>= f).Always (machine img term pid admits) post k := by
  refine U.call S fun t U' current => ?_
  have hfds := U'.fds current
  have htable : FdTable t.fds := hfds.symm ▸ T
  rcases @FdTable.opened img t htable (some filename) with
    ⟨hwhy, _⟩ | ⟨name, i, heq, hname, hfree, hopened⟩
  · rw [hfds] at hwhy
    rcases hwhy with hunknown | hfull
    · rw [Option.bind_some, known] at hunknown
      cases hunknown
    · exact absurd hfull room
  · obtain rfl := Option.some.inj heq
    obtain rfl := Option.some.inj (hname.symm.trans known)
    rw [hfds] at hfree hopened
    exact ⟨_, _, rfl, h _ _ hfree (U'.own S current (e := .openFile (some filename)) rfl hopened)⟩

/-- `read`, of a regular file that is open at a place within it. -/
theorem Settled.readFile (U : Settled extra pid view k) (S : Setting img term admits extra)
    (wf : img.WellFormed) {x p m : Nat} (regular : img.Regular x) {fd : Int} (lo : 2 ≤ fd)
    (hi : fd ≤ 7) (slot : view.fdArray fd = ⟨fileTable, x, p, 1⟩)
    (within : (p : Int) ≤ (img.inode x).length) {nbytes : Int} {buf : Buf}
    (count : (m : Int) = min nbytes ((img.inode x).length - p))
    {f : Buf × Int → UserProgram β}
    (h : ∀ t, Settled extra pid { view with
        fdArray := Function.update view.fdArray fd ⟨fileTable, x, p + m, 1⟩ } t →
      (f (Stream.splice (fileByte img (img.inode x)) p (storedBytes p m) buf, m)).Always
        (machine img term pid admits) (fun es => post (⟨.read fd buf nbytes,
          (Stream.splice (fileByte img (img.inode x)) p (storedBytes p m) buf, (m : Int))⟩ ::
            es)) t) :
    (ece391Read fd buf nbytes >>= f).Always (machine img term pid admits) post k := by
  refine U.call S fun t U' current => ?_
  have hslot : t.fds fd = ⟨fileTable, x, p, 1⟩ := by rw [U'.fds current, slot]
  obtain ⟨_, hsmall⟩ := wf.length_range regular
  have range : ReadRange img (t.fds fd) nbytes p m := by
    rw [hslot]
    exact ⟨rfl, within, hsmall, count⟩
  obtain ⟨hcount, hbuf, hfds⟩ := range.fileRead buf
  rw [hslot] at hbuf hfds
  have hcall := @readCall_file img term t fd nbytes ⟨lo, hi, by rw [hslot]⟩ (by rw [hslot]) buf
  have hnew : (fdStep img term (.read fd (some buf) nbytes) t).fds =
      Function.update view.fdArray fd ⟨fileTable, x, p + m, 1⟩ := by
    show (readCall img term fd (some buf) nbytes t).1.fds = _
    rw [hcall, ← U'.fds current]
    exact hfds
  have hlists : dirReadOf t (.inr (.read fd (some buf) nbytes)) = none := by
    refine if_neg fun h => ?_
    have hfn : (t.fds fd).fileOpTable.readFn = .dirRead := h.2
    rw [hslot] at hfn
    cases hfn
  have hout : (readCall img term fd (some buf) nbytes t).2.1.getD buf =
      Stream.splice (fileByte img (img.inode x)) p (storedBytes p m) buf := by
    simp only [hcall, Option.getD_some, hbuf]
  have hresult : (readCall img term fd (some buf) nbytes t).2.2 = m := by
    rw [hcall]
    exact hcount
  exact ⟨(readCall img term fd (some buf) nbytes t).1,
    (Stream.splice (fileByte img (img.inode x)) p (storedBytes p m) buf, (m : Int)),
    Prod.ext rfl (Prod.ext hout hresult), h _ (U'.own S current hlists hnew)⟩

/-- `close`, of a descriptor that is open. -/
theorem Settled.closeOpen (U : Settled extra pid view k) (S : Setting img term admits extra)
    (T : FdTable view.fdArray) {fd : Int} (isOpen : OpenSlot view.fdArray fd)
    {f : Int → UserProgram β}
    (h : ∀ t, Settled extra pid { view with
        fdArray := Function.update view.fdArray fd { view.fdArray fd with flags := 0 } } t →
      (f 0).Always (machine img term pid admits)
        (fun es => post (⟨.close fd, (0 : Int)⟩ :: es)) t) :
    (ece391Close fd >>= f).Always (machine img term pid admits) post k := by
  refine U.call S fun t U' current => ?_
  have hfds := U'.fds current
  obtain ⟨hresult, hclosed⟩ := (FdTable.closeSpec (hfds.symm ▸ T) fd).closes (hfds.symm ▸ isOpen)
  rw [hfds] at hclosed
  exact ⟨(closeCall fd t).1, (0 : Int), Prod.ext rfl hresult,
    h _ (U'.own S current (e := .close fd) rfl hclosed)⟩

/-- `getargs`, of a process that was started with an argument that fits. -/
theorem Settled.getargs (U : Settled extra pid view k) (S : Setting img term admits extra)
    {argument : List UInt8} (stored : Stores view.executeArg argument)
    (text : ∀ c ∈ argument, ArgumentByte c) (nonempty : argument ≠ []) {nbytes : Int}
    (fits : argument.length < nbytes) {buf : Buf} {f : Buf × Int → UserProgram β}
    (h : ∀ t out, Settled extra pid view t → Field.Holds 0 out argument →
      (∀ i : Nat, nbytes ≤ i → out i = buf i) → (f (out, 0)).Always (machine img term pid admits)
        (fun es => post (⟨.getargs buf nbytes, (out, (0 : Int))⟩ :: es)) t) :
    (ece391Getargs buf nbytes >>= f).Always (machine img term pid admits) post k := by
  refine U.call S fun t U' current => ?_
  have has : t.currentPcb.executeArg = view.executeArg :=
    congrArg PcbView.executeArg (U'.currentPcb current)
  have hpositive : 1 ≤ nbytes := by omega
  obtain ⟨out, hcall, hout⟩ := getargsHandler_some stored has text nonempty buf hpositive
  refine ⟨t, (out, 0), Prod.ext rfl (Prod.ext ?_ ?_), h _ _ U' ⟨fun i hi => ?_, fun hz =>
    (text 0 hz).2 rfl⟩ fun i hi => ?_⟩
  · show (getargsHandler (some buf) nbytes t).1.getD buf = out
    rw [hcall, Option.getD_some]
  · show (getargsHandler (some buf) nbytes t).2 = 0
    rw [hcall]
  · rw [hout]
    split
    · rfl
    next hlt =>
      have hend : i = argument.length := by omega
      rw [if_pos (by omega), hend, List.getD_eq_default _ _ (Nat.le_refl _)]
  · rw [hout, if_neg (by omega), if_neg (by omega)]

end Rules

/-! ## Where a program starts -/

/-- A process that a command has just started: no descriptor of its own is open, and its
argument is stored. -/
structure Fresh (view : PcbView) (argument : List UInt8) : Prop where
  table : FdTable view.fdArray
  closed : openFds view.fdArray = fun _ => none
  stored : Stores view.executeArg argument

/-- It has room for a descriptor. -/
theorem Fresh.room {view : PcbView} {argument : List UInt8} (F : Fresh view argument) :
    ¬ SlotTable.Full (openFds view.fdArray) 2 7 := by
  intro hfull
  rw [F.closed] at hfull
  exact hfull 2 (by decide) (by decide) rfl

theorem undisturbed_of_execute {img : FsImage} {term : TerminalDriver}
    (keeps : term.KeepsProcesses) {frame₀ frame : Frame} {k₀ k₁ k k₂ : Kernel}
    {eip₀ esp₀ eip esp : Nat} (boot : Booted k₀)
    (first : initShell img frame₀ k₀ = some (k₁, .iret eip₀ esp₀))
    (run : Runs.Reach (sysStep img term) callsLeaf k₁ k) {command : List UInt8}
    (exec : executeHandler img frame (some command) k = some (k₂, .iret eip esp)) :
    ∃ view, Undisturbed k₂.proc.currentId view k₂ ∧ Fresh view (parseCommand command).2 := by
  have T : Proc.Table k.proc := table_of_calls keeps boot first run
  have hstep : procStep img (.execute frame (some command)) k = some k₂ := by
    rw [procStep, exec]
    rfl
  have T₂ : Proc.Table k₂.proc := T.step (e := .execute frame _) trivial hstep
  have hpcb : k₂.currentPcb = k₂.proc.pcb k₂.proc.currentId := T₂.currentPcb_eq
  have hstored := executeHandler_stores exec
  rcases executeHandler_some exec with ⟨_, hexit, _⟩ | ⟨_, pid, _, _, hstarted⟩
  · cases hexit
  · obtain ⟨hfds, hclosed⟩ := hstarted.fdTable
    have hview : (k₂.proc.pcb k₂.proc.currentId).view.fdArray = k₂.fds := by
      rw [← hpcb]
      rfl
    refine ⟨_, ⟨T₂, T₂.current, T₂.leaf, rfl⟩, ⟨?_, ?_, hstored⟩⟩
    · rw [hview]
      exact hfds
    · rw [hview]
      exact hclosed

/-- A program that was started with an argument. -/
theorem undisturbed_of_command {img : FsImage} {term : TerminalDriver}
    (keeps : term.KeepsProcesses) {frame₀ frame : Frame} {k₀ k₁ k k₂ : Kernel}
    {eip₀ esp₀ eip esp : Nat} (boot : Booted k₀)
    (first : initShell img frame₀ k₀ = some (k₁, .iret eip₀ esp₀))
    (run : Runs.Reach (sysStep img term) callsLeaf k₁ k)
    {program argument rest : List UInt8} {spaces : Nat}
    (name : ∀ c ∈ program, ProgramByte c) (some_space : 1 ≤ spaces)
    (text : ∀ c ∈ argument, ArgumentByte c) (unpadded : argument.head? ≠ some blank)
    (stop : Terminates rest)
    (exec : executeHandler img frame
      (some (program ++ (List.replicate spaces blank ++ (argument ++ rest)))) k =
        some (k₂, .iret eip esp)) :
    ∃ view, Undisturbed k₂.proc.currentId view k₂ ∧ Fresh view argument := by
  obtain ⟨view, hstart, F⟩ := undisturbed_of_execute keeps boot first run exec
  rw [parseCommand_joined name some_space text unpadded stop] at F
  exact ⟨view, hstart, F⟩

end Mp3Kernel.User
