import Mp3Kernel.Laws.ProcessTable

/-!
# The two `vidmap` flags

`vidmap` records its caller twice, in `pid_vidmap_flag` and in the PCB. `halt` under a parent
clears both and a new PCB starts with its own clear, but a base shell leaves `halt` through
`execute`, before either is cleared: its pid keeps a flag that the PCB put in its place, or
the free slot it leaves, does not have.
-/

namespace Mp3Kernel

/-- The process a step has just started, if it has: the pid it took was free before. -/
def noteStarted (e : ProcEvent) (k k' : Kernel) (_ : Option Int) : Option Int :=
  match e with
  | .initShell _ | .execute _ _ =>
    if k.proc.idArray k'.proc.currentId = 0 then some k'.proc.currentId else none
  | .halt _ _ => if k.currentPcb.parentProcessId = -1 then some k'.proc.currentId else none
  | _ => none

/-- The machine that remembers what its last step started. -/
def flagStep (img : FsImage) : ProcEvent → Kernel × Option Int → Option (Kernel × Option Int) :=
  Runs.withHistory (procStep img) noteStarted

def flagAllowed (s : Kernel × Option Int) (e : ProcEvent) : Prop := schedulesLeaf s.1 e

/-- A pid's flag is set just when it is live and its PCB's is; a process just started has
both clear. -/
def FlagsAgree (s : Kernel × Option Int) : Prop :=
  (∀ pid, ValidPid pid →
    (s.1.proc.pidVidmapFlag pid = 1 ↔ s.1.proc.Live pid ∧ (s.1.proc.pcb pid).vidmapFlag = 1)) ∧
  ∀ pid, s.2 = some pid →
    s.1.proc.pidVidmapFlag pid = 0 ∧ (s.1.proc.pcb pid).vidmapFlag = 0

/-- The condition on a step: no base shell halts with its `vidmap` flag set. -/
def KeepsFlags (s : Kernel × Option Int) : ProcEvent → Prop
  | .halt _ _ => s.1.currentPcb.parentProcessId = -1 → s.1.currentPcb.vidmapFlag ≠ 1
  | _ => True

/-! ## The invariant -/

/-- What the flag of every pid is. -/
def FlagsBody (p : Proc) : Prop :=
  ∀ pid, ValidPid pid →
    p.pidVidmapFlag pid = if p.Live pid ∧ (p.pcb pid).vidmapFlag = 1 then 1 else 0

structure FlagsInv (s : Kernel × Option Int) : Prop where
  table : Proc.Table s.1.proc
  body : FlagsBody s.1.proc
  fresh : ∀ pid, s.2 = some pid →
    s.1.proc.pidVidmapFlag pid = 0 ∧ (s.1.proc.pcb pid).vidmapFlag = 0

theorem FlagsInv.agree {s : Kernel × Option Int} (I : FlagsInv s) : FlagsAgree s := by
  refine ⟨fun pid hpid => ?_, I.fresh⟩
  rw [I.body pid hpid]
  split
  next h => simp [h]
  next h => simp [h]

section Steps

variable {k k' : Kernel} {fresh fresh' : Option Int}

/-- The flag is read off the process table, the live pids and the PCBs' own flags. -/
theorem FlagsBody.congr {p p' : Proc} (B : FlagsBody p) (flags : p'.pidVidmapFlag = p.pidVidmapFlag)
    (live : ∀ a, p'.Live a ↔ p.Live a)
    (pcbs : ∀ a, p.Live a → (p'.pcb a).vidmapFlag = (p.pcb a).vidmapFlag) : FlagsBody p' := by
  intro pid hpid
  rw [flags, B pid hpid]
  by_cases h : p.Live pid
  · simp [live, h, pcbs pid h]
  · simp [live, h]

/-- A started process has both flags clear, and the others keep theirs. -/
theorem FlagsBody.started {frame : Frame} {parentPtr parentId : Int} {pid : Int}
    (B : FlagsBody k.proc) (h : Started frame parentPtr parentId k k' pid) :
    FlagsBody k'.proc ∧ k'.proc.pidVidmapFlag pid = 0 ∧ (k'.proc.pcb pid).vidmapFlag = 0 := by
  have hclear : (k'.proc.pcb pid).vidmapFlag = 0 := by
    obtain ⟨_, hnew⟩ := h.pcb_new
    rw [hnew]
    rfl
  have hflag : k.proc.pidVidmapFlag pid = 0 := by
    rw [B pid h.valid, if_neg fun hl => h.not_live hl.1]
  refine ⟨fun a ha => ?_, by rw [h.pidVidmapFlag, hflag], hclear⟩
  rw [h.pidVidmapFlag]
  by_cases hpid : a = pid
  · rw [hpid, hflag, hclear]
    simp
  · rw [B a ha, (h.pcb_old hpid).vidmapFlag]
    simp [h.live, hpid]

/-- A base shell with its flag clear gives up its pid. -/
theorem FlagsInv.released (I : FlagsInv (k, fresh)) (clear : k.currentPcb.vidmapFlag ≠ 1) :
    FlagsBody k.released.proc := by
  have hpcb : k.currentPcb = k.proc.pcb k.proc.currentId := I.table.currentPcb_eq
  intro a ha
  have hold : k.proc.pidVidmapFlag a =
      if k.proc.Live a ∧ (k.proc.pcb a).vidmapFlag = 1 then 1 else 0 := I.body a ha
  show k.proc.pidVidmapFlag a =
    if k.released.proc.Live a ∧ (k.proc.pcb a).vidmapFlag = 1 then 1 else 0
  rw [hold]
  by_cases hac : a = k.proc.currentId
  · have hclear : (k.proc.pcb a).vidmapFlag ≠ 1 := by rwa [hac, ← hpcb]
    simp [hclear]
  · simp [k.released_live, hac]

/-- A halt under a parent clears both flags of the process that halts. -/
theorem FlagsInv.returned (I : FlagsInv (k, fresh)) (h : Returned k k') : FlagsBody k'.proc := by
  have hpcb : k.currentPcb = k.proc.pcb k.proc.currentId := I.table.currentPcb_eq
  have hflags : k'.proc.pidVidmapFlag =
      if k.currentPcb.vidmapFlag = 1 then Function.update k.proc.pidVidmapFlag k.proc.currentId 0
      else k.proc.pidVidmapFlag := h.handed.flags
  intro a ha
  have hold : k.proc.pidVidmapFlag a =
      if k.proc.Live a ∧ (k.proc.pcb a).vidmapFlag = 1 then 1 else 0 := I.body a ha
  by_cases hac : a = k.proc.currentId
  · have hdead : ¬ (k'.proc.Live a ∧ (k'.proc.pcb a).vidmapFlag = 1) := fun hl =>
      ((h.live a).mp hl.1).2 hac
    rw [if_neg hdead, hflags, hac]
    split
    next => exact Function.update_self _ _ _
    next hclear => rw [← hac, hold, if_neg fun hl => hclear (by rw [hpcb, ← hac]; exact hl.2)]
  · have haddr : pcbAddr a ≠ k.proc.currentPcbPtr := by
      have hptr : k.proc.currentPcbPtr = pcbAddr k.proc.currentId := I.table.ptr_eq
      rw [hptr]
      exact fun e => hac (pcbAddr_inj.mp e)
    have hsame : (if k.currentPcb.vidmapFlag = 1 then
        Function.update k.proc.pidVidmapFlag k.proc.currentId 0
        else k.proc.pidVidmapFlag) a = k.proc.pidVidmapFlag a := by
      split
      next => exact Function.update_of_ne hac _ _
      next => rfl
    rw [hflags, hsame, hold, h.handed.vidmapFlag haddr]
    have hkeeps : (k.toParent.proc.pcb a).vidmapFlag = (k.proc.pcb a).vidmapFlag := rfl
    simp [h.live, hac, hkeeps]

/-- `vidmap` sets both flags of its caller. -/
theorem FlagsInv.mapped (I : FlagsInv (k, fresh)) (h : Mapped k k') : FlagsBody k'.proc := by
  have hcurrent : k.proc.Live k.proc.currentId := I.table.current
  have hptr : k.proc.currentPcbPtr = pcbAddr k.proc.currentId := I.table.ptr_eq
  have hlive : ∀ a, k'.proc.Live a ↔ k.proc.Live a := fun a => by
    simp only [Proc.Live, h.idArray]
  have hflags : k'.proc.pidVidmapFlag =
      Function.update k.proc.pidVidmapFlag k.proc.currentId 1 := by
    rw [h.proc]
  intro a ha
  have hold : k.proc.pidVidmapFlag a =
      if k.proc.Live a ∧ (k.proc.pcb a).vidmapFlag = 1 then 1 else 0 := I.body a ha
  by_cases hac : a = k.proc.currentId
  · have hset : (k'.proc.pcb a).vidmapFlag = 1 := by
      rw [h.proc, hac]
      simp [Proc.pcb, Kernel.modifyPcb, hptr]
    rw [hflags, hset, hac, Function.update_self, if_pos ⟨(hlive _).mpr hcurrent, rfl⟩]
  · have hsame : k'.proc.pcb a = k.proc.pcb a := by
      have haddr : pcbAddr a ≠ pcbAddr k.proc.currentId := fun e => hac (pcbAddr_inj.mp e)
      rw [h.proc]
      simp [Proc.pcb, Kernel.modifyPcb, hptr, Function.update_of_ne haddr]
    rw [hflags, Function.update_of_ne hac, hold, hsame]
    simp only [hlive]

theorem flagStep_some {img : FsImage} {e : ProcEvent} {s t : Kernel × Option Int}
    (h : flagStep img e s = some t) :
    procStep img e s.1 = some t.1 ∧ t.2 = noteStarted e s.1 t.1 s.2 :=
  Runs.withHistory_some h

/-- A base shell that halts with its flag set leaves the flags apart. -/
theorem FlagsInv.restart_clear {pid : Int} (I : FlagsInv (k, fresh)) (h : Restarted k k' pid)
    (agree : FlagsAgree (k', fresh')) : k.currentPcb.vidmapFlag ≠ 1 := by
  intro hset
  obtain ⟨_, hstarted⟩ := h.started
  have hpcb : k.currentPcb = k.proc.pcb k.proc.currentId := I.table.currentPcb_eq
  have hcurrent : k.proc.Live k.proc.currentId := I.table.current
  have hflag : k.proc.pidVidmapFlag k.proc.currentId = 1 := by
    have hold := I.body k.proc.currentId hcurrent.1
    rwa [if_pos ⟨hcurrent, by rw [← hpcb]; exact hset⟩] at hold
  have hstays : k'.proc.pidVidmapFlag k.proc.currentId = 1 := by
    rw [hstarted.pidVidmapFlag]
    exact hflag
  obtain ⟨hlive, hnew⟩ := (agree.1 _ hcurrent.1).mp hstays
  rcases (hstarted.live _).mp hlive with heq | hold
  · obtain ⟨_, hfresh⟩ := hstarted.pcb_new
    rw [heq, hfresh] at hnew
    cases hnew
  · exact ((k.released_live _).mp hold).2 rfl

/-- A step that leaves the flags in agreement met the condition. -/
theorem KeepsFlags.needed {img : FsImage} {e : ProcEvent} {s t : Kernel × Option Int}
    (I : FlagsInv s) (h : flagStep img e s = some t) (agree : FlagsAgree t) : KeepsFlags s e := by
  cases e with
  | halt frame status =>
    intro hbase
    cases procStep_some (flagStep_some h).1 with
    | restarted hnew => exact I.restart_clear hnew agree
    | stray hstray => exact absurd hstray I.table.not_stray
    | returned hback => exact absurd hbase hback.child
  | _ => trivial

/-- A step that meets the condition keeps the flags in agreement. -/
theorem FlagsInv.step {img : FsImage} {e : ProcEvent} {s t : Kernel × Option Int}
    (I : FlagsInv s) (allowed : flagAllowed s e) (h : flagStep img e s = some t)
    (ok : KeepsFlags s e) : FlagsInv t := by
  obtain ⟨k, fresh⟩ := s
  obtain ⟨k', fresh'⟩ := t
  obtain ⟨hstep, hnote⟩ := flagStep_some h
  dsimp only at hstep hnote
  have T : Proc.Table k'.proc := I.table.step allowed hstep
  have hbit : k.proc.idArray k.proc.currentId = 1 := I.table.current.2
  have none_new : fresh' = none → FlagsBody k'.proc → FlagsInv (k', fresh') := by
    rintro rfl B
    exact ⟨T, B, fun _ h => by cases h⟩
  have one_new : ∀ {k₀ : Kernel} {frame : Frame} {parentPtr parentId pid : Int},
      FlagsBody k₀.proc → Started frame parentPtr parentId k₀ k' pid → fresh' = some pid →
      FlagsInv (k', fresh') := by
    rintro _ _ _ _ pid B hstarted rfl
    obtain ⟨B', hflag, hpcb⟩ := B.started hstarted
    refine ⟨T, B', fun a ha => ?_⟩
    obtain rfl := Option.some.inj ha
    exact ⟨hflag, hpcb⟩
  cases procStep_some hstep with
  | noShell _ hsame | noChild _ hsame =>
    refine none_new ?_ (by rw [hsame.proc]; exact I.body)
    rw [hnote, noteStarted, hsame.proc, if_neg (by omega)]
  | shell _ hstarted | child _ hstarted =>
    refine one_new I.body hstarted ?_
    rw [hnote, noteStarted, hstarted.currentId, if_pos hstarted.free]
  | restarted hnew =>
    obtain ⟨_, hstarted⟩ := hnew.started
    refine one_new (I.released (ok hnew.base)) hstarted ?_
    rw [hnote, noteStarted, if_pos hnew.base, hstarted.currentId]
  | stray hstray => exact absurd hstray I.table.not_stray
  | returned hback =>
    refine none_new ?_ (I.returned hback)
    rw [hnote, noteStarted, if_neg hback.child]
  | notMapped _ hsame => exact none_new hnote (by rw [hsame]; exact I.body)
  | mapped _ hmapped => exact none_new hnote (I.mapped hmapped)
  | unmapped hsame | remapped hsame | switched hsame | scheduled _ hsame =>
    refine none_new hnote ?_
    rw [hsame]
    exact I.body

/-- The first shell begins with both flags clear, as every pid does. -/
theorem Booted.flagsInv {img : FsImage} {frame : Frame} {eip esp : Nat} (boot : Booted k)
    (first : initShell img frame k = some (k', .iret eip esp)) : FlagsInv (k', none) := by
  have hdead : ∀ pid, ValidPid pid → ¬ k.proc.Live pid := fun pid hpid hl => by
    have := boot.ids pid hpid
    have := hl.2
    omega
  have B : FlagsBody k.proc := fun pid hpid => by
    rw [boot.flags pid hpid, if_neg fun h => hdead pid hpid h.1]
  rcases initShell_some first with ⟨_, hexit, _⟩ | ⟨_, pid, _, _, hstarted⟩
  · cases hexit
  · exact ⟨boot.table first, (B.started hstarted).1, fun _ h => by cases h⟩

end Steps

/-- From the first shell on, the two flags agree in every state a run of calls leads through,
and every process begins with both clear, just when no base shell that has its `vidmap` flag
set halts on the way. -/
theorem vidmapFlags_along_iff {img : FsImage} {frame : Frame} {k₀ k₁ : Kernel} {eip esp : Nat}
    (boot : Booted k₀) (first : initShell img frame k₀ = some (k₁, .iret eip esp))
    (es : List ProcEvent) :
    Runs.Along (flagStep img) flagAllowed FlagsAgree (k₁, none) es ↔
      Runs.Meets (flagStep img) flagAllowed KeepsFlags (k₁, none) es :=
  Runs.along_iff_meets FlagsInv (fun _ _ _ I _ h agree => KeepsFlags.needed I h agree)
    (fun _ _ _ I allowed h ok => I.step allowed h ok) (fun _ I => I.agree) (boot.flagsInv first)

/-- The first shell runs a second one, which maps the screen and halts. -/
theorem vidmapFlags_along_child :
    ∃ k₁, initShell shellImage zeroFrame coldBoot = some (k₁, .iret 0x08048018 newUserBottom) ∧
      Runs.Along (flagStep shellImage) flagAllowed FlagsAgree (k₁, none)
        [.execute zeroFrame (some (bytes "shell")), .vidmap 0x08048000, .halt zeroFrame 0] := by
  refine ⟨_, rfl, (@vidmapFlags_along_iff shellImage zeroFrame _ _ _ _ coldBoot_booted rfl
    [.execute zeroFrame (some (bytes "shell")), .vidmap 0x08048000, .halt zeroFrame 0]).mpr ?_⟩
  rintro _ - ⟨⟩
  refine ⟨trivial, ?_⟩
  rintro _ - ⟨⟩
  refine ⟨trivial, fun _ _ _ => ⟨fun hbase => ?_, trivial⟩⟩
  have hparent : (0 : Int) = -1 := hbase
  cases hparent

/-- The first shell maps the screen and halts: the shell that takes its pid begins with the
flag of the pid set and its own clear. -/
theorem vidmapFlags_restarted :
    ∃ k₁, initShell shellImage zeroFrame coldBoot = some (k₁, .iret 0x08048018 newUserBottom) ∧
      ¬ Runs.Along (flagStep shellImage) flagAllowed FlagsAgree (k₁, none)
        [.vidmap 0x08048000, .halt zeroFrame 0] := by
  refine ⟨_, rfl, fun along => ?_⟩
  obtain ⟨_, hrest⟩ := along _ trivial rfl
  obtain ⟨agree, _⟩ := hrest _ trivial rfl
  have hflag : (1 : Int) = 0 := (agree.2 0 rfl).1
  cases hflag

end Mp3Kernel
