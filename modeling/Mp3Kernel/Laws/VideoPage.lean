import Mp3Kernel.Laws.ProcessTable

/-!
# Whose video page is mapped

One page table serves every process's video page. `switch_term_vim` shows or hides the page
for the process it finds current, but `execute`, `init_shell` and the restart of a base shell
make another process current without going through it. So the page follows the process that
asked for it just as long as no process that has asked starts another program, halts as a
base shell, or has the page taken by a call of `undo_vidmap` of its own; and as long as the
text page is still mapped when a process asks: such a call before the first `vidmap` unmaps it,
as the index that it goes by is then 0.
-/

namespace Mp3Kernel

namespace Mmu

/-- The indices as `paging_init` and `set_video_mem` leave them; the directory index is only
known once the page has been asked for. -/
structure VideoIndices (m : Mmu) : Prop where
  vidmapPt : m.vidmapPtIdx = 0
  userVimPt : m.userVimPtIdx = 0
  vimPt : m.vimPtIdx = 0xB8

/-- The kernel's text page, mapped but for the present bit of its directory entry. -/
structure TextEntries (m : Mmu) : Prop where
  directory : (m.pageDirectory 0).pageSize = 0 ∧ (m.pageDirectory 0).ptAddr = m.pageTableFrame
  entry : (m.pageTable 0xB8).present = 1

/-- That bit too, once the indices of the user page keep it from being cleared. -/
structure TextKept (m : Mmu) : Prop where
  userVimPd : m.userVimPdIdx = 34
  vidmapPd : m.vidmapPdIdx = 34
  present : (m.pageDirectory 0).present = 1

/-- The kernel draws on the executing terminal's page. -/
def DrawsOn (m : Mmu) (visTerm exeTerm : Int) : Prop :=
  (m.pageTable 0xB8).pageBaseAddr = termFrame visTerm exeTerm

variable {m : Mmu}

/-! `set_page` is about the program's page alone. -/

theorem VideoIndices.setPage (h : m.VideoIndices) (pid : Int) : (m.setPage pid).VideoIndices :=
  ⟨h.vidmapPt, h.userVimPt, h.vimPt⟩

theorem TextEntries.setPage (h : m.TextEntries) (pid : Int) : (m.setPage pid).TextEntries :=
  ⟨h.directory, h.entry⟩

theorem TextKept.setPage (h : m.TextKept) (pid : Int) : (m.setPage pid).TextKept :=
  ⟨h.userVimPd, h.vidmapPd, h.present⟩

theorem TextEntries.modifyVidmap (h : m.TextEntries) (i : Nat) (f : PtEntry → PtEntry) :
    (m.modifyVidmap i f).TextEntries := ⟨h.directory, h.entry⟩

/-- Only the present bit of a directory entry is written again. -/
theorem TextEntries.setPresent (h : m.TextEntries) (i present : Nat) :
    (m.modifyDirectory i ({ · with present := present })).TextEntries := by
  refine ⟨?_, h.entry⟩
  unfold modifyDirectory
  dsimp only
  by_cases hi : 0 = i
  · rw [← hi, Function.update_self]
    exact h.directory
  · rw [Function.update_of_ne hi]
    exact h.directory

theorem TextEntries.undoVidmap (h : m.TextEntries) : m.undoVidmap.TextEntries :=
  (h.modifyVidmap _ _).setPresent _ _

theorem TextEntries.switchTermVim (h : m.TextEntries) (flag visTerm exeTerm : Int) :
    (m.switchTermVim flag visTerm exeTerm).TextEntries := by
  have hshown : (m.showUserPage flag).TextEntries := by
    unfold showUserPage
    split
    · exact h.modifyVidmap _ _
    · exact (h.setPresent _ _).modifyVidmap _ _
  let repointed : Mmu :=
    { m.showUserPage flag with
      pageTable := Function.update (m.showUserPage flag).pageTable (m.showUserPage flag).vimPtIdx
        { (m.showUserPage flag).pageTable (m.showUserPage flag).vimPtIdx with
          pageBaseAddr := termFrame visTerm exeTerm } }
  have hrepointed : repointed.TextEntries := by
    refine ⟨hshown.directory, Eq.trans ?_ hshown.entry⟩
    show (Function.update (m.showUserPage flag).pageTable _ _ 0xB8).present = _
    by_cases hidx : 0xB8 = (m.showUserPage flag).vimPtIdx
    · rw [← hidx, Function.update_self]
    · rw [Function.update_of_ne hidx]
  show (if flag = 1 then repointed.modifyVidmap _ _ else repointed).TextEntries
  split
  · exact hrepointed.modifyVidmap _ _
  · exact hrepointed

theorem TextKept.undoVidmap (h : m.TextKept) : m.undoVidmap.TextKept := by
  refine ⟨h.userVimPd, h.vidmapPd, ?_⟩
  have hzero : m.undoVidmap.pageDirectory 0 = m.pageDirectory 0 := by
    simp [Mmu.undoVidmap, Mmu.modifyVidmap, modifyDirectory, h.vidmapPd]
  rw [hzero]
  exact h.present

theorem TextKept.switchTermVim (h : m.TextKept) (flag visTerm exeTerm : Int) :
    (m.switchTermVim flag visTerm exeTerm).TextKept := by
  unfold Mmu.switchTermVim showUserPage
  dsimp only
  refine ⟨?_, ?_, ?_⟩
  · split <;> split <;> exact h.userVimPd
  · split <;> split <;> exact h.vidmapPd
  · split <;> split <;> simp [Mmu.modifyVidmap, modifyDirectory, h.userVimPd, h.present]

theorem VideoIndices.undoVidmap (h : m.VideoIndices) :
    ¬ m.undoVidmap.VideoAccessible ∧ m.undoVidmap.VideoIndices := by
  refine ⟨?_, ⟨h.vidmapPt, h.userVimPt, h.vimPt⟩⟩
  rintro ⟨_, hpage⟩
  simp [Mmu.undoVidmap, modifyVidmap, modifyDirectory, h.vidmapPt] at hpage

theorem videoAccessible_setVideoMem (visTerm exeTerm : Int) :
    (m.setVideoMem oneThreeSixMb visTerm exeTerm).VideoAccessible :=
  ⟨rfl, rfl⟩

theorem videoBase_setVideoMem (visTerm exeTerm : Int) :
    (m.setVideoMem oneThreeSixMb visTerm exeTerm).videoBase = termFrame visTerm exeTerm * 4096 :=
  rfl

theorem VideoIndices.switchTermVim (h : m.VideoIndices) (flag visTerm exeTerm : Int) :
    (m.switchTermVim flag visTerm exeTerm).VideoIndices := by
  unfold Mmu.switchTermVim showUserPage
  dsimp only
  split <;> split <;> exact ⟨h.vidmapPt, h.userVimPt, h.vimPt⟩

theorem VideoIndices.drawsOn (h : m.VideoIndices) (flag visTerm exeTerm : Int) :
    (m.switchTermVim flag visTerm exeTerm).DrawsOn visTerm exeTerm := by
  unfold DrawsOn
  rw [switchTermVim_pageTable, h.vimPt, Function.update_self]

/-- Hidden for a process that has not asked. -/
theorem VideoIndices.hidden (h : m.VideoIndices) (visTerm exeTerm : Int) :
    ¬ (m.switchTermVim 0 visTerm exeTerm).VideoAccessible := by
  rintro ⟨_, hpage⟩
  simp [Mmu.switchTermVim, showUserPage, modifyVidmap, h.userVimPt] at hpage

/-- On the page the kernel draws on, for one that has. -/
theorem VideoIndices.videoBase_shown (h : m.VideoIndices) (visTerm exeTerm : Int) :
    (m.switchTermVim 1 visTerm exeTerm).videoBase = termFrame visTerm exeTerm * 4096 := by
  simp [Mmu.switchTermVim, showUserPage, modifyVidmap, modifyDirectory, videoBase, h.userVimPt]

/-- Shown, on the page the kernel draws on, for one that has. -/
theorem VideoIndices.shown (h : m.VideoIndices) (hpd : m.userVimPdIdx = 34)
    (visTerm exeTerm : Int) :
    (m.switchTermVim 1 visTerm exeTerm).VideoAccessible ∧
      (m.switchTermVim 1 visTerm exeTerm).videoBase = termFrame visTerm exeTerm * 4096 := by
  refine ⟨⟨?_, ?_⟩, h.videoBase_shown visTerm exeTerm⟩
  all_goals
    simp [Mmu.switchTermVim, showUserPage, modifyVidmap, modifyDirectory, h.userVimPt, hpd]

end Mmu

/-! ## Who has asked -/

/-- Which processes have called `vidmap` since they were started. -/
abbrev Asked := Int → Bool

/-- What an event adds to that: a `vidmap` that returned 0, and a process started, which the
pid it took tells, since that was free, or in a base shell's restart always. -/
def noteAsked (e : ProcEvent) (k k' : Kernel) (asked : Asked) : Asked :=
  match e with
  | .vidmap screenStart =>
    if (vidmapHandler screenStart k).map Prod.snd = some 0 then
      Function.update asked k.proc.currentId true
    else asked
  | .initShell _ | .execute _ _ =>
    if k.proc.idArray k'.proc.currentId = 0 then Function.update asked k'.proc.currentId false
    else asked
  | .halt _ _ =>
    if k.currentPcb.parentProcessId = -1 then Function.update asked k'.proc.currentId false
    else asked
  | _ => asked

/-- The machine that remembers who has asked. -/
def videoStep (img : FsImage) : ProcEvent → Kernel × Asked → Option (Kernel × Asked) :=
  Runs.withHistory (procStep img) noteAsked

/-- The events of a run: the scheduler chooses leaves, and `switch_term_vim` is called on the
two current terminals. -/
def videoAllowed (s : Kernel × Asked) : ProcEvent → Prop
  | .remap visTerm exeTerm => visTerm = s.1.curVisTerm ∧ exeTerm = s.1.curExecuteTerm
  | e => schedulesLeaf s.1 e

/-- The user page is accessible just when the current process has asked for it, and it is
then the page that the kernel's `0xB8000` is mapped to. -/
def VideoPage (s : Kernel × Asked) : Prop :=
  (s.1.mmu.VideoAccessible ↔ s.2 s.1.proc.currentId = true) ∧
    (s.1.mmu.VideoAccessible → s.1.mmu.KernelMaps videoAddr s.1.mmu.videoBase)

/-- The condition on a step: the current process has not asked for its page if the event
starts a program, restarts a base shell, or takes the page away; and the directory entry of the
text page is present if the event is a `vidmap` that passes the range test. -/
def KeepsVideo (img : FsImage) (s : Kernel × Asked) : ProcEvent → Prop
  | .initShell frame => Launches img frame (bytes "shell") s.1 → s.2 s.1.proc.currentId = false
  | .execute frame command => LaunchesCommand img frame s.1 command → s.2 s.1.proc.currentId = false
  | .halt _ _ => s.1.currentPcb.parentProcessId = -1 → s.2 s.1.proc.currentId = false
  | .undoVidmap => s.2 s.1.proc.currentId = false
  | .vidmap screenStart => 0x08000000 ≤ screenStart ∧ screenStart ≤ 0x08400000 →
    (s.1.mmu.pageDirectory 0).present = 1
  | _ => True

/-! ## The invariant -/

/-- The flags and the page tables agree with who has asked. A process with a live child has
not: it would have started the child with its page mapped. -/
structure VideoBody (k : Kernel) (asked : Asked) : Prop where
  indices : k.mmu.VideoIndices
  draws : k.mmu.DrawsOn k.curVisTerm k.curExecuteTerm
  text : k.mmu.TextEntries
  flag : ∀ pid, ValidPid pid →
    k.proc.pidVidmapFlag pid = if k.proc.Live pid ∧ asked pid = true then 1 else 0
  pcb : ∀ pid, k.proc.Live pid → (k.proc.pcb pid).vidmapFlag = if asked pid = true then 1 else 0
  shown : ∀ pid, k.proc.Live pid → asked pid = true → k.mmu.TextKept
  waiting : ∀ a q, k.proc.Live a → k.proc.parent a = some q → asked q = false

structure VideoInv (s : Kernel × Asked) : Prop extends VideoBody s.1 s.2 where
  table : Proc.Table s.1.proc
  page : VideoPage s

variable {k k' : Kernel} {asked : Asked}

theorem Mmu.kernelAddr_videoAddr (m : Mmu) :
    m.kernelAddr videoAddr = (m.pageTable 0xB8).pageBaseAddr * 4096 := by
  have hidx : ptIndex videoAddr = 0xB8 := by decide
  have hoff : videoAddr % 4096 = 0 := by decide
  rw [Mmu.kernelAddr, Int.toNat_natCast, hidx, hoff, Nat.add_zero]

/-- The page of a process that has not asked, when it is hidden. -/
theorem VideoPage.of_hidden (hidden : ¬ k.mmu.VideoAccessible)
    (unasked : asked k.proc.currentId = false) : VideoPage (k, asked) := by
  refine ⟨⟨fun h => absurd h hidden, fun h => ?_⟩, fun h => absurd h hidden⟩
  dsimp only at h
  rw [unasked] at h
  cases h

/-- The page of a process that has asked, when it is shown on the page drawn on. -/
theorem VideoPage.of_shown {frame : Nat} (shown : k.mmu.VideoAccessible)
    (base : k.mmu.videoBase = frame * 4096) (draws : (k.mmu.pageTable 0xB8).pageBaseAddr = frame)
    (text : k.mmu.TextEntries) (present : (k.mmu.pageDirectory 0).present = 1)
    (hasked : asked k.proc.currentId = true) : VideoPage (k, asked) := by
  refine ⟨⟨fun _ => hasked, fun _ => shown⟩, fun _ => ⟨⟨present, text.directory⟩, text.entry, ?_⟩⟩
  rw [Mmu.kernelAddr_videoAddr, base, draws]

theorem VideoInv.hidden (I : VideoInv (k, asked)) (h : asked k.proc.currentId = false) :
    ¬ k.mmu.VideoAccessible := fun hacc => by
  have hasked : asked k.proc.currentId = true := I.page.1.mp hacc
  rw [h] at hasked
  cases hasked

/-- A step that leaves all this alone. -/
theorem VideoInv.same (I : VideoInv (k, asked)) (h : SameProcesses k k') :
    VideoInv (k', asked) := by
  obtain ⟨⟨indices, draws, text, flag, pcb, shown, waiting⟩, table, page⟩ := I
  refine ⟨⟨?_, ?_, ?_, ?_, ?_, ?_, ?_⟩, ?_, ?_⟩
  · rwa [h.mmu]
  · rwa [h.mmu, h.vis, h.exe]
  · rwa [h.mmu]
  · rwa [h.proc]
  · rwa [h.proc]
  · rwa [h.proc, h.mmu]
  · rwa [h.proc]
  · rwa [h.proc]
  · unfold VideoPage
    rwa [h.proc, h.mmu]

/-! ## Starting a process -/

/-- A process started by one that has not asked has not asked either. -/
theorem VideoBody.started {frame : Frame} {parentPtr parentId : Int} {pid : Int}
    (B : VideoBody k asked) (h : Started frame parentPtr parentId k k' pid)
    (caller : ∀ q, parentOf parentId = some q → asked q = false) :
    VideoBody k' (Function.update asked pid false) := by
  have hne : ∀ a, k.proc.Live a → a ≠ pid := fun a ha e => h.not_live (e ▸ ha)
  refine ⟨?_, ?_, ?_, ?_, ?_, ?_, ?_⟩
  · rw [h.mmu]
    exact B.indices.setPage pid
  · rw [h.mmu, h.vis, h.exe]
    exact B.draws
  · rw [h.mmu]
    exact B.text.setPage pid
  · intro a ha
    rw [h.pidVidmapFlag, B.flag a ha]
    by_cases hpid : a = pid
    · have hdead : ¬ k.proc.Live a := hpid ▸ h.not_live
      simp [hpid, hpid ▸ hdead]
    · simp [h.live, hpid]
  · intro a ha
    rcases (h.live a).mp ha with rfl | hold
    · obtain ⟨_, hnew⟩ := h.pcb_new
      rw [hnew.vidmapFlag]
      simp [newPcb]
    · rw [(h.pcb_old (hne a hold)).vidmapFlag, B.pcb a hold, Function.update_of_ne (hne a hold)]
  · intro a ha hasked
    rw [h.mmu]
    rcases (h.live a).mp ha with rfl | hold
    · simp at hasked
    · rw [Function.update_of_ne (hne a hold)] at hasked
      exact (B.shown a hold hasked).setPage pid
  · intro a q ha hq
    by_cases hqp : q = pid
    · rw [hqp, Function.update_self]
    · rw [Function.update_of_ne hqp]
      rcases (h.live a).mp ha with rfl | hold
      · obtain ⟨_, hnew⟩ := h.pcb_new
        refine caller q (Eq.trans ?_ hq)
        exact (congrArg parentOf hnew.parentProcessId).symm
      · refine B.waiting a q hold (Eq.trans ?_ hq)
        exact (congrArg parentOf (h.pcb_old (hne a hold)).parentProcessId).symm

/-- `set_page` is about another page. -/
theorem Started.videoAccessible {frame : Frame} {parentPtr parentId : Int} {pid : Int}
    (h : Started frame parentPtr parentId k k' pid) :
    k'.mmu.VideoAccessible ↔ k.mmu.VideoAccessible := by
  rw [h.mmu]
  rfl

/-- A start, as a whole: the page is right after it just when it was hidden before. -/
theorem VideoInv.started {frame : Frame} {parentPtr parentId : Int} {pid : Int}
    (B : VideoBody k asked) (T : Proc.Table k'.proc)
    (h : Started frame parentPtr parentId k k' pid)
    (caller : ∀ q, parentOf parentId = some q → asked q = false)
    (hidden : ¬ k.mmu.VideoAccessible) : VideoInv (k', Function.update asked pid false) := by
  refine ⟨B.started h caller, T,
    VideoPage.of_hidden (fun hacc => hidden (h.videoAccessible.mp hacc)) ?_⟩
  rw [h.currentId, Function.update_self]

/-- The other direction: a start by a process with the page mapped leaves it mapped. -/
theorem VideoPage.caller_hidden {frame : Frame} {parentPtr parentId : Int} {pid : Int}
    (h : Started frame parentPtr parentId k k' pid)
    (page : VideoPage (k', Function.update asked pid false)) : ¬ k.mmu.VideoAccessible := by
  intro hacc
  have hasked : Function.update asked pid false k'.proc.currentId = true :=
    page.1.mp (h.videoAccessible.mpr hacc)
  rw [h.currentId, Function.update_self] at hasked
  cases hasked

/-- A base shell that has not asked gives up its pid. -/
theorem VideoInv.released (I : VideoInv (k, asked)) (h : asked k.proc.currentId = false) :
    VideoBody k.released asked := by
  have hlive := k.released_live
  refine ⟨I.indices, I.draws, I.text, ?_, ?_, ?_, ?_⟩
  · intro a ha
    refine (I.flag a ha).trans ?_
    by_cases hac : a = k.proc.currentId
    · simp [hac, h]
    · simp [hlive, hac]
  · exact fun a ha => I.pcb a ((hlive a).mp ha).1
  · exact fun a ha => I.shown a ((hlive a).mp ha).1
  · exact fun a q ha => I.waiting a q ((hlive a).mp ha).1

/-! ## Halting under a parent -/

/-- The PCB's flag says whether the current process has asked. -/
theorem VideoInv.currentFlag (I : VideoInv (k, asked)) :
    k.currentPcb.vidmapFlag = if asked k.proc.currentId = true then 1 else 0 := by
  have hpcb : k.currentPcb = k.proc.pcb k.proc.currentId := I.table.currentPcb_eq
  rw [hpcb]
  exact I.pcb _ I.table.current

/-- The halting process's page is hidden, whether it was taken away or never shown. -/
theorem VideoInv.returned_hidden (I : VideoInv (k, asked)) (h : Returned k k') :
    ¬ k'.mmu.VideoAccessible ∧ k'.mmu.VideoIndices := by
  have hmmu : k'.mmu =
      if k.currentPcb.vidmapFlag = 1 then
        (k.mmu.setPage k.currentPcb.parentProcessId).undoVidmap
      else k.mmu.setPage k.currentPcb.parentProcessId := h.handed.mmu
  have hindices := I.indices.setPage k.currentPcb.parentProcessId
  rw [hmmu, I.currentFlag]
  cases hask : asked k.proc.currentId with
  | true =>
    rw [if_pos rfl, if_pos rfl]
    exact hindices.undoVidmap
  | false =>
    rw [if_neg (by decide)]
    exact ⟨I.hidden hask, hindices⟩

/-- Its pid's flag is cleared, and the others stay. -/
theorem VideoInv.returned_flag (I : VideoInv (k, asked)) (h : Returned k k') {a : Int}
    (ha : ValidPid a) :
    k'.proc.pidVidmapFlag a = if k'.proc.Live a ∧ asked a = true then 1 else 0 := by
  have hlive := h.live
  have hflags : k'.proc.pidVidmapFlag =
      if k.currentPcb.vidmapFlag = 1 then
        Function.update k.proc.pidVidmapFlag k.proc.currentId 0
      else k.proc.pidVidmapFlag := h.handed.flags
  have hold := I.flag a ha
  dsimp only at hold
  rw [hflags, I.currentFlag]
  by_cases hac : a = k.proc.currentId
  · rw [hac] at hold ⊢
    by_cases hask : asked k.proc.currentId = true
    · simp [hask, hlive]
    · simp [hask, hold]
  · by_cases hask : asked k.proc.currentId = true
    · simp [hask, hlive, hac, hold]
    · simp [hask, hlive, hac, hold]

/-- The halting process's page goes with it, and its parent has not asked for one. -/
theorem VideoInv.returned (I : VideoInv (k, asked)) (T : Proc.Table k'.proc) (h : Returned k k') :
    VideoInv (k', asked) := by
  have hup := I.table.parent_current h.child
  have hcur : k'.proc.currentId = k.currentPcb.parentProcessId := h.handed.current
  have hparent : asked k.currentPcb.parentProcessId = false := I.waiting _ _ I.table.current hup
  have hlive := h.live
  have haddr : ∀ a, a ≠ k.proc.currentId → pcbAddr a ≠ k.proc.currentPcbPtr := by
    intro a ha e
    rw [I.table.ptr_eq] at e
    exact ha (pcbAddr_inj.mp e)
  have hmmu : k'.mmu =
      if k.currentPcb.vidmapFlag = 1 then
        (k.mmu.setPage k.currentPcb.parentProcessId).undoVidmap
      else k.mmu.setPage k.currentPcb.parentProcessId := h.handed.mmu
  obtain ⟨hhidden, hindices⟩ := I.returned_hidden h
  refine ⟨⟨hindices, ?_, ?_, fun a ha => I.returned_flag h ha, ?_, ?_, ?_⟩, T,
    VideoPage.of_hidden hhidden (by rw [hcur]; exact hparent)⟩
  · have hvis : k'.curVisTerm = k.curVisTerm := h.handed.vis
    have hexe : k'.curExecuteTerm = k.curExecuteTerm := h.handed.exe
    dsimp only
    rw [hmmu, hvis, hexe]
    split <;> exact I.draws
  · have hpaged := I.text.setPage k.currentPcb.parentProcessId
    dsimp only
    rw [hmmu]
    split
    · exact hpaged.undoVidmap
    · exact hpaged
  · intro a ha
    obtain ⟨hlv, hac⟩ := (hlive a).mp ha
    rw [h.handed.vidmapFlag (haddr a hac)]
    exact I.pcb a hlv
  · intro a ha hasked
    have hold := I.shown a ((hlive a).mp ha).1 hasked
    have hpaged := hold.setPage k.currentPcb.parentProcessId
    dsimp only
    rw [hmmu]
    split
    · exact hpaged.undoVidmap
    · exact hpaged
  · intro a q ha hq
    refine I.waiting a q ((hlive a).mp ha).1 ?_
    rw [← hq]
    exact (h.handed.links a).parent.symm

/-! ## Mapping, taking away, switching -/

/-- `vidmap` maps the page drawn on, for the process that asks. -/
theorem VideoInv.mapped (I : VideoInv (k, asked)) (T : Proc.Table k'.proc) (h : Mapped k k')
    (present : (k.mmu.pageDirectory 0).present = 1) :
    VideoInv (k', Function.update asked k.proc.currentId true) := by
  have hlive : ∀ a, k'.proc.Live a ↔ k.proc.Live a := fun a => by
    simp only [Proc.Live, h.idArray]
  have hflags : k'.proc.pidVidmapFlag =
      Function.update k.proc.pidVidmapFlag k.proc.currentId 1 := by
    rw [h.proc]
  have hdraws : (k'.mmu.pageTable 0xB8).pageBaseAddr = termFrame k.curVisTerm k.curExecuteTerm := by
    rw [h.mmu]
    exact I.draws
  have hcurrent : k.proc.Live k.proc.currentId := I.table.current
  have hptr : k.proc.currentPcbPtr = pcbAddr k.proc.currentId := I.table.ptr_eq
  have htext : k'.mmu.TextEntries := by
    rw [h.mmu]
    exact ⟨I.text.directory, I.text.entry⟩
  have hkept : k'.mmu.TextKept := by
    rw [h.mmu]
    exact ⟨rfl, rfl, present⟩
  refine ⟨⟨?_, ?_, htext, ?_, ?_, fun _ _ _ => hkept, ?_⟩, T,
    VideoPage.of_shown ?_ ?_ hdraws htext hkept.present ?_⟩
  · rw [h.mmu]
    exact ⟨rfl, rfl, I.indices.vimPt⟩
  · dsimp only
    rw [h.vis, h.exe]
    exact hdraws
  · intro a ha
    dsimp only
    rw [hflags]
    by_cases hac : a = k.proc.currentId
    · simp [hac, hlive, hcurrent]
    · simpa [hac, hlive] using I.flag a ha
  · intro a ha
    dsimp only
    have hold := I.pcb a ((hlive a).mp ha)
    dsimp only at hold
    unfold Proc.pcb at hold ⊢
    rw [h.proc]
    by_cases hac : a = k.proc.currentId
    · simp [Kernel.modifyPcb, hac, hptr]
    · have haddr : pcbAddr a ≠ pcbAddr k.proc.currentId := fun e => hac (pcbAddr_inj.mp e)
      simpa [Kernel.modifyPcb, hac, hptr, haddr] using hold
  · intro a q ha hq
    dsimp only at ha hq ⊢
    have hq' : k.proc.parent a = some q := by
      rw [← hq]
      exact (congrArg parentOf (h.links a).1).symm
    have hne : q ≠ k.proc.currentId := fun e => I.table.leaf a ((hlive a).mp ha) (e ▸ hq')
    rw [Function.update_of_ne hne]
    exact I.waiting a q ((hlive a).mp ha) hq'
  · rw [h.mmu]
    exact Mmu.videoAccessible_setVideoMem _ _
  · rw [h.mmu]
    exact Mmu.videoBase_setVideoMem _ _
  · rw [h.currentId, Function.update_self]

/-- The page is taken from a process that has not asked for one. -/
theorem VideoInv.unmapped (I : VideoInv (k, asked)) (h : asked k.proc.currentId = false) :
    VideoInv (k.undoVidmap, asked) := by
  obtain ⟨hhidden, hindices⟩ := I.indices.undoVidmap
  exact ⟨⟨hindices, I.draws, I.text.undoVidmap, I.flag, I.pcb,
    fun a ha hasked => (I.shown a ha hasked).undoVidmap, I.waiting⟩, I.table,
    VideoPage.of_hidden hhidden h⟩

/-- `switch_term_vim` after a change of process or terminals settles the page for both. -/
theorem VideoBody.switchTerms (B : VideoBody k asked) (T : Proc.Table k.proc) (vis exe : Int) :
    VideoInv (k.switchTerms vis exe, asked) := by
  have hflag := B.flag _ T.current.1
  have htext := B.text.switchTermVim (k.proc.pidVidmapFlag k.proc.currentId) vis exe
  refine ⟨⟨B.indices.switchTermVim _ _ _, B.indices.drawsOn _ _ _, htext, B.flag, B.pcb,
    fun a ha hasked => (B.shown a ha hasked).switchTermVim _ vis exe, B.waiting⟩, T, ?_⟩
  · cases hask : asked k.proc.currentId with
    | true =>
      rw [if_pos ⟨T.current, hask⟩] at hflag
      have hkept := B.shown _ T.current hask
      have hshown := B.indices.shown hkept.userVimPd vis exe
      rw [← hflag] at hshown
      exact VideoPage.of_shown hshown.1 hshown.2 (B.indices.drawsOn _ vis exe) htext
        (hkept.switchTermVim _ vis exe).present hask
    | false =>
      rw [if_neg (by simp [hask])] at hflag
      have hhidden := B.indices.hidden vis exe
      rw [← hflag] at hhidden
      exact VideoPage.of_hidden hhidden hask

/-! ## Steps and runs -/

theorem videoStep_some {img : FsImage} {e : ProcEvent} {s t : Kernel × Asked}
    (h : videoStep img e s = some t) :
    procStep img e s.1 = some t.1 ∧ t.2 = noteAsked e s.1 t.1 s.2 :=
  Runs.withHistory_some h

/-- What is noted of a process just started: the pid it took was free, so it has asked for
nothing. -/
theorem Started.noteAsked {frame : Frame} {parentPtr parentId pid : Int}
    (h : Started frame parentPtr parentId k k' pid) (asked : Asked) :
    (if k.proc.idArray k'.proc.currentId = 0 then Function.update asked k'.proc.currentId false
      else asked) = Function.update asked pid false := by
  rw [h.currentId, if_pos h.free]

/-- A base shell that restarts is noted in the same way, whether or not it keeps its pid. -/
theorem Restarted.noteAsked {pid : Int} (h : Restarted k k' pid) (asked : Asked) :
    (if k.currentPcb.parentProcessId = -1 then Function.update asked k'.proc.currentId false
      else asked) = Function.update asked pid false := by
  obtain ⟨_, hstarted⟩ := h.started
  rw [if_pos h.base, hstarted.currentId]

/-- A process that keeps running has a pid that is not free. -/
theorem VideoInv.pid_used (I : VideoInv (k, asked)) (h : SameProcesses k k') :
    k.proc.idArray k'.proc.currentId ≠ 0 := by
  rw [h.proc]
  have hbit : k.proc.idArray k.proc.currentId = 1 := I.table.current.2
  omega

/-- A step that leaves the page right met the condition. -/
theorem KeepsVideo.needed {img : FsImage} {e : ProcEvent} {s t : Kernel × Asked} (I : VideoInv s)
    (h : videoStep img e s = some t) (page : VideoPage t) : KeepsVideo img s e := by
  obtain ⟨k, asked⟩ := s
  obtain ⟨k', asked'⟩ := t
  obtain ⟨hstep, hnote⟩ := videoStep_some h
  dsimp only at hstep hnote
  have hunasked : ¬ k.mmu.VideoAccessible → asked k.proc.currentId = false := by
    intro hhidden
    cases hask : asked k.proc.currentId with
    | true => exact absurd (I.page.1.mpr hask) hhidden
    | false => rfl
  cases procStep_some hstep with
  | noShell hno => exact fun hlaunch => absurd hlaunch hno
  | noChild hno => exact fun hlaunch => absurd hlaunch hno
  | @shell _ pid _ hstarted =>
    have hasked : asked' = Function.update asked pid false :=
      hnote.trans (hstarted.noteAsked asked)
    rw [hasked] at page
    exact fun _ => hunasked (VideoPage.caller_hidden hstarted page)
  | @child _ _ pid _ hstarted =>
    have hasked : asked' = Function.update asked pid false :=
      hnote.trans (hstarted.noteAsked asked)
    rw [hasked] at page
    exact fun _ => hunasked (VideoPage.caller_hidden hstarted page)
  | @restarted _ _ pid hnew =>
    obtain ⟨_, hstarted⟩ := hnew.started
    have hasked : asked' = Function.update asked pid false := hnote.trans (hnew.noteAsked asked)
    rw [hasked] at page
    have hhidden : ¬ k.mmu.VideoAccessible :=
      VideoPage.caller_hidden (k := k.released) hstarted page
    exact fun _ => hunasked hhidden
  | stray hstray => exact absurd hstray I.table.not_stray
  | returned hback => exact fun hbase => absurd hbase hback.child
  | remapped | switched | scheduled => trivial
  | notMapped hcall =>
    exact fun hrange => absurd ((vidmapHandler_range hcall).mpr hrange) (by decide)
  | mapped hcall hmapped =>
    have hacc : k'.mmu.VideoAccessible := by
      rw [hmapped.mmu]
      exact Mmu.videoAccessible_setVideoMem _ _
    have hpresent := (page.2 hacc).1.1
    dsimp only at hpresent
    rw [hmapped.mmu] at hpresent
    exact fun _ => hpresent
  | unmapped hsame =>
    obtain rfl : asked' = asked := hnote
    rw [hsame] at page
    have hhidden : ¬ k.mmu.undoVidmap.VideoAccessible := I.indices.undoVidmap.1
    show asked' k.proc.currentId = false
    cases hask : asked' k.proc.currentId with
    | true => exact absurd (page.1.mpr hask) hhidden
    | false => rfl

/-- A step that meets the condition leaves the page right, with the invariant. -/
theorem VideoInv.step {img : FsImage} {e : ProcEvent} {s t : Kernel × Asked} (I : VideoInv s)
    (allowed : videoAllowed s e) (h : videoStep img e s = some t) (ok : KeepsVideo img s e) :
    VideoInv t := by
  obtain ⟨k, asked⟩ := s
  obtain ⟨k', asked'⟩ := t
  obtain ⟨hstep, hnote⟩ := videoStep_some h
  dsimp only at hstep hnote
  have hleaf : schedulesLeaf k e := by
    cases e with
    | schedule => exact allowed
    | _ => trivial
  have T : Proc.Table k'.proc := I.table.step hleaf hstep
  have hcur : asked k.proc.currentId = false → ¬ k.mmu.VideoAccessible := I.hidden
  cases procStep_some hstep with
  | noShell _ hsame | noChild _ hsame =>
    obtain rfl : asked' = asked := hnote.trans (if_neg (I.pid_used hsame))
    exact I.same hsame
  | @shell _ pid hlaunch hstarted =>
    have hasked : asked' = Function.update asked pid false :=
      hnote.trans (hstarted.noteAsked asked)
    rw [hasked]
    exact .started I.toVideoBody T hstarted (by simp [parentOf]) (hcur (ok hlaunch))
  | @child _ _ pid hlaunch hstarted =>
    have hasked : asked' = Function.update asked pid false :=
      hnote.trans (hstarted.noteAsked asked)
    rw [hasked]
    refine .started I.toVideoBody T hstarted ?_ (hcur (ok hlaunch))
    rintro q hq
    obtain ⟨rfl, _⟩ := parentOf_eq_some.mp hq
    exact ok hlaunch
  | @restarted _ _ pid hnew =>
    obtain ⟨_, hstarted⟩ := hnew.started
    have hasked : asked' = Function.update asked pid false := hnote.trans (hnew.noteAsked asked)
    have hunasked : asked k.proc.currentId = false := ok hnew.base
    rw [hasked]
    exact .started (I.released hunasked) T hstarted (by simp [parentOf]) (hcur hunasked)
  | stray hstray => exact absurd hstray I.table.not_stray
  | returned hback =>
    obtain rfl : asked' = asked := hnote.trans (if_neg hback.child)
    exact I.returned T hback
  | notMapped hcall hsame =>
    obtain rfl : asked' = asked := by
      rw [hnote, noteAsked, hcall]
      rfl
    rwa [hsame]
  | mapped hcall hmapped =>
    have hasked : asked' = Function.update asked k.proc.currentId true := by
      rw [hnote, noteAsked, hcall]
      rfl
    rw [hasked]
    exact I.mapped T hmapped (ok ((vidmapHandler_range hcall).mp rfl))
  | unmapped hsame =>
    obtain rfl : asked' = asked := hnote
    rw [hsame]
    exact I.unmapped ok
  | remapped hsame =>
    obtain rfl : asked' = asked := hnote
    obtain ⟨rfl, rfl⟩ := allowed
    rw [hsame]
    exact I.toVideoBody.switchTerms I.table k.curVisTerm k.curExecuteTerm
  | switched hsame =>
    obtain rfl : asked' = asked := hnote
    rw [hsame]
    exact I.toVideoBody.switchTerms I.table _ _
  | @scheduled pid vis exe hlive hsame =>
    obtain rfl : asked' = asked := hnote
    rw [hsame] at T ⊢
    have B : VideoBody ((k.makeCurrent pid).setPage pid) asked' :=
      ⟨I.indices.setPage pid, I.draws, I.text.setPage pid, I.flag, I.pcb,
        fun a ha hasked => (I.shown a ha hasked).setPage pid, I.waiting⟩
    exact B.switchTerms T vis exe

/-- Before the first shell nobody has asked and the page is hidden. -/
theorem Booted.videoBody (boot : Booted k) :
    VideoBody k (fun _ => false) ∧ ¬ k.mmu.VideoAccessible := by
  obtain ⟨m, hclear, hmmu⟩ := boot.paging
  refine ⟨⟨?_, ?_, ?_, ?_, ?_, ?_, fun _ _ _ _ => rfl⟩, ?_⟩
  · rw [hmmu]
    exact ⟨hclear.indices.2.1, hclear.indices.2.2.2, rfl⟩
  · rw [hmmu, boot.terms.1, boot.terms.2]
    rfl
  · rw [hmmu]
    exact ⟨⟨rfl, rfl⟩, rfl⟩
  · intro pid hpid
    simp [boot.flags pid hpid]
  · intro pid hpid
    have := boot.ids pid hpid.1
    have := hpid.2
    omega
  · intro _ _ h
    cases h
  · rintro ⟨_, hpage⟩
    rw [hmmu] at hpage
    have hzero : (m.pagingInit.pageTableVidmap 0).present = 0 := (hclear.vidmap 0 (by decide)).1
    omega

theorem Booted.videoInv {img : FsImage} {frame : Frame} {eip esp : Nat} (boot : Booted k)
    (first : initShell img frame k = some (k', .iret eip esp)) :
    VideoInv (k', fun _ => false) := by
  obtain ⟨B, hidden⟩ := boot.videoBody
  rcases initShell_some first with ⟨_, hexit, _⟩ | ⟨_, pid, _, _, hstarted⟩
  · cases hexit
  · have hinv := VideoInv.started B (boot.table first) hstarted (by simp [parentOf]) hidden
    rwa [Function.update_eq_self] at hinv

/-- From the first shell on, the user page follows the process that asked for it, in every
state a run leads through, just when every step of the run meets `KeepsVideo`. -/
theorem videoPage_along_iff {img : FsImage} {frame : Frame} {k₀ k₁ : Kernel} {eip esp : Nat}
    (boot : Booted k₀) (first : initShell img frame k₀ = some (k₁, .iret eip esp))
    (es : List ProcEvent) :
    Runs.Along (videoStep img) videoAllowed VideoPage (k₁, fun _ => false) es ↔
      Runs.Meets (videoStep img) videoAllowed (KeepsVideo img) (k₁, fun _ => false) es :=
  Runs.along_iff_meets VideoInv (fun _ _ _ I _ h page => KeepsVideo.needed I h page)
    (fun _ _ _ I allowed h ok => I.step allowed h ok) (fun _ I => I.page) (boot.videoInv first)

/-- A shell that maps the screen and then hides it behind another terminal. -/
theorem videoPage_along_vidmap :
    ∃ k₁, initShell shellImage zeroFrame coldBoot = some (k₁, .iret 0x08048018 newUserBottom) ∧
      Runs.Along (videoStep shellImage) videoAllowed VideoPage (k₁, fun _ => false)
        [.vidmap 0x08048000, .switchTerms 1 0] :=
  ⟨_, rfl, (@videoPage_along_iff shellImage zeroFrame _ _ _ _ coldBoot_booted rfl
    [.vidmap 0x08048000, .switchTerms 1 0]).mpr
      fun _ _ _ => ⟨fun _ => rfl, fun _ _ _ => ⟨trivial, trivial⟩⟩⟩

/-- A shell that maps the screen and runs a program, which finds the screen mapped. -/
theorem videoPage_inherited :
    ∃ k₁, initShell shellImage zeroFrame coldBoot = some (k₁, .iret 0x08048018 newUserBottom) ∧
      ¬ Runs.Along (videoStep shellImage) videoAllowed VideoPage (k₁, fun _ => false)
        [.vidmap 0x08048000, .execute zeroFrame (some (bytes "shell"))] := by
  refine ⟨_, rfl, fun along => ?_⟩
  obtain ⟨_, hrest⟩ := along _ trivial rfl
  obtain ⟨page, _⟩ := hrest _ trivial rfl
  have hasked : false = true := page.1.mp ⟨rfl, rfl⟩
  cases hasked

end Mp3Kernel
