import Mp3Kernel.Laws.ProcessTable

/-!
# What user mode can reach

A process sees two things through the page tables: its own 4 MB frame, mapped at 128 MB,
and the text page of its terminal, mapped at 136 MB. `Mmu.Confined` says which entries may
carry the user bit and where those lead; each function of `paging.c` keeps it, whatever
the index globals still hold, and so does every process event.
-/

namespace Mp3Kernel

/-- The frames of the screen and the three back buffers. -/
def TextFrame (frame : Nat) : Prop := 0xB8 ≤ frame ∧ frame < 0xBC

instance (frame : Nat) : Decidable (TextFrame frame) := inferInstanceAs (Decidable (_ ∧ _))

/-- The four text pages. -/
def TextAddr (pa : Nat) : Prop := 0xB8000 ≤ pa ∧ pa < 0xBC000

/-- The 4 MB frame of a process. -/
def FrameAddr (pid : Int) (pa : Nat) : Prop :=
  (2 + pid) * 4194304 ≤ (pa : Int) ∧ (pa : Int) < (3 + pid) * 4194304

/-- The kernel's 4 MB frame. -/
def KernelAddr (pa : Nat) : Prop := 4194304 ≤ pa ∧ pa < 8388608

theorem termFrame_text (visTerm exeTerm : Int) : TextFrame (termFrame visTerm exeTerm) := by
  unfold termFrame backBuffer
  split
  · decide
  · split
    · decide
    · split <;> decide

namespace Mmu

/-- The entries that may carry the user bit, and where they lead while `pid` is current. -/
structure Confined (m : Mmu) (pid : Int) : Prop where
  directory : ∀ i < 1024, (m.pageDirectory i).uS = 1 → i = 32 ∨ i = 34
  user : (m.pageDirectory 32).uS = 1 →
    (m.pageDirectory 32).pageSize = 1 ∧ ((m.pageDirectory 32).pageBaseAddr : Int) = 2 + pid
  video : (m.pageDirectory 34).uS = 1 →
    (m.pageDirectory 34).pageSize = 0 ∧ (m.pageDirectory 34).ptAddr = m.pageTableVidmapFrame
  table : ∀ i < 1024, (m.pageTableVidmap i).uS = 1 →
    i = 0 ∧ TextFrame (m.pageTableVidmap i).pageBaseAddr
  indices : m.vidmapPtIdx = 0 ∧ m.userVimPtIdx = 0
  frames : m.pageTableFrame ≠ m.pageTableVidmapFrame

variable {m : Mmu} {pid : Int}

/-- What a confined table lets user mode reach. -/
theorem Confined.reaches (h : m.Confined pid) {va pa : Nat} (reach : m.UserReaches va pa) :
    FrameAddr pid pa ∨ TextAddr pa := by
  obtain ⟨_, huser, htarget⟩ := reach
  have hidx : pdIndex va < 1024 := Nat.mod_lt _ (by decide)
  rcases h.directory _ hidx huser with h32 | h34
  · rw [h32] at huser htarget
    obtain ⟨hsize, hbase⟩ := h.user huser
    rw [if_pos hsize] at htarget
    have : va % 4194304 < 4194304 := Nat.mod_lt _ (by decide)
    left
    unfold FrameAddr
    omega
  · rw [h34] at huser htarget
    obtain ⟨hsize, haddr⟩ := h.video huser
    rw [if_neg (by omega), haddr, if_neg h.frames.symm, if_pos rfl] at htarget
    obtain ⟨_, hpage, hpa⟩ := htarget
    have htext := (h.table (ptIndex va) (Nat.mod_lt _ (by decide)) hpage).2
    generalize (m.pageTableVidmap (ptIndex va)).pageBaseAddr = frame at hpa htext
    obtain ⟨hlo, hhi⟩ := htext
    have : va % 4096 < 4096 := Nat.mod_lt _ (by decide)
    right
    unfold TextAddr
    omega

/-- The frame `set_page` maps at 128 MB. -/
theorem setPage_base {q : Int} (h : ValidPid q) :
    (((m.setPage q).pageDirectory 32).pageBaseAddr : Int) = 2 + q := by
  obtain ⟨lo, hi⟩ := h
  have hu : (u32 (2 + q) : Int) = 2 + q := u32_of_range (by omega) (by omega)
  simp only [setPage, Function.update_self, PdEntry.pageBaseAddr, upperM]
  omega

theorem Confined.setPage (h : m.Confined pid) {q : Int} (hq : ValidPid q) :
    (m.setPage q).Confined q where
  directory := by
    intro i hi huser
    by_cases h32 : i = 32
    · exact .inl h32
    · refine h.directory i hi ?_
      simpa [Mmu.setPage, Function.update_of_ne h32] using huser
  user := fun _ => ⟨rfl, setPage_base hq⟩
  video := h.video
  table := h.table
  indices := h.indices
  frames := h.frames

theorem Confined.setVideoMem (h : m.Confined pid) (visTerm exeTerm : Int) :
    (m.setVideoMem oneThreeSixMb visTerm exeTerm).Confined pid where
  directory := by
    intro i hi huser
    have hpd : pdIndex oneThreeSixMb = 34 := rfl
    by_cases h34 : i = 34
    · exact .inr h34
    · refine h.directory i hi ?_
      simpa [Mmu.setVideoMem, hpd, Function.update_of_ne h34] using huser
  user := h.user
  video := fun _ => ⟨rfl, rfl⟩
  table := by
    intro i hi huser
    have hpt : ptIndex oneThreeSixMb = 0 := rfl
    simp only [Mmu.setVideoMem, hpt] at huser ⊢
    by_cases h0 : i = 0
    · rw [if_pos h0]
      exact ⟨h0, termFrame_text visTerm exeTerm⟩
    · rw [if_neg h0, if_pos hi] at huser ⊢
      exact h.table i hi huser
  indices := ⟨rfl, rfl⟩
  frames := h.frames

/-- A change to directory entries that spares what `Confined` reads of them. -/
theorem Confined.modifyDirectory (h : m.Confined pid) (i : Nat) {f : PdEntry → PdEntry}
    (keep : ∀ e, (f e).uS = e.uS ∧ (f e).pageSize = e.pageSize ∧ (f e).ptAddr = e.ptAddr) :
    (m.modifyDirectory i f).Confined pid := by
  have hentry : ∀ j, ((m.modifyDirectory i f).pageDirectory j).uS = (m.pageDirectory j).uS ∧
      ((m.modifyDirectory i f).pageDirectory j).pageSize = (m.pageDirectory j).pageSize ∧
      ((m.modifyDirectory i f).pageDirectory j).ptAddr = (m.pageDirectory j).ptAddr := by
    intro j
    by_cases hj : j = i
    · subst hj
      simpa [Mmu.modifyDirectory] using keep (m.pageDirectory j)
    · simp [Mmu.modifyDirectory, Function.update_of_ne hj]
  refine ⟨?_, ?_, ?_, h.table, h.indices, h.frames⟩
  · intro j hj huser
    exact h.directory j hj ((hentry j).1 ▸ huser)
  · intro huser
    obtain ⟨hsize, hbase⟩ := h.user ((hentry 32).1 ▸ huser)
    refine ⟨(hentry 32).2.1.trans hsize, ?_⟩
    unfold PdEntry.pageBaseAddr at hbase ⊢
    rw [(hentry 32).2.2]
    exact hbase
  · intro huser
    obtain ⟨hsize, haddr⟩ := h.video ((hentry 34).1 ▸ huser)
    exact ⟨(hentry 34).2.1.trans hsize, (hentry 34).2.2.trans haddr⟩

/-- A change to entry 0 of the video table that keeps the user bit and, if it moves the
page, moves it to a text page. -/
theorem Confined.modifyVidmap (h : m.Confined pid) {i : Nat} (hi : i = 0)
    {f : PtEntry → PtEntry} (keep : ∀ e, (f e).uS = e.uS)
    (base : ∀ e, (f e).pageBaseAddr = e.pageBaseAddr ∨ TextFrame (f e).pageBaseAddr) :
    (m.modifyVidmap i f).Confined pid := by
  subst hi
  refine ⟨h.directory, h.user, h.video, ?_, h.indices, h.frames⟩
  intro j hj huser
  by_cases hj0 : j = 0
  · subst hj0
    simp only [Mmu.modifyVidmap, Function.update_self] at huser ⊢
    obtain ⟨_, htext⟩ := h.table 0 hj ((keep _) ▸ huser)
    refine ⟨trivial, ?_⟩
    rcases base (m.pageTableVidmap 0) with hsame | hmoved
    · rwa [hsame]
    · exact hmoved
  · simp only [Mmu.modifyVidmap, Function.update_of_ne hj0] at huser ⊢
    exact h.table j hj huser

/-- The kernel's own page table carries no user bit that user mode gets to. -/
theorem Confined.setPageTable (h : m.Confined pid) (table : Nat → PtEntry) :
    { m with pageTable := table }.Confined pid :=
  ⟨h.directory, h.user, h.video, h.table, h.indices, h.frames⟩

theorem Confined.undoVidmap (h : m.Confined pid) : m.undoVidmap.Confined pid := by
  have hpage : (m.modifyVidmap m.vidmapPtIdx ({ · with present := 0 })).Confined pid :=
    h.modifyVidmap h.indices.1 (fun _ => rfl) fun _ => .inl rfl
  apply hpage.modifyDirectory
  exact fun _ => ⟨rfl, rfl, rfl⟩

theorem Confined.showUserPage (h : m.Confined pid) (flag : Int) :
    (m.showUserPage flag).Confined pid := by
  have hdir : (m.modifyDirectory m.userVimPdIdx ({ · with present := 1 })).Confined pid :=
    h.modifyDirectory m.userVimPdIdx fun _ => ⟨rfl, rfl, rfl⟩
  unfold Mmu.showUserPage
  split
  · apply h.modifyVidmap h.indices.2
    · exact fun _ => rfl
    · exact fun _ => .inl rfl
  · apply hdir.modifyVidmap h.indices.2
    · exact fun _ => rfl
    · exact fun _ => .inl rfl

theorem Confined.switchTermVim (h : m.Confined pid) (flag visTerm exeTerm : Int) :
    (m.switchTermVim flag visTerm exeTerm).Confined pid := by
  have hshown := h.showUserPage flag
  unfold Mmu.switchTermVim
  dsimp only
  split
  · apply (hshown.setPageTable _).modifyVidmap hshown.indices.2
    · exact fun _ => rfl
    · exact fun _ => .inr (termFrame_text visTerm exeTerm)
  · exact hshown.setPageTable _

/-- Paging as it starts: no user bit anywhere. -/
theorem Clear.confined (h : m.Clear) (pid : Int) : m.pagingInit.Confined pid := by
  have hdirectory : ∀ i < 1024, (m.pagingInit.pageDirectory i).uS = 0 := by
    intro i hi
    simp only [pagingInit]
    split
    · rfl
    · split
      · rfl
      · simpa [hi] using (h.directory i hi).2
  refine ⟨?_, ?_, ?_, ?_, ⟨h.indices.2.1, h.indices.2.2.2⟩, h.frames⟩
  · intro i hi huser
    rw [hdirectory i hi] at huser
    cases huser
  · intro huser
    rw [hdirectory 32 (by decide)] at huser
    cases huser
  · intro huser
    rw [hdirectory 34 (by decide)] at huser
    cases huser
  · intro i hi huser
    have hclear : (m.pagingInit.pageTableVidmap i).uS = 0 := (h.vidmap i hi).2
    rw [hclear] at huser
    cases huser

end Mmu

/-! ## The process table's part

Here the scheduler may choose any live process, a parent of live children too, so the
forest of the process table is not available. What isolation needs is less: the pids
handed to `set_page` are in range. -/

/-- A parent id `halt` can hand to `set_page`, and none only with no parent pointer. -/
def Pcb.Linked (pcb : Pcb) : Prop :=
  (pcb.parentProcessId = -1 ∧ pcb.parentPtr = 0) ∨ ValidPid pcb.parentProcessId

theorem Pcb.Linked.of_links {a b : Pcb} (h : a.Linked) (hid : b.parentProcessId = a.parentProcessId)
    (hptr : b.parentPtr = a.parentPtr) : b.Linked := by
  unfold Pcb.Linked
  rwa [hid, hptr]

namespace Proc

/-- Every PCB in use is where its pid says and names a parent in range or none. -/
structure Placed (p : Proc) : Prop where
  arr : ∀ pid, ValidPid pid → p.pcbArr pid = 0 ∨ p.pcbArr pid = pcbAddr pid
  link : ∀ pid, ValidPid pid → p.pcbArr pid ≠ 0 → (p.pcb pid).Linked
  current : p.currentId = -1 ∨ ValidPid p.currentId
  running : p.currentPcbPtr ≠ 0 → p.currentPcb.Linked

variable {p p' : Proc}

theorem Placed.pcbAt_arr (P : Placed p) {pid : Int} (valid : ValidPid pid)
    (h : p.pcbArr pid ≠ 0) : p.pcbAt (p.pcbArr pid) = p.pcb pid := by
  rcases P.arr pid valid with h0 | haddr
  · exact absurd h0 h
  · rw [haddr]
    rfl

/-- A started process leaves the table placed, whatever runs or is stale in it. -/
theorem Placed.started {frame : Frame} {parentPtr parentId : Int} {k k' : Kernel} {pid : Int}
    (arr : ∀ pid, ValidPid pid → k.proc.pcbArr pid = 0 ∨ k.proc.pcbArr pid = pcbAddr pid)
    (link : ∀ pid, ValidPid pid → k.proc.pcbArr pid ≠ 0 → (k.proc.pcb pid).Linked)
    (parent : (parentId = -1 ∧ parentPtr = 0) ∨ ValidPid parentId)
    (h : Started frame parentPtr parentId k k' pid) : Placed k'.proc := by
  obtain ⟨_, hnew⟩ := h.pcb_new
  have hlinked : (k'.proc.pcb pid).Linked :=
    Pcb.Linked.of_links (a := newPcb frame parentPtr parentId _) parent hnew.parentProcessId
      hnew.parentPtr
  refine ⟨?_, ?_, ?_, ?_⟩
  · intro a ha
    by_cases hpid : a = pid
    · simp [h.pcbArr, hpid]
    · simpa [h.pcbArr, hpid] using arr a ha
  · intro a ha hused
    by_cases hpid : a = pid
    · rwa [hpid]
    · rw [h.pcbArr, Function.update_of_ne hpid] at hused
      exact (link a ha hused).of_links (h.pcb_old hpid).parentProcessId (h.pcb_old hpid).parentPtr
  · rw [h.currentId]
    exact .inr h.valid
  · rw [currentPcb, h.currentPcbPtr]
    exact fun _ => hlinked

/-- Clearing an entry of `pcb_arr` leaves the others where they are. -/
theorem Placed.cleared (P : Placed p) (c : Int) {a : Int} (ha : ValidPid a) :
    (Function.update p.pcbArr c 0 a = 0 ∨ Function.update p.pcbArr c 0 a = pcbAddr a) ∧
      (Function.update p.pcbArr c 0 a ≠ 0 → p.pcbArr a ≠ 0) := by
  by_cases hpid : a = c
  · rw [hpid, Function.update_self]
    exact ⟨.inl rfl, fun hused => absurd rfl hused⟩
  · rw [Function.update_of_ne hpid]
    exact ⟨P.arr a ha, id⟩

/-- A halt that returns to the parent. -/
theorem Placed.returned {k k' : Kernel} (P : Placed k.proc) (h : Returned k k') :
    Placed k'.proc ∧ ValidPid k'.proc.currentId := by
  have hvalid : ValidPid k.currentPcb.parentProcessId := by
    rcases P.running h.ptr_ne with ⟨hbase, _⟩ | hvalid
    · exact absurd hbase h.child
    · exact hvalid
  have hused : k.proc.pcbArr k.currentPcb.parentProcessId ≠ 0 := h.handed.ptr_ne
  have hcur : k'.proc.currentId = k.currentPcb.parentProcessId := h.handed.current
  have hkeep : ∀ a, (k.proc.pcb a).Linked → (k'.proc.pcb a).Linked := fun a ha =>
    ha.of_links (h.handed.links a).1 (h.handed.links a).2
  have harr : k'.proc.pcbArr = Function.update k.proc.pcbArr k.proc.currentId 0 := h.handed.arr
  refine ⟨⟨?_, ?_, ?_, ?_⟩, ?_⟩
  · intro a ha
    rw [harr]
    exact (P.cleared _ ha).1
  · intro a ha hlive
    rw [harr] at hlive
    exact hkeep a (P.link a ha ((P.cleared _ ha).2 hlive))
  · rw [hcur]
    exact .inr hvalid
  · intro _
    have hptr : k'.proc.currentPcbPtr = k.proc.pcbArr k.currentPcb.parentProcessId := h.handed.ptr
    rcases P.arr _ hvalid with h0 | haddr
    · exact absurd h0 hused
    · rw [currentPcb, hptr, haddr]
      exact hkeep _ (P.link _ hvalid hused)
  · rwa [hcur]

/-- A `vidmap` that succeeds. -/
theorem Placed.mapped {k k' : Kernel} (P : Placed k.proc) (h : Mapped k k') : Placed k'.proc := by
  have hkeep : ∀ a, (k.proc.pcbAt a).Linked → (k'.proc.pcbAt a).Linked := fun a ha =>
    ha.of_links (h.keeps Pcb.parentProcessId (fun _ => rfl) a)
      (h.keeps Pcb.parentPtr (fun _ => rfl) a)
  refine ⟨?_, ?_, ?_, ?_⟩
  · rw [h.pcbArr]
    exact P.arr
  · rw [h.pcbArr]
    exact fun pid hpid hused => hkeep _ (P.link pid hpid hused)
  · rw [h.currentId]
    exact P.current
  · rw [h.currentPcbPtr, currentPcb, h.currentPcbPtr]
    exact fun hused => hkeep _ (P.running hused)

end Proc

/-! ## Runs -/

/-- What holds of every reachable state. -/
structure Isolated (k : Kernel) : Prop where
  placed : k.proc.Placed
  confined : k.mmu.Confined k.proc.currentId

theorem Booted.isolated {k : Kernel} (boot : Booted k) : Isolated k := by
  obtain ⟨m, hclear, hmmu⟩ := boot.paging
  refine ⟨⟨fun pid h => .inl (boot.pcbs pid h), ?_, .inl boot.current.1, ?_⟩, ?_⟩
  · exact fun pid h hused => absurd (boot.pcbs pid h) hused
  · exact fun hptr => absurd boot.current.2 hptr
  · rw [hmmu]
    exact hclear.confined _

theorem Isolated.started {frame : Frame} {parentPtr parentId q : Int} {k k' : Kernel} {pid : Int}
    (confined : k.mmu.Confined q) (placed : k'.proc.Placed)
    (h : Started frame parentPtr parentId k k' pid) : Isolated k' := by
  refine ⟨placed, ?_⟩
  rw [h.mmu, h.currentId]
  exact confined.setPage h.valid

/-- What one process event preserves. -/
theorem Isolated.step {img : FsImage} {e : ProcEvent} {k k' : Kernel} (I : Isolated k)
    (h : procStep img e k = some k') : Isolated k' := by
  have P := I.placed
  cases procStep_some h with
  | noShell _ hsame | noChild _ hsame =>
    refine ⟨?_, ?_⟩
    · rw [hsame.proc]
      exact P
    · rw [hsame.mmu, hsame.proc]
      exact I.confined
  | shell _ hstarted =>
    exact .started I.confined (.started P.arr P.link (.inl ⟨rfl, rfl⟩) hstarted) hstarted
  | child _ hstarted =>
    refine .started I.confined (.started P.arr P.link ?_ hstarted) hstarted
    rcases P.current with hnone | hvalid
    · exact .inl ⟨hnone, if_neg (not_not.mpr hnone)⟩
    · exact .inr hvalid
  | restarted hnew =>
    obtain ⟨_, hstarted⟩ := hnew.started
    have harr : k.released.proc.pcbArr = Function.update k.proc.pcbArr k.proc.currentId 0 := rfl
    refine .started (k := k.released) I.confined (.started ?_ ?_ (.inl ⟨rfl, rfl⟩) hstarted)
      hstarted
    · intro a ha
      rw [harr]
      exact (P.cleared _ ha).1
    · intro a ha hused
      rw [harr] at hused
      exact P.link a ha ((P.cleared _ ha).2 hused)
  | stray hstray =>
    rcases P.running hstray.ptr_ne with ⟨_, hlink⟩ | hvalid
    · exact absurd hlink hstray.parentPtr_ne
    · exact absurd hstray.base hvalid.ne_neg_one
  | returned hback =>
    obtain ⟨hplaced, hvalid⟩ := P.returned hback
    have hcur : k'.proc.currentId = k.currentPcb.parentProcessId := hback.handed.current
    rw [hcur] at hvalid
    have hpage := I.confined.setPage hvalid
    refine ⟨hplaced, ?_⟩
    rw [hback.handed.mmu, hcur]
    split
    · exact hpage.undoVidmap
    · exact hpage
  | notMapped _ hsame => rwa [hsame]
  | mapped _ hmapped =>
    refine ⟨P.mapped hmapped, ?_⟩
    rw [hmapped.mmu, hmapped.currentId]
    exact I.confined.setVideoMem _ _
  | unmapped hsame =>
    rw [hsame]
    exact ⟨P, I.confined.undoVidmap⟩
  | remapped hsame | switched hsame =>
    rw [hsame]
    exact ⟨P, I.confined.switchTermVim _ _ _⟩
  | @scheduled pid vis exe hlive hsame =>
    rw [hsame]
    refine ⟨⟨P.arr, P.link, .inr hlive.1, ?_⟩, (I.confined.setPage hlive.1).switchTermVim _ _ _⟩
    intro hused
    have := P.link pid hlive.1 hused
    rw [← P.pcbAt_arr hlive.1 hused] at this
    exact this

/-- The invariant over whole runs. -/
theorem isolated_of_run {img : FsImage} {k₀ k : Kernel} (boot : Booted k₀)
    (run : Runs.Reach (procStep img) (fun _ _ => True) k₀ k) : Isolated k :=
  run.invariant Isolated boot.isolated fun _ _ _ I _ h => I.step h

/-- User-mode isolation: in every state a run of process events reaches with a process
current, whichever live processes the scheduler chose, user mode reaches that process's
4 MB frame and the four text pages and nothing else. -/
theorem userMode_isolated {img : FsImage} {k₀ k : Kernel} (boot : Booted k₀)
    (run : Runs.Reach (procStep img) (fun _ _ => True) k₀ k) (user : k.proc.currentId ≠ -1)
    (va pa : Nat) (reach : k.mmu.UserReaches va pa) :
    (FrameAddr k.proc.currentId pa ∨ TextAddr pa) ∧ ¬ KernelAddr pa ∧
      ∀ q, k.proc.Live q → q ≠ k.proc.currentId → ¬ FrameAddr q pa := by
  have I := isolated_of_run boot run
  have hpa := I.confined.reaches reach
  have hvalid : ValidPid k.proc.currentId := by
    rcases I.placed.current with hnone | hvalid
    · exact absurd hnone user
    · exact hvalid
  obtain ⟨lo, hi⟩ := hvalid
  refine ⟨hpa, ?_, ?_⟩
  · unfold FrameAddr TextAddr at hpa
    unfold KernelAddr
    omega
  · intro q hq hne
    obtain ⟨⟨_, _⟩, _⟩ := hq
    unfold FrameAddr TextAddr at hpa
    unfold FrameAddr
    omega

/-- The first shell, after `vidmap`: its video page is the screen, which is not the
kernel's frame nor any other process's. -/
theorem userMode_isolated_vidmap :
    ∃ k, (procStep shellImage (.initShell zeroFrame) coldBoot).bind
        (procStep shellImage (.vidmap 0x08048000)) = some k ∧
      k.mmu.UserReaches 0x08800004 0xB8004 ∧ ¬ KernelAddr 0xB8004 ∧
      ∀ q, k.proc.Live q → q ≠ k.proc.currentId → ¬ FrameAddr q 0xB8004 :=
  have reach : ∃ k, Runs.Reach (procStep shellImage) (fun _ _ => True) coldBoot k ∧
      (procStep shellImage (.initShell zeroFrame) coldBoot).bind
        (procStep shellImage (.vidmap 0x08048000)) = some k ∧
      k.proc.currentId ≠ -1 ∧ k.mmu.UserReaches 0x08800004 0xB8004 :=
    ⟨_, .tail (e := .vidmap 0x08048000)
      (.tail (e := .initShell zeroFrame) .refl trivial rfl) trivial rfl, rfl,
      by decide, rfl, rfl, rfl, rfl, rfl⟩
  let ⟨k, run, hk, user, hreach⟩ := reach
  ⟨k, hk, hreach, (userMode_isolated coldBoot_booted run user _ _ hreach).2⟩

end Mp3Kernel
