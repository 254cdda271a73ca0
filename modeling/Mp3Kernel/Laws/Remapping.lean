import Mp3Kernel.Laws.VideoPage

/-!
# What `switch_term_vim` can rely on

`switch_term_vim` writes the present bits and the frame, and takes the rest of the entries, and
the indices it finds them by, as it finds them. Which process is current, and what
`undo_vidmap` did for another, may have changed in between. What stays through all of it is
that the first `vidmap` gives the user page its rights and its place (`VideoRights`), that a
flag is never set before, and that `undo_vidmap`, called after it, takes away present bits only.
-/

namespace Mp3Kernel

namespace Mmu

/-- The first `vidmap` has been: the user page's entries are found at 136 MB, and open to the
user. -/
structure VideoRights (m : Mmu) : Prop where
  indices : m.userVimPdIdx = 34 ∧ m.vidmapPdIdx = 34
  directory : (m.pageDirectory 34).uS = 1 ∧ (m.pageDirectory 34).rW = 1
  table : (m.pageDirectory 34).pageSize = 0 ∧ (m.pageDirectory 34).ptAddr = m.pageTableVidmapFrame
  page : (m.pageTableVidmap 0).uS = 1 ∧ (m.pageTableVidmap 0).rW = 1

/-- The kernel's text page is mapped, wherever to. -/
def TextMapped (m : Mmu) : Prop := ∃ pa, m.KernelMaps videoAddr pa

/-- The page a terminal is drawn on: the screen, or its back buffer. -/
def termPage (visTerm exeTerm : Int) : Nat :=
  if visTerm = exeTerm then videoAddr else backBuffer exeTerm

theorem termFrame_page (visTerm exeTerm : Int) :
    termFrame visTerm exeTerm * 4096 = termPage visTerm exeTerm := by
  have hback : ∀ term, frameOf (backBuffer term) * 4096 = backBuffer term := by
    intro term
    unfold backBuffer
    split
    · decide
    · split <;> decide
  unfold termFrame termPage
  split
  · decide
  · exact hback exeTerm

/-! ## The two cases of a remapping -/

section Cases

variable {m : Mmu} (hindices : m.VideoIndices) (visTerm exeTerm : Int)

/-- Neither the indices nor the frames move. -/
theorem switchTermVim_kept (m : Mmu) (flag visTerm exeTerm : Int) :
    (m.switchTermVim flag visTerm exeTerm).vidmapPdIdx = m.vidmapPdIdx ∧
      (m.switchTermVim flag visTerm exeTerm).pageTableFrame = m.pageTableFrame ∧
      (m.switchTermVim flag visTerm exeTerm).pageTableVidmapFrame = m.pageTableVidmapFrame := by
  unfold switchTermVim showUserPage
  dsimp only
  split <;> split <;> exact ⟨rfl, rfl, rfl⟩

include hindices

/-- The user page is hidden for a process without the flag. -/
theorem switchTermVim_zero :
    (m.switchTermVim 0 visTerm exeTerm).pageDirectory = m.pageDirectory ∧
      (m.switchTermVim 0 visTerm exeTerm).pageTableVidmap =
        Function.update m.pageTableVidmap 0 { m.pageTableVidmap 0 with present := 0 } := by
  simp [switchTermVim, showUserPage, modifyVidmap, hindices.userVimPt]

/-- For one with the flag it is shown, on the executing terminal's page. -/
theorem switchTermVim_one (hpd : m.userVimPdIdx = 34) :
    (m.switchTermVim 1 visTerm exeTerm).pageDirectory =
        Function.update m.pageDirectory 34 { m.pageDirectory 34 with present := 1 } ∧
      (m.switchTermVim 1 visTerm exeTerm).pageTableVidmap =
        Function.update m.pageTableVidmap 0
          { m.pageTableVidmap 0 with
            present := 1, pageBaseAddr := termFrame visTerm exeTerm } := by
  simp [switchTermVim, showUserPage, modifyVidmap, modifyDirectory, hindices.userVimPt, hpd]

end Cases

/-! ## What each call keeps -/

section Kept

variable {m : Mmu}

theorem VideoRights.setPage (h : m.VideoRights) (pid : Int) : (m.setPage pid).VideoRights :=
  ⟨h.indices, h.directory, h.table, h.page⟩

theorem videoRights_setVideoMem (m : Mmu) (visTerm exeTerm : Int) :
    (m.setVideoMem oneThreeSixMb visTerm exeTerm).VideoRights :=
  ⟨⟨rfl, rfl⟩, ⟨rfl, rfl⟩, ⟨rfl, rfl⟩, ⟨rfl, rfl⟩⟩

theorem VideoRights.undoVidmap (h : m.VideoRights) (hindices : m.VideoIndices) :
    m.undoVidmap.VideoRights := by
  have hdirectory : m.undoVidmap.pageDirectory 34 = { m.pageDirectory 34 with present := 0 } := by
    simp [Mmu.undoVidmap, modifyVidmap, modifyDirectory, h.indices.2]
  have hpage : m.undoVidmap.pageTableVidmap 0 = { m.pageTableVidmap 0 with present := 0 } := by
    simp [Mmu.undoVidmap, modifyVidmap, modifyDirectory, hindices.vidmapPt]
  refine ⟨h.indices, ?_, ?_, ?_⟩
  · rw [hdirectory]
    exact h.directory
  · rw [hdirectory]
    exact h.table
  · rw [hpage]
    exact h.page

theorem VideoRights.switchTermVim (h : m.VideoRights) (hindices : m.VideoIndices) {flag : Int}
    (bit : flag = 0 ∨ flag = 1) (visTerm exeTerm : Int) :
    (m.switchTermVim flag visTerm exeTerm).VideoRights := by
  obtain ⟨hpd, -, hframe⟩ := switchTermVim_kept m flag visTerm exeTerm
  have hidx := (switchTermVim_userVimPdIdx m flag visTerm exeTerm).trans h.indices.1
  rcases bit with rfl | rfl
  · obtain ⟨hdirectory, hpage⟩ := switchTermVim_zero hindices visTerm exeTerm
    refine ⟨⟨hidx, hpd.trans h.indices.2⟩, ?_, ?_, ?_⟩
    · rw [hdirectory]
      exact h.directory
    · rw [hdirectory, hframe]
      exact h.table
    · rw [hpage, Function.update_self]
      exact h.page
  · obtain ⟨hdirectory, hpage⟩ := switchTermVim_one hindices visTerm exeTerm h.indices.1
    refine ⟨⟨hidx, hpd.trans h.indices.2⟩, ?_, ?_, ?_⟩
    · rw [hdirectory, Function.update_self]
      exact h.directory
    · rw [hdirectory, hframe, Function.update_self]
      exact h.table
    · rw [hpage, Function.update_self]
      exact h.page

theorem TextMapped.setPage (h : m.TextMapped) (pid : Int) : (m.setPage pid).TextMapped := by
  obtain ⟨pa, hmaps⟩ := h
  exact ⟨pa, hmaps⟩

theorem TextMapped.setVideoMem (h : m.TextMapped) (visTerm exeTerm : Int) :
    (m.setVideoMem oneThreeSixMb visTerm exeTerm).TextMapped := by
  obtain ⟨pa, hmaps⟩ := h
  exact ⟨pa, hmaps⟩

/-- `undo_vidmap` clears an entry at 136 MB, once the first `vidmap` has set the index. -/
theorem TextMapped.undoVidmap (h : m.TextMapped) (hrights : m.VideoRights) :
    m.undoVidmap.TextMapped := by
  obtain ⟨pa, hmaps⟩ := h
  have hzero : m.undoVidmap.pageDirectory 0 = m.pageDirectory 0 := by
    simp [Mmu.undoVidmap, modifyVidmap, modifyDirectory, hrights.indices.2]
  refine ⟨pa, ?_, hmaps.2⟩
  rw [hzero]
  exact hmaps.1

/-- A remapping maps the text page to the executing terminal's. -/
theorem TextMapped.switchTermVim (h : m.TextMapped) (hindices : m.VideoIndices) {flag : Int}
    (bit : flag = 0 ∨ (flag = 1 ∧ m.VideoRights)) (visTerm exeTerm : Int) :
    (m.switchTermVim flag visTerm exeTerm).KernelMaps videoAddr (termPage visTerm exeTerm) := by
  obtain ⟨pa, hdirectory, hpresent, -⟩ := h
  have hidx : ptIndex videoAddr = 0xB8 := by decide
  have hentry : (m.switchTermVim flag visTerm exeTerm).pageTable 0xB8 =
      { m.pageTable 0xB8 with pageBaseAddr := termFrame visTerm exeTerm } := by
    rw [switchTermVim_pageTable, hindices.vimPt, Function.update_self]
  rw [hidx] at hpresent
  refine ⟨?_, ?_, ?_⟩
  · rw [(switchTermVim_kept m flag visTerm exeTerm).2.1]
    rcases bit with rfl | ⟨rfl, hrights⟩
    · rw [(switchTermVim_zero hindices visTerm exeTerm).1]
      exact hdirectory
    · rw [(switchTermVim_one hindices visTerm exeTerm hrights.indices.1).1,
        Function.update_of_ne (by decide)]
      exact hdirectory
  · rw [hidx, hentry]
    exact hpresent
  · rw [Mmu.kernelAddr_videoAddr, hentry]
    exact termFrame_page visTerm exeTerm

end Kept

end Mmu

/-! ## Any history of calls -/

/-- What a call finds current: a process, and the two terminals. -/
structure Setting where
  currentId : Int
  currentPcbPtr : Int
  visTerm : Int
  exeTerm : Int

/-- The state with other things current. -/
def Kernel.under (c : Setting) (k : Kernel) : Kernel :=
  { k with
    proc := { k.proc with currentId := c.currentId, currentPcbPtr := c.currentPcbPtr }
    curVisTerm := c.visTerm
    curExecuteTerm := c.exeTerm }

inductive PagingCall
  | setPage (pid : Int)
  | vidmap (screenStart : Nat)
  | undoVidmap
  | switchTermVim (visTerm exeTerm : Int)
  /-- `halt` takes the page of a process that has it, and clears its flag. -/
  | haltVidmap (pid currPcb : Int)

/-- One call, with anything current. -/
def pagingStep (e : Setting × PagingCall) (k : Kernel) : Option Kernel :=
  match e.2 with
  | .setPage pid => some ((k.under e.1).setPage pid)
  | .vidmap screenStart => (vidmapHandler screenStart (k.under e.1)).map Prod.fst
  | .undoVidmap => some (k.under e.1).undoVidmap
  | .switchTermVim visTerm exeTerm => some ((k.under e.1).switchTermVim visTerm exeTerm)
  | .haltVidmap pid currPcb => some (haltVidmap pid currPcb (k.under e.1))

/-- Whether some `vidmap` has returned 0. -/
def noteMapped (e : Setting × PagingCall) (k _k' : Kernel) (mapped : Bool) : Bool :=
  match e.2 with
  | .vidmap screenStart =>
    mapped || (vidmapHandler screenStart (k.under e.1)).map Prod.snd == some 0
  | _ => mapped

/-- A process of the table is current, and the page is taken away only after it was given. -/
def pagingAllowed (s : Kernel × Bool) (e : Setting × PagingCall) : Prop :=
  ValidPid e.1.currentId ∧
    match e.2 with
    | .undoVidmap | .haltVidmap _ _ => s.2 = true
    | _ => True

/-- The machine that remembers whether some `vidmap` has been. -/
def remapStep : Setting × PagingCall → Kernel × Bool → Option (Kernel × Bool) :=
  Runs.withHistory pagingStep noteMapped

/-- The state `paging_init` leaves, with no flag set. -/
structure PagingStart (k : Kernel) : Prop where
  paging : ∃ m : Mmu, m.Clear ∧ k.mmu = m.pagingInit
  flags : ∀ pid, ValidPid pid → k.proc.pidVidmapFlag pid = 0

/-- What every history keeps. -/
structure PagingInv (s : Kernel × Bool) : Prop where
  indices : s.1.mmu.VideoIndices
  text : s.1.mmu.TextMapped
  flags : ∀ pid, ValidPid pid →
    s.1.proc.pidVidmapFlag pid = 0 ∨ (s.1.proc.pidVidmapFlag pid = 1 ∧ s.2 = true)
  rights : s.2 = true → s.1.mmu.VideoRights

section History

variable {k k' : Kernel} {mapped : Bool}

theorem PagingStart.inv (h : PagingStart k) : PagingInv (k, false) := by
  obtain ⟨⟨m, hclear, hmmu⟩, hflags⟩ := h
  refine ⟨?_, ?_, fun pid hpid => .inl (hflags pid hpid), nofun⟩
  · show k.mmu.VideoIndices
    rw [hmmu]
    exact ⟨hclear.indices.2.1, hclear.indices.2.2.2, rfl⟩
  · show k.mmu.TextMapped
    rw [hmmu]
    exact ⟨_, ⟨rfl, rfl, rfl⟩, rfl, rfl⟩

/-- A flag is a bit, and set only after some `vidmap`. -/
theorem PagingInv.bit (I : PagingInv (k, mapped)) {pid : Int} (h : ValidPid pid) :
    k.proc.pidVidmapFlag pid = 0 ∨
      (k.proc.pidVidmapFlag pid = 1 ∧ k.mmu.VideoRights) := by
  rcases I.flags pid h with hzero | ⟨hone, hmapped⟩
  · exact .inl hzero
  · exact .inr ⟨hone, I.rights hmapped⟩

theorem PagingInv.under (I : PagingInv (k, mapped)) (c : Setting) :
    PagingInv (k.under c, mapped) := ⟨I.indices, I.text, I.flags, I.rights⟩

theorem PagingInv.setPage (I : PagingInv (k, mapped)) (pid : Int) :
    PagingInv (k.setPage pid, mapped) :=
  ⟨⟨I.indices.vidmapPt, I.indices.userVimPt, I.indices.vimPt⟩, I.text.setPage pid, I.flags,
    fun h => (I.rights h).setPage pid⟩

theorem PagingInv.undoVidmap (I : PagingInv (k, true)) : PagingInv (k.undoVidmap, true) :=
  ⟨I.indices.undoVidmap.2, I.text.undoVidmap (I.rights rfl), I.flags,
    fun _ => (I.rights rfl).undoVidmap I.indices⟩

theorem PagingInv.switchTermVim (I : PagingInv (k, mapped)) (cur : ValidPid k.proc.currentId)
    (visTerm exeTerm : Int) : PagingInv (k.switchTermVim visTerm exeTerm, mapped) := by
  have hbit := I.bit cur
  refine ⟨I.indices.switchTermVim _ visTerm exeTerm, ?_, I.flags, fun h => ?_⟩
  · exact ⟨_, I.text.switchTermVim I.indices hbit visTerm exeTerm⟩
  · exact (I.rights h).switchTermVim I.indices (hbit.imp_right And.left) visTerm exeTerm

/-- A `vidmap` that returns 0 gives the page its rights and sets a flag. -/
theorem PagingInv.vidmapped (I : PagingInv (k, mapped)) (h : Mapped k k') :
    PagingInv (k', true) := by
  refine ⟨?_, ?_, fun pid hpid => ?_, fun _ => ?_⟩
  · show k'.mmu.VideoIndices
    rw [h.mmu]
    exact ⟨rfl, rfl, I.indices.vimPt⟩
  · show k'.mmu.TextMapped
    rw [h.mmu]
    exact I.text.setVideoMem _ _
  · show k'.proc.pidVidmapFlag pid = 0 ∨ (k'.proc.pidVidmapFlag pid = 1 ∧ true = true)
    rw [h.proc]
    dsimp only
    by_cases hcur : pid = k.proc.currentId
    · rw [hcur, Function.update_self]
      exact .inr ⟨rfl, rfl⟩
    · rw [Function.update_of_ne hcur]
      exact (I.flags pid hpid).imp_right fun hone => ⟨hone.1, rfl⟩
  · show k'.mmu.VideoRights
    rw [h.mmu]
    exact k.mmu.videoRights_setVideoMem _ _

theorem PagingInv.haltVidmap (I : PagingInv (k, true)) (pid currPcb : Int) :
    PagingInv (haltVidmap pid currPcb k, true) := by
  unfold Mp3Kernel.haltVidmap
  split
  next =>
    obtain ⟨hindices, htext, hflags, hrights⟩ := I.undoVidmap
    refine ⟨hindices, htext, fun a ha => ?_, hrights⟩
    show Function.update k.proc.pidVidmapFlag pid 0 a = 0 ∨
      (Function.update k.proc.pidVidmapFlag pid 0 a = 1 ∧ true = true)
    by_cases hpid : a = pid
    · exact .inl (hpid ▸ Function.update_self _ _ _)
    · rw [Function.update_of_ne hpid]
      exact hflags a ha
  next => exact I

/-- One call. -/
theorem PagingInv.step {s s' : Kernel × Bool} {e : Setting × PagingCall} (I : PagingInv s)
    (ok : pagingAllowed s e) (h : remapStep e s = some s') : PagingInv s' := by
  obtain ⟨hstep, hnote⟩ := Runs.withHistory_some h
  obtain ⟨k, mapped⟩ := s
  obtain ⟨k', mapped'⟩ := s'
  obtain ⟨c, call⟩ := e
  obtain ⟨cur, hok⟩ := ok
  have J := I.under c
  cases call with
  | setPage pid =>
    obtain rfl := Option.some.inj hstep
    obtain rfl : mapped' = mapped := hnote
    exact J.setPage pid
  | vidmap screenStart =>
    obtain ⟨⟨k₁, eax⟩, hcall, hk⟩ := Option.map_eq_some_iff.mp hstep
    obtain rfl : k₁ = k' := hk
    obtain rfl : mapped' = (mapped || (vidmapHandler screenStart (k.under c)).map Prod.snd == some 0)
      := hnote
    rw [hcall]
    rcases vidmapHandler_some hcall with ⟨rfl, rfl⟩ | ⟨rfl, hmapped⟩
    · have hnote : (mapped || (some ((k.under c, (-1 : Int)).2) == some 0)) = mapped :=
        Bool.or_false mapped
      exact hnote.symm ▸ J
    · have hnote : (mapped || (some ((k₁, (0 : Int)).2) == some 0)) = true := Bool.or_true mapped
      exact hnote.symm ▸ J.vidmapped hmapped
  | undoVidmap =>
    obtain rfl := Option.some.inj hstep
    obtain rfl : mapped = true := hok
    obtain rfl : mapped' = true := hnote
    exact J.undoVidmap
  | switchTermVim visTerm exeTerm =>
    obtain rfl := Option.some.inj hstep
    obtain rfl : mapped' = mapped := hnote
    exact J.switchTermVim cur visTerm exeTerm
  | haltVidmap pid currPcb =>
    obtain rfl := Option.some.inj hstep
    obtain rfl : mapped = true := hok
    obtain rfl : mapped' = true := hnote
    exact J.haltVidmap pid currPcb

/-- Any history. -/
theorem PagingInv.run {k₀ : Kernel} {s : Kernel × Bool} (start : PagingStart k₀)
    (run : Runs.Reach remapStep pagingAllowed (k₀, false) s) : PagingInv s :=
  run.invariant PagingInv start.inv fun _ _ _ I ok h => I.step ok h

end History

/-! ## What it re-establishes -/

/-- The user page is open to the user, on the page the kernel draws on. -/
structure Mmu.SharesVideo (m : Mmu) : Prop where
  directory : (m.pageDirectory 34).uS = 1 ∧ (m.pageDirectory 34).rW = 1
  table : (m.pageDirectory 34).pageSize = 0 ∧ (m.pageDirectory 34).ptAddr = m.pageTableVidmapFrame
  page : (m.pageTableVidmap 0).uS = 1 ∧ (m.pageTableVidmap 0).rW = 1
  base : m.videoBase = m.kernelAddr videoAddr

/-- Both mappings are right after `switch_term_vim`, and nothing else has changed. -/
structure Reestablishes (visTerm exeTerm : Int) (k k' : Kernel) : Prop where
  kernel : k'.mmu.KernelMaps videoAddr (Mmu.termPage visTerm exeTerm)
  accessible : k'.mmu.VideoAccessible ↔ k.proc.pidVidmapFlag k.proc.currentId = 1
  shares : k'.mmu.VideoAccessible → k'.mmu.SharesVideo
  pageTable : ∀ i, i ≠ 0xB8 → k'.mmu.pageTable i = k.mmu.pageTable i
  pageTableVidmap : ∀ i, i ≠ 0 → k'.mmu.pageTableVidmap i = k.mmu.pageTableVidmap i
  pageDirectory : ∀ i, i ≠ 34 → k'.mmu.pageDirectory i = k.mmu.pageDirectory i
  entry : ∃ present, k'.mmu.pageDirectory 34 = { k.mmu.pageDirectory 34 with present := present }

theorem PagingInv.reestablishes {k : Kernel} {mapped : Bool} (I : PagingInv (k, mapped))
    (cur : ValidPid k.proc.currentId) (visTerm exeTerm : Int) :
    Reestablishes visTerm exeTerm k (k.switchTermVim visTerm exeTerm) := by
  have hbit := I.bit cur
  have hkernel := I.text.switchTermVim I.indices hbit visTerm exeTerm
  have htable : ∀ i, i ≠ 0xB8 →
      (k.switchTermVim visTerm exeTerm).mmu.pageTable i = k.mmu.pageTable i := by
    intro i hi
    show (k.mmu.switchTermVim _ visTerm exeTerm).pageTable i = _
    rw [Mmu.switchTermVim_pageTable, I.indices.vimPt]
    exact Function.update_of_ne hi _ _
  unfold Kernel.switchTermVim at htable ⊢
  rcases hbit with hflag | ⟨hflag, hrights⟩
  · rw [hflag] at hkernel htable ⊢
    obtain ⟨hdirectory, hpage⟩ := Mmu.switchTermVim_zero I.indices visTerm exeTerm
    have hhidden := I.indices.hidden visTerm exeTerm
    refine ⟨hkernel, ?_, fun h => absurd h hhidden, htable, fun i hi => ?_, fun i _ => ?_, ?_⟩
    · rw [hflag]
      exact iff_of_false hhidden (by decide)
    · rw [hpage]
      exact Function.update_of_ne hi _ _
    · rw [hdirectory]
    · exact ⟨_, congrFun hdirectory 34⟩
  · rw [hflag] at hkernel htable ⊢
    obtain ⟨hdirectory, hpage⟩ :=
      Mmu.switchTermVim_one I.indices visTerm exeTerm hrights.indices.1
    obtain ⟨hshown, hbase⟩ := I.indices.shown hrights.indices.1 visTerm exeTerm
    have hkept := hrights.switchTermVim I.indices (.inr rfl) visTerm exeTerm
    refine ⟨hkernel, ?_, fun _ => ⟨hkept.directory, hkept.table, hkept.page, ?_⟩, htable,
      fun i hi => ?_, fun i hi => ?_, 1, ?_⟩
    · rw [hflag]
      exact iff_of_true hshown rfl
    · rw [hbase, Mmu.termFrame_page]
      exact hkernel.2.2.symm
    · rw [hpage]
      exact Function.update_of_ne hi _ _
    · rw [hdirectory]
      exact Function.update_of_ne hi _ _
    · rw [hdirectory]
      exact Function.update_self _ _ _

/-- Whatever calls have been made since `paging_init`, and whoever is current,
`switch_term_vim` leaves both mappings right. -/
theorem switchTermVim_reestablishes {k₀ k : Kernel} {mapped : Bool} (start : PagingStart k₀)
    (run : Runs.Reach remapStep pagingAllowed (k₀, false) (k, mapped)) {c : Setting}
    (cur : ValidPid c.currentId) (visTerm exeTerm : Int) :
    Reestablishes visTerm exeTerm (k.under c) ((k.under c).switchTermVim visTerm exeTerm) :=
  ((PagingInv.run start run).under c).reestablishes cur visTerm exeTerm

theorem coldBoot_pagingStart : PagingStart coldBoot :=
  ⟨coldBoot_booted.paging, coldBoot_booted.flags⟩

/-- Process 0 is current, on the terminal shown. -/
def firstSetting : Setting := ⟨0, pcbAddr 0, 0, 0⟩

/-- It has called `vidmap`. -/
def screenMapped : Kernel :=
  ((vidmapHandler 0x08000000 (coldBoot.under firstSetting)).map Prod.fst).getD coldBoot

theorem remapStep_vidmap :
    remapStep (firstSetting, .vidmap 0x08000000) (coldBoot, false) = some (screenMapped, true) :=
  rfl

/-- Scheduled on terminal 1 while terminal 0 is shown, it has its page on the back buffer. -/
theorem switchTermVim_reestablishes_back :
    Reestablishes 0 1 (screenMapped.under firstSetting)
      ((screenMapped.under firstSetting).switchTermVim 0 1) :=
  switchTermVim_reestablishes coldBoot_pagingStart
    (.tail .refl ⟨by decide, trivial⟩ remapStep_vidmap) (by decide) 0 1

end Mp3Kernel
