import Mp3Kernel.Kernel.State

/-!
# Paging (`paging.c`)

The functions that write the page directory and the two page tables, and the
address translation the rest of the kernel relies on. The two arms of the
directory entry's union overlay the same 32 bits, so `PdEntry` is one record and
the `m` arm's upper bits are packed by `upperM`.
-/

namespace Mp3Kernel

/-- `VIDEO_ADDR`, and `VIDEO` of `lib.c`. -/
def videoAddr : Nat := 0xB8000

/-- `BB1_ADDR`. -/
def bb1Addr : Nat := 0xB9000

/-- `BB2_ADDR`. -/
def bb2Addr : Nat := 0xBA000

/-- `BB3_ADDR`. -/
def bb3Addr : Nat := 0xBB000

/-- The back buffer the chains on `cur_execute_term` pick. -/
def backBuffer (term : Int) : Nat :=
  if term = 0 then bb1Addr else if term = 1 then bb2Addr else bb3Addr

/-- `(addr >> BIT_SHIFT_TWELVE) & TEN_BITS`: the page-table index of an address. -/
def ptIndex (addr : Nat) : Nat := addr / 4096 % 1024

/-- `(addr >> BIT_SHIFT_TWENTY_TWO) & TEN_BITS`: the page-directory index of an address. -/
def pdIndex (addr : Nat) : Nat := addr / 4194304 % 1024

/-- `(addr >> BIT_SHIFT_TWELVE) & TWENTY_BITS`: the frame of a physical address. -/
def frameOf (addr : Nat) : Nat := addr / 4096 % 1048576

/-- A page-table entry with every bit clear. -/
def PtEntry.zero : PtEntry := ⟨0, 0, 0, 0, 0, 0, 0, 0, 0, 0, 0⟩

/-- The entry `paging_init` writes for each of the four text pages. -/
def kernelPage (addr : Nat) : PtEntry :=
  { present := 1, rW := 1, uS := 0, pwt := 0, pcd := 0, accessed := 0, dirty := 0, pat := 0,
    globalBit := 1, avail := 0, pageBaseAddr := frameOf addr }

/-- The frame that both `set_video_mem` and `switch_term_vim` pick: the screen when the
two terminals are one, the executing terminal's back buffer otherwise. -/
def termFrame (visTerm exeTerm : Int) : Nat :=
  if visTerm = exeTerm then frameOf videoAddr else frameOf (backBuffer exeTerm)

namespace Mmu

/-- `paging_init`. -/
def pagingInit (m : Mmu) : Mmu :=
  let temp := ptIndex videoAddr
  let bb1 := ptIndex bb1Addr
  let bb2 := ptIndex bb2Addr
  let bb3 := ptIndex bb3Addr
  { m with
    vimPtIdx := temp
    pageTable := fun i =>
      if i = temp then kernelPage videoAddr
      else if i = bb1 then kernelPage bb1Addr
      else if i = bb2 then kernelPage bb2Addr
      else if i = bb3 then kernelPage bb3Addr
      else if i < 1024 then PtEntry.zero
      else m.pageTable i
    pageDirectory := fun i =>
      if i = 0 then
        { present := 1, rW := 1, uS := 0, pwt := 0, pcd := 0, accessed := 0, dirty := 0,
          pageSize := 0, globalBit := 1, avail := 0, ptAddr := m.pageTableFrame }
      else if i = 1 then
        { present := 1, rW := 1, uS := 0, pwt := 0, pcd := 0, accessed := 0, dirty := 0,
          pageSize := 1, globalBit := 0, avail := 0, ptAddr := upperM 0 0 1 }
      else if i < 1024 then { m.pageDirectory i with present := 0 }
      else m.pageDirectory i }

/-- `set_page`: the 4 MB page at 128 MB. -/
def setPage (pid : Int) (m : Mmu) : Mmu :=
  { m with
    pageDirectory := Function.update m.pageDirectory 32
      { present := 1, rW := 1, uS := 1, pwt := 0, pcd := 0, accessed := 0, dirty := 0,
        pageSize := 1, globalBit := 0, avail := 0, ptAddr := upperM 0 0 (u32 (2 + pid)) } }

/-- `set_video_mem`, given the value of `*screen_start` and the two terminals. -/
def setVideoMem (memAddr : Nat) (visTerm exeTerm : Int) (m : Mmu) : Mmu :=
  let videoMemPdIdx := pdIndex memAddr
  let temp := ptIndex memAddr
  { m with
    userVimPdIdx := videoMemPdIdx
    userVimPtIdx := temp
    pageTableVidmap := fun i =>
      if i = temp then
        { present := 1, rW := 1, uS := 1, pwt := 0, pcd := 0, accessed := 0, dirty := 0,
          pat := 0, globalBit := 1, avail := 0, pageBaseAddr := termFrame visTerm exeTerm }
      else if i < 1024 then { m.pageTableVidmap i with present := 0 }
      else m.pageTableVidmap i
    pageDirectory := Function.update m.pageDirectory videoMemPdIdx
      { present := 1, rW := 1, uS := 1, pwt := 0, pcd := 0, accessed := 0, dirty := 0,
        pageSize := 0, globalBit := 1, avail := 0, ptAddr := m.pageTableVidmapFrame }
    vidmapPtIdx := temp
    vidmapPdIdx := videoMemPdIdx }

/-- Rewrites one entry of `page_table_vidmap`. -/
def modifyVidmap (i : Nat) (f : PtEntry → PtEntry) (m : Mmu) : Mmu :=
  { m with pageTableVidmap := Function.update m.pageTableVidmap i (f (m.pageTableVidmap i)) }

/-- Rewrites one entry of `page_directory`. -/
def modifyDirectory (i : Nat) (f : PdEntry → PdEntry) (m : Mmu) : Mmu :=
  { m with pageDirectory := Function.update m.pageDirectory i (f (m.pageDirectory i)) }

/-- `undo_vidmap`. -/
def undoVidmap (m : Mmu) : Mmu :=
  (m.modifyVidmap m.vidmapPtIdx ({ · with present := 0 })).modifyDirectory m.vidmapPdIdx
    ({ · with present := 0 })

/-- The first test of `switch_term_vim`: the user page is hidden or shown. -/
def showUserPage (flag : Int) (m : Mmu) : Mmu :=
  if flag = 0 then m.modifyVidmap m.userVimPtIdx ({ · with present := 0 })
  else
    (m.modifyDirectory m.userVimPdIdx ({ · with present := 1 })).modifyVidmap m.userVimPtIdx
      ({ · with present := 1 })

/-- `switch_term_vim`, given `pid_vidmap_flag[current_id]`. Its four branches differ in
the frame alone. -/
def switchTermVim (flag : Int) (visTerm exeTerm : Int) (m : Mmu) : Mmu :=
  let m := m.showUserPage flag
  let frame := termFrame visTerm exeTerm
  let m :=
    { m with
      pageTable := Function.update m.pageTable m.vimPtIdx
        { m.pageTable m.vimPtIdx with pageBaseAddr := frame } }
  if flag = 1 then m.modifyVidmap m.userVimPtIdx ({ · with pageBaseAddr := frame }) else m

/-! ## Remapping -/

section Remapping

variable (m : Mmu) (flag visTerm exeTerm : Int)

theorem switchTermVim_pageTable :
    (m.switchTermVim flag visTerm exeTerm).pageTable =
      Function.update m.pageTable m.vimPtIdx
        { m.pageTable m.vimPtIdx with pageBaseAddr := termFrame visTerm exeTerm } := by
  unfold switchTermVim showUserPage
  dsimp only
  split <;> split <;> rfl

theorem switchTermVim_vimPtIdx :
    (m.switchTermVim flag visTerm exeTerm).vimPtIdx = m.vimPtIdx := by
  unfold switchTermVim showUserPage
  dsimp only
  split <;> split <;> rfl

theorem switchTermVim_userVimPdIdx :
    (m.switchTermVim flag visTerm exeTerm).userVimPdIdx = m.userVimPdIdx := by
  unfold switchTermVim showUserPage
  dsimp only
  split <;> split <;> rfl

/-- A remapping undoes the one before it. -/
theorem switchTermVim_again (vis exe : Int) :
    (m.switchTermVim flag vis exe).switchTermVim flag visTerm exeTerm =
      m.switchTermVim flag visTerm exeTerm := by
  by_cases hzero : flag = 0
  · subst hzero
    simp [switchTermVim, showUserPage, modifyVidmap, Function.update_idem]
  · by_cases hone : flag = 1
    · subst hone
      simp [switchTermVim, showUserPage, modifyVidmap, modifyDirectory, Function.update_idem]
    · simp [switchTermVim, showUserPage, modifyVidmap, modifyDirectory, hzero, hone,
        Function.update_idem]

end Remapping

/-! ## Translation -/

/-- Where the kernel's accesses below 4 MB land: `page_directory[0]` holds `page_table`,
and no function of the source repoints it. -/
def kernelAddr (m : Mmu) (va : Int) : Nat :=
  (m.pageTable (ptIndex va.toNat)).pageBaseAddr * 4096 + va.toNat % 4096

/-- The kernel's own walk: `page_directory[0]`, and the entry of `page_table`. -/
def KernelMaps (m : Mmu) (va pa : Nat) : Prop :=
  ((m.pageDirectory 0).present = 1 ∧ (m.pageDirectory 0).pageSize = 0 ∧
      (m.pageDirectory 0).ptAddr = m.pageTableFrame) ∧
    (m.pageTable (ptIndex va)).present = 1 ∧ m.kernelAddr va = pa

/-- The physical address of the 4 MB page at 128 MB. -/
def userBase (m : Mmu) : Nat := (m.pageDirectory 32).pageBaseAddr * 4194304

/-- The user page at 136 MB can be reached: both levels are present. -/
def VideoAccessible (m : Mmu) : Prop :=
  (m.pageDirectory 34).present = 1 ∧ (m.pageTableVidmap 0).present = 1

instance (m : Mmu) : Decidable m.VideoAccessible := inferInstanceAs (Decidable (_ ∧ _))

/-- The physical page of the user page at 136 MB. -/
def videoBase (m : Mmu) : Nat := (m.pageTableVidmap 0).pageBaseAddr * 4096

/-- Where a byte of the current process's memory is: in its 4 MB page, or in the video page. -/
def userAddr (m : Mmu) (va : Nat) : Option Nat :=
  if 0x08000000 ≤ va ∧ va < 0x08400000 then some (m.userBase + (va - 0x08000000))
  else if (0x08800000 ≤ va ∧ va < 0x08801000) ∧ m.VideoAccessible then
    some (m.videoBase + (va - 0x08800000))
  else none

/-- The page tables as the hardware walks them for an access from user mode: each level
present and marked `u_s`. A directory entry that points at neither table could reach
anything, so it is taken to. -/
def UserReaches (m : Mmu) (va pa : Nat) : Prop :=
  let pde := m.pageDirectory (pdIndex va)
  pde.present = 1 ∧ pde.uS = 1 ∧
    if pde.pageSize = 1 then pa = pde.pageBaseAddr * 4194304 + va % 4194304
    else if pde.ptAddr = m.pageTableFrame then
      (m.pageTable (ptIndex va)).present = 1 ∧ (m.pageTable (ptIndex va)).uS = 1 ∧
        pa = (m.pageTable (ptIndex va)).pageBaseAddr * 4096 + va % 4096
    else if pde.ptAddr = m.pageTableVidmapFrame then
      (m.pageTableVidmap (ptIndex va)).present = 1 ∧ (m.pageTableVidmap (ptIndex va)).uS = 1 ∧
        pa = (m.pageTableVidmap (ptIndex va)).pageBaseAddr * 4096 + va % 4096
    else True

end Mmu

namespace Kernel

/-- `set_page`. -/
def setPage (pid : Int) (k : Kernel) : Kernel := { k with mmu := k.mmu.setPage pid }

/-- `set_video_mem`, given the value of `*screen_start`. -/
def setVideoMem (memAddr : Nat) (k : Kernel) : Kernel :=
  { k with mmu := k.mmu.setVideoMem memAddr k.curVisTerm k.curExecuteTerm }

/-- `undo_vidmap`. -/
def undoVidmap (k : Kernel) : Kernel := { k with mmu := k.mmu.undoVidmap }

/-- `switch_term_vim`. -/
def switchTermVim (visTerm exeTerm : Int) (k : Kernel) : Kernel :=
  { k with mmu := k.mmu.switchTermVim (k.proc.pidVidmapFlag k.proc.currentId) visTerm exeTerm }

end Kernel

end Mp3Kernel
