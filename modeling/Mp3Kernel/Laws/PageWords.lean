import Mathlib.Tactic.Ring
import Mp3Kernel.Kernel.PageWords
import Mp3Kernel.Laws.Isolation

/-!
# The walk over the packed tables

What the processor reads at a bit position is what the kernel assigned to the field there, cut
to the field's width. Every value the kernel assigns fits, and where user mode can get through
the directory it gets to a table of the kernel's, so the processor's walk over the words and
the kernel's view of its structures are the same.
-/

namespace Mp3Kernel

open BitFields

/-! ## Entries -/

/-- The fields that a walk reads hold what their bits can. -/
structure PdEntry.Fits (e : PdEntry) : Prop where
  present : e.present < 2
  uS : e.uS < 2
  pageSize : e.pageSize < 2
  ptAddr : e.ptAddr < 1048576

structure PtEntry.Fits (e : PtEntry) : Prop where
  present : e.present < 2
  uS : e.uS < 2
  pageBaseAddr : e.pageBaseAddr < 1048576

theorem PdEntry.Fits.word {e : PdEntry} (F : e.Fits) :
    bits e.word 0 1 = e.present ∧ bits e.word 2 1 = e.uS ∧ bits e.word 7 1 = e.pageSize ∧
      bits e.word 12 20 = e.ptAddr ∧ bits e.word 22 10 = e.pageBaseAddr := by
  let fields : List BitField :=
    [⟨1, e.present⟩, ⟨1, e.rW⟩, ⟨1, e.uS⟩, ⟨1, e.pwt⟩, ⟨1, e.pcd⟩, ⟨1, e.accessed⟩, ⟨1, e.dirty⟩,
      ⟨1, e.pageSize⟩, ⟨1, e.globalBit⟩, ⟨3, e.avail⟩]
  have hpresent : bits e.word 0 1 = e.present % 2 := bits_field [] ⟨1, e.present⟩ _
  have huS : bits e.word 2 1 = e.uS % 2 := bits_field (fields.take 2) ⟨1, e.uS⟩ _
  have hsize : bits e.word 7 1 = e.pageSize % 2 := bits_field (fields.take 7) ⟨1, e.pageSize⟩ _
  have haddr : bits e.word 12 20 = e.ptAddr % 1048576 := bits_field fields ⟨20, e.ptAddr⟩ []
  have hlarge : bits e.word 22 10 = e.pageBaseAddr := by
    have hsplit : bits e.word 12 20 = bits e.word 12 10 + 2 ^ 10 * bits e.word 22 10 :=
      bits_append e.word 12 10 10
    have hlow : bits e.word 12 10 < 1024 := Nat.mod_lt _ (by decide)
    have hbase := F.ptAddr
    rw [haddr, Nat.mod_eq_of_lt hbase] at hsplit
    unfold PdEntry.pageBaseAddr
    omega
  refine ⟨?_, ?_, ?_, ?_, hlarge⟩
  · rw [hpresent, Nat.mod_eq_of_lt F.present]
  · rw [huS, Nat.mod_eq_of_lt F.uS]
  · rw [hsize, Nat.mod_eq_of_lt F.pageSize]
  · rw [haddr, Nat.mod_eq_of_lt F.ptAddr]

theorem PtEntry.Fits.word {e : PtEntry} (F : e.Fits) :
    bits e.word 0 1 = e.present ∧ bits e.word 2 1 = e.uS ∧ bits e.word 12 20 = e.pageBaseAddr := by
  let fields : List BitField :=
    [⟨1, e.present⟩, ⟨1, e.rW⟩, ⟨1, e.uS⟩, ⟨1, e.pwt⟩, ⟨1, e.pcd⟩, ⟨1, e.accessed⟩, ⟨1, e.dirty⟩,
      ⟨1, e.pat⟩, ⟨1, e.globalBit⟩, ⟨3, e.avail⟩]
  have hpresent : bits e.word 0 1 = e.present % 2 := bits_field [] ⟨1, e.present⟩ _
  have huS : bits e.word 2 1 = e.uS % 2 := bits_field (fields.take 2) ⟨1, e.uS⟩ _
  have haddr : bits e.word 12 20 = e.pageBaseAddr % 1048576 :=
    bits_field fields ⟨20, e.pageBaseAddr⟩ []
  refine ⟨?_, ?_, ?_⟩
  · rw [hpresent, Nat.mod_eq_of_lt F.present]
  · rw [huS, Nat.mod_eq_of_lt F.uS]
  · rw [haddr, Nat.mod_eq_of_lt F.pageBaseAddr]

namespace Mmu

/-! ## Tables -/

/-- Every entry fits, and the tables lie in frames that an entry can name, the directory in one of
its own. -/
structure Fits (m : Mmu) (cr3 : Nat) : Prop where
  directory : ∀ i, (m.pageDirectory i).Fits
  table : ∀ i, (m.pageTable i).Fits
  vidmap : ∀ i, (m.pageTableVidmap i).Fits
  frames : m.pageTableFrame < 1048576 ∧ m.pageTableVidmapFrame < 1048576
  apart : m.pageTableFrame ≠ cr3 ∧ m.pageTableVidmapFrame ≠ cr3

variable {m : Mmu} {cr3 : Nat} {pid : Int}

theorem Fits.tableWord (F : m.Fits cr3) (distinct : m.pageTableFrame ≠ m.pageTableVidmapFrame)
    (others : Nat → Nat → Nat) (i : Nat) :
    m.tableWord cr3 others cr3 i = (m.pageDirectory i).word ∧
      m.tableWord cr3 others m.pageTableFrame i = (m.pageTable i).word ∧
      m.tableWord cr3 others m.pageTableVidmapFrame i = (m.pageTableVidmap i).word := by
  unfold Mmu.tableWord
  refine ⟨if_pos rfl, ?_, ?_⟩
  · rw [if_neg F.apart.1, if_pos rfl]
  · rw [if_neg F.apart.2, if_neg distinct.symm, if_pos rfl]

/-- A walk over tables that fit, where user mode is confined, is the kernel's own view of them. -/
theorem Fits.userWalk (F : m.Fits cr3) (C : m.Confined pid) (others : Nat → Nat → Nat)
    (va pa : Nat) :
    userWalk (m.tableWord cr3 others) cr3 va = some pa ↔ m.UserReaches va pa := by
  have hpd : bits va 22 10 = pdIndex va := rfl
  have hpt : bits va 12 10 = ptIndex va := rfl
  have hidx : pdIndex va < 1024 := Nat.mod_lt _ (by decide)
  let pde := m.pageDirectory (pdIndex va)
  obtain ⟨hpresent, huS, hsize, haddr, hbase⟩ := (F.directory (pdIndex va)).word
  obtain ⟨hdirectory, -, -⟩ := F.tableWord C.frames others (pdIndex va)
  obtain ⟨-, -, hvidmap⟩ := F.tableWord C.frames others (ptIndex va)
  obtain ⟨hpresent', huS', haddr'⟩ := (F.vidmap (ptIndex va)).word
  unfold Mp3Kernel.userWalk Mmu.UserReaches
  dsimp only
  rw [hpd, hpt, hdirectory, hpresent, huS, hsize, haddr, hbase]
  have hfar : bits va 0 22 = va % 4194304 := (congrArg (· % _) (Nat.div_one va))
  have hnear : bits va 0 12 = va % 4096 := (congrArg (· % _) (Nat.div_one va))
  by_cases hthrough : pde.present = 1 ∧ pde.uS = 1
  · rw [if_pos hthrough]
    have hin : pdIndex va = 32 ∨ pdIndex va = 34 := C.directory _ hidx hthrough.2
    rcases hin with h32 | h34
    · have hlarge : pde.pageSize = 1 := by
        have huser : (m.pageDirectory 32).uS = 1 := h32 ▸ hthrough.2
        show (m.pageDirectory (pdIndex va)).pageSize = 1
        rw [h32]
        exact (C.user huser).1
      rw [if_pos hlarge, if_pos hlarge, Option.some_inj, hfar]
      exact ⟨fun h => ⟨hthrough.1, hthrough.2, by rw [← h]; ring⟩,
        fun h => by rw [h.2.2]; ring⟩
    · have hsmall : pde.pageSize = 0 ∧ pde.ptAddr = m.pageTableVidmapFrame := by
        have huser : (m.pageDirectory 34).uS = 1 := h34 ▸ hthrough.2
        show (m.pageDirectory (pdIndex va)).pageSize = 0 ∧
          (m.pageDirectory (pdIndex va)).ptAddr = _
        rw [h34]
        exact C.video huser
      have hnot : ¬ pde.pageSize = 1 := by omega
      rw [if_neg hnot, if_neg hnot, hsmall.2, hvidmap, hpresent', huS', haddr',
        if_neg C.frames.symm, if_pos rfl, hnear]
      split
      next hpage =>
        rw [Option.some_inj]
        exact ⟨fun h => ⟨hthrough.1, hthrough.2, hpage.1, hpage.2, by rw [← h]; ring⟩,
          fun h => by rw [h.2.2.2.2]; ring⟩
      next hpage =>
        constructor
        · intro h
          cases h
        · rintro ⟨-, -, h, h', -⟩
          exact absurd ⟨h, h'⟩ hpage
  · rw [if_neg hthrough]
    constructor
    · intro h
      cases h
    · rintro ⟨h, h', -⟩
      exact absurd ⟨h, h'⟩ hthrough

/-! ## What the kernel assigns -/

theorem termFrame_lt (visTerm exeTerm : Int) : termFrame visTerm exeTerm < 1048576 := by
  obtain ⟨-, hlt⟩ := termFrame_text visTerm exeTerm
  omega

theorem Fits.setDirectory (F : m.Fits cr3) (i : Nat) {e : PdEntry} (fits : e.Fits) :
    { m with pageDirectory := Function.update m.pageDirectory i e }.Fits cr3 := by
  refine ⟨fun j => ?_, F.table, F.vidmap, F.frames, F.apart⟩
  by_cases hj : j = i
  · subst hj
    simpa using fits
  · simpa [Function.update_of_ne hj] using F.directory j

theorem Fits.setTable (F : m.Fits cr3) (i : Nat) {e : PtEntry} (fits : e.Fits) :
    { m with pageTable := Function.update m.pageTable i e }.Fits cr3 := by
  refine ⟨F.directory, fun j => ?_, F.vidmap, F.frames, F.apart⟩
  by_cases hj : j = i
  · subst hj
    simpa using fits
  · simpa [Function.update_of_ne hj] using F.table j

theorem Fits.setVidmap (F : m.Fits cr3) {table : Nat → PtEntry} (fits : ∀ i, (table i).Fits) :
    { m with pageTableVidmap := table }.Fits cr3 :=
  ⟨F.directory, F.table, fits, F.frames, F.apart⟩

theorem Fits.modifyDirectory (F : m.Fits cr3) (i : Nat) {f : PdEntry → PdEntry}
    (keep : ∀ e : PdEntry, e.Fits → (f e).Fits) : (m.modifyDirectory i f).Fits cr3 :=
  F.setDirectory i (keep _ (F.directory i))

theorem Fits.modifyVidmap (F : m.Fits cr3) (i : Nat) {f : PtEntry → PtEntry}
    (keep : ∀ e : PtEntry, e.Fits → (f e).Fits) : (m.modifyVidmap i f).Fits cr3 := by
  apply F.setVidmap
  intro j
  by_cases hj : j = i
  · subst hj
    simpa using keep _ (F.vidmap j)
  · simpa [Function.update_of_ne hj] using F.vidmap j

theorem kernelPage_fits (addr : Nat) : (kernelPage addr).Fits :=
  ⟨Nat.one_lt_two, Nat.zero_lt_two, Nat.mod_lt _ (by decide)⟩

theorem Fits.pagingInit (F : m.Fits cr3) : m.pagingInit.Fits cr3 := by
  refine ⟨fun i => ?_, fun i => ?_, F.vidmap, F.frames, F.apart⟩
  · simp only [Mmu.pagingInit]
    split
    · exact ⟨Nat.one_lt_two, Nat.zero_lt_two, Nat.zero_lt_two, F.frames.1⟩
    · split
      · exact ⟨Nat.one_lt_two, Nat.zero_lt_two, Nat.one_lt_two, by decide⟩
      · split
        · have hentry := F.directory i
          exact ⟨Nat.zero_lt_two, hentry.uS, hentry.pageSize, hentry.ptAddr⟩
        · exact F.directory i
  · simp only [Mmu.pagingInit]
    repeat' split
    all_goals first
      | exact kernelPage_fits _
      | exact F.table i
      | exact ⟨Nat.zero_lt_two, Nat.zero_lt_two, by decide⟩

theorem Fits.setPage (F : m.Fits cr3) (pid : Int) : (m.setPage pid).Fits cr3 := by
  apply F.setDirectory
  refine ⟨Nat.one_lt_two, Nat.one_lt_two, Nat.one_lt_two, ?_⟩
  show upperM 0 0 (u32 (2 + pid)) < 1048576
  unfold upperM
  omega

theorem Fits.setVideoMem (F : m.Fits cr3) (memAddr : Nat) (visTerm exeTerm : Int) :
    (m.setVideoMem memAddr visTerm exeTerm).Fits cr3 := by
  have hvidmap : ∀ i, ((m.setVideoMem memAddr visTerm exeTerm).pageTableVidmap i).Fits := by
    intro i
    simp only [Mmu.setVideoMem]
    split
    · exact ⟨Nat.one_lt_two, Nat.one_lt_two, termFrame_lt visTerm exeTerm⟩
    · split
      · exact ⟨Nat.zero_lt_two, (F.vidmap i).uS, (F.vidmap i).pageBaseAddr⟩
      · exact F.vidmap i
  have hentry := F.setDirectory (pdIndex memAddr)
    (e := { present := 1, rW := 1, uS := 1, pwt := 0, pcd := 0, accessed := 0, dirty := 0
            pageSize := 0, globalBit := 1, avail := 0, ptAddr := m.pageTableVidmapFrame })
    ⟨Nat.one_lt_two, Nat.one_lt_two, Nat.zero_lt_two, F.frames.2⟩
  exact ⟨hentry.directory, F.table, hvidmap, F.frames, F.apart⟩

theorem Fits.undoVidmap (F : m.Fits cr3) : m.undoVidmap.Fits cr3 := by
  apply (F.modifyVidmap m.vidmapPtIdx ?_).modifyDirectory
  · exact fun e fits => ⟨Nat.zero_lt_two, fits.uS, fits.pageSize, fits.ptAddr⟩
  · exact fun e fits => ⟨Nat.zero_lt_two, fits.uS, fits.pageBaseAddr⟩

theorem Fits.switchTermVim (F : m.Fits cr3) (flag visTerm exeTerm : Int) :
    (m.switchTermVim flag visTerm exeTerm).Fits cr3 := by
  have hshown : (m.showUserPage flag).Fits cr3 := by
    unfold Mmu.showUserPage
    split
    · exact F.modifyVidmap _ fun e fits => ⟨Nat.zero_lt_two, fits.uS, fits.pageBaseAddr⟩
    · apply (F.modifyDirectory m.userVimPdIdx ?_).modifyVidmap
      · exact fun e fits => ⟨Nat.one_lt_two, fits.uS, fits.pageBaseAddr⟩
      · exact fun e fits => ⟨Nat.one_lt_two, fits.uS, fits.pageSize, fits.ptAddr⟩
  have hframe := termFrame_lt visTerm exeTerm
  have hentry := hshown.table (m.showUserPage flag).vimPtIdx
  have hmoved := hshown.setTable (m.showUserPage flag).vimPtIdx
    (e := { (m.showUserPage flag).pageTable (m.showUserPage flag).vimPtIdx with
      pageBaseAddr := termFrame visTerm exeTerm })
    ⟨hentry.present, hentry.uS, hframe⟩
  unfold Mmu.switchTermVim
  dsimp only
  split
  · exact hmoved.modifyVidmap _ fun e fits => ⟨fits.present, fits.uS, hframe⟩
  · exact hmoved

end Mmu

/-! ## Runs -/

/-- What one process event preserves. -/
theorem Mmu.Fits.step {img : FsImage} {e : ProcEvent} {k k' : Kernel} {cr3 : Nat}
    (F : k.mmu.Fits cr3) (I : Isolated k) (h : procStep img e k = some k') :
    k'.mmu.Fits cr3 := by
  cases procStep_some h with
  | noShell _ hsame | noChild _ hsame =>
    rw [hsame.mmu]
    exact F
  | shell _ hstarted | child _ hstarted =>
    rw [hstarted.mmu]
    exact F.setPage _
  | restarted hnew =>
    obtain ⟨_, hstarted⟩ := hnew.started
    rw [hstarted.mmu]
    exact F.setPage _
  | stray hstray =>
    rcases I.placed.running hstray.ptr_ne with ⟨_, hlink⟩ | hvalid
    · exact absurd hlink hstray.parentPtr_ne
    · exact absurd hstray.base hvalid.ne_neg_one
  | returned hback =>
    rw [hback.handed.mmu]
    split
    · exact (F.setPage _).undoVidmap
    · exact F.setPage _
  | notMapped _ hsame => rwa [hsame]
  | mapped _ hmapped =>
    rw [hmapped.mmu]
    exact F.setVideoMem ..
  | unmapped hsame =>
    rw [hsame]
    exact F.undoVidmap
  | remapped hsame | switched hsame =>
    rw [hsame]
    exact F.switchTermVim ..
  | scheduled hlive hsame =>
    rw [hsame]
    exact (F.setPage _).switchTermVim ..

/-- In every state that a run of process events reaches, the processor's walk over the packed
tables goes where the kernel's structures say, whatever lies in the other pages of memory; so all
that it finds for user mode is the current process's frame and the text pages. -/
theorem userWalk_of_run {img : FsImage} {k₀ k : Kernel} {cr3 : Nat} (boot : Booted k₀)
    (fits : k₀.mmu.Fits cr3) (run : Runs.Reach (procStep img) (fun _ _ => True) k₀ k)
    (others : Nat → Nat → Nat) (va pa : Nat) :
    (userWalk (k.mmu.tableWord cr3 others) cr3 va = some pa ↔ k.mmu.UserReaches va pa) ∧
      (userWalk (k.mmu.tableWord cr3 others) cr3 va = some pa →
        FrameAddr k.proc.currentId pa ∨ TextAddr pa) := by
  have hinv : Isolated k ∧ k.mmu.Fits cr3 :=
    run.invariant (fun k => Isolated k ∧ k.mmu.Fits cr3) ⟨boot.isolated, fits⟩
      fun _ _ _ I _ h => ⟨I.1.step h, I.2.step I.1 h⟩
  have hwalk := hinv.2.userWalk hinv.1.confined others va pa
  exact ⟨hwalk, fun h => hinv.1.confined.reaches (hwalk.mp h)⟩

/-- The first shell's stack. -/
theorem userWalk_of_run_shell :
    ∃ k, procStep shellImage (.initShell zeroFrame) coldBoot = some k ∧
      (userWalk (k.mmu.tableWord 0x502 fun _ _ => 0) 0x502 0x083FFFF0 = some 0xBFFFF0 ↔
        k.mmu.UserReaches 0x083FFFF0 0xBFFFF0) := by
  have hzero : ∀ i, ((fun _ : Nat => PtEntry.zero) i).Fits :=
    fun _ => ⟨Nat.zero_lt_two, Nat.zero_lt_two, Nat.zero_lt_succ _⟩
  have hfits : coldBoot.mmu.Fits 0x502 := by
    apply Mmu.Fits.pagingInit
    exact ⟨fun _ => ⟨Nat.zero_lt_two, Nat.zero_lt_two, Nat.zero_lt_two, Nat.zero_lt_succ _⟩, hzero,
      hzero, ⟨by decide, by decide⟩, ⟨by decide, by decide⟩⟩
  have reach : ∃ k, Runs.Reach (procStep shellImage) (fun _ _ => True) coldBoot k ∧
      procStep shellImage (.initShell zeroFrame) coldBoot = some k :=
    ⟨_, .tail (e := .initShell zeroFrame) .refl trivial rfl, rfl⟩
  obtain ⟨k, run, hk⟩ := reach
  exact ⟨k, hk, (userWalk_of_run coldBoot_booted hfits run (fun _ _ => 0) _ _).1⟩

end Mp3Kernel
