import Mp3Kernel.Laws.DescriptorSteps
import Mp3Kernel.Laws.ProcessTable
import Mp3Kernel.Lib.SlotTable

/-!
# The descriptor table as a partial map

`fd_array` with its flags stands for a partial map from 2..7 to open descriptors, next to
the two that are always open. `open` takes the lowest free slot of that map, `close` drops
one, and `read` and `write` keep it; so the account of `SlotTable` holds of every sequence
of calls.
-/

namespace Mp3Kernel

/-! ## The table of a running process -/

/-- Flags are bits, and slots 0 and 1 are the keyboard and the screen. -/
structure FdTable (fdArray : Int → FileD) : Prop where
  bit : ∀ fd, 0 ≤ fd → fd ≤ 7 → (fdArray fd).flags = 0 ∨ (fdArray fd).flags = 1
  stdin : fdArray 0 = ⟨stdoutTable, 0, 0, 1⟩
  stdout : fdArray 1 = ⟨stdinTable, 0, 0, 1⟩

/-- What an open descriptor stands for, its position apart. -/
structure Descriptor where
  ops : FileOp
  inode : Nat

def FileD.descriptor (slot : FileD) : Descriptor := ⟨slot.fileOpTable, slot.inode⟩

/-- A slot that `open` has filled in and `close` may clear. -/
def OpenSlot (fdArray : Int → FileD) (fd : Int) : Prop :=
  2 ≤ fd ∧ fd ≤ 7 ∧ (fdArray fd).flags = 1

instance (fdArray : Int → FileD) (fd : Int) : Decidable (OpenSlot fdArray fd) :=
  inferInstanceAs (Decidable (_ ∧ _ ∧ _))

/-- The partial map from 2..7 that a table stands for. -/
def openFds (fdArray : Int → FileD) (fd : Int) : Option Descriptor :=
  if OpenSlot fdArray fd then some (fdArray fd).descriptor else none

section Table

variable {fdArray : Int → FileD} {fd : Int}

theorem openFds_eq_none : openFds fdArray fd = none ↔ ¬ OpenSlot fdArray fd := by
  unfold openFds
  split
  next h => simp [h]
  next h => simp [h]

/-- The map at a slot reads that slot alone. -/
theorem openFds_congr {fdArray' : Int → FileD} (h : fdArray fd = fdArray' fd) :
    openFds fdArray fd = openFds fdArray' fd := by
  have hiff : OpenSlot fdArray fd ↔ OpenSlot fdArray' fd := by simp only [OpenSlot, h]
  unfold openFds
  by_cases hopen : OpenSlot fdArray' fd
  · rw [if_pos (hiff.mpr hopen), if_pos hopen, h]
  · rw [if_neg fun hopen' => hopen (hiff.mp hopen'), if_neg hopen]

theorem FdTable.openSlot_iff (T : FdTable fdArray) (lo : 2 ≤ fd) (hi : fd ≤ 7) :
    OpenSlot fdArray fd ↔ (fdArray fd).flags ≠ 0 := by
  have hbit := T.bit fd (by omega) hi
  unfold OpenSlot
  omega

/-- The slot filled in, as the map sees it. -/
theorem openFds_update_open {slot : FileD} (lo : 2 ≤ fd) (hi : fd ≤ 7) (h : slot.flags = 1) :
    openFds (Function.update fdArray fd slot) =
      Function.update (openFds fdArray) fd (some slot.descriptor) := by
  funext i
  by_cases hi' : i = fd
  · simp [openFds, OpenSlot, hi', lo, hi, h]
  · rw [openFds_congr (Function.update_of_ne hi' _ _)]
    simp [hi']

/-- The slot cleared, as the map sees it. -/
theorem openFds_update_closed {slot : FileD} (h : slot.flags = 0) :
    openFds (Function.update fdArray fd slot) = Function.update (openFds fdArray) fd none := by
  funext i
  by_cases hi' : i = fd
  · simp [openFds, OpenSlot, hi', h]
  · rw [openFds_congr (Function.update_of_ne hi' _ _)]
    simp [hi']

/-- A change of position, which the map does not see. -/
theorem openFds_update_position (position : Nat) :
    openFds (Function.update fdArray fd { fdArray fd with filePosition := position }) =
      openFds fdArray := by
  funext i
  by_cases hi' : i = fd
  · simp [openFds, OpenSlot, hi', FileD.descriptor]
  · exact openFds_congr (Function.update_of_ne hi' _ _)

/-- A change of one slot of 2..7 that leaves its flag a bit. -/
theorem FdTable.update (T : FdTable fdArray) (lo : 2 ≤ fd) {slot : FileD}
    (h : slot.flags = 0 ∨ slot.flags = 1) : FdTable (Function.update fdArray fd slot) := by
  refine ⟨fun i hi hi' => ?_, ?_, ?_⟩
  · by_cases hifd : i = fd
    · rwa [hifd, Function.update_self]
    · rw [Function.update_of_ne hifd]
      exact T.bit i hi hi'
  · rw [Function.update_of_ne (by omega)]
    exact T.stdin
  · rw [Function.update_of_ne (by omega)]
    exact T.stdout

/-- What `open`'s search finds is the map's lowest free slot. -/
theorem FdTable.findSlot_some (T : FdTable fdArray) {index : Int}
    (h : findSlot fdArray 6 2 = some index) : SlotTable.FirstFree (openFds fdArray) 2 7 index := by
  obtain ⟨hlo, hbefore, hend⟩ := Mp3Kernel.findSlot_some (by omega) h
  have hbit := T.bit 7 (by omega) (by omega)
  have hle : index ≤ 7 := by
    rcases hend with ⟨hle, _⟩ | ⟨h8, h0 | h7⟩
    · exact hle
    · omega
    · have := hbefore 7 (by omega) (by omega)
      omega
  refine ⟨hlo, hle, ?_, fun j hj hj' => ?_⟩
  · rw [openFds_eq_none, T.openSlot_iff hlo hle]
    omega
  · rw [Ne, openFds_eq_none, not_not, T.openSlot_iff hj (by omega)]
    exact hbefore j hj hj'

/-- It finds nothing only when the map is full. -/
theorem FdTable.findSlot_none (T : FdTable fdArray) (h : findSlot fdArray 6 2 = none) :
    SlotTable.Full (openFds fdArray) 2 7 := by
  intro j hj hj'
  rw [Ne, openFds_eq_none, not_not, T.openSlot_iff hj hj']
  exact Mp3Kernel.findSlot_none (by omega) h j hj hj'

end Table

/-! ## The calls -/

/-- What a descriptor call returns. -/
def fdResult (img : FsImage) (term : TerminalDriver) (e : FdEvent) (k : Kernel) : Int :=
  match e with
  | .openFile filename => (openCall img filename k).2
  | .read fd buf nbytes => (readCall img term fd buf nbytes k).2.2
  | .write fd buf nbytes => (writeCall term fd buf nbytes k).2
  | .close fd => (closeCall fd k).2

/-- What a call and its result say was done to the map. -/
def fdLabel (e : FdEvent) (result : Int) : SlotTable.Label :=
  match e with
  | .openFile _ => if result = -1 then .keep else .take result
  | .close fd => if result = -1 then .keep else .drop fd
  | _ => .keep

section Calls

variable {img : FsImage} {term : TerminalDriver} {k : Kernel}

theorem openedSlot_flags (d : Dentry) :
    (openedSlot d).flags = 1 ∧ (openedSlot d).filePosition = 0 := by
  unfold openedSlot
  split
  · exact ⟨rfl, rfl⟩
  · split <;> exact ⟨rfl, rfl⟩

/-- `open`, as a whole: refused with nothing changed, or the lowest free slot filled in from
the name's entry. -/
theorem FdTable.opened (T : FdTable k.fds) (filename : Option Buf) :
    ((filename.bind (knownEntry img) = none ∨ SlotTable.Full (openFds k.fds) 2 7) ∧
        (openCall img filename k).2 = -1 ∧ (openCall img filename k).1.fds = k.fds) ∨
      ∃ name j, filename = some name ∧ knownEntry img name = some j ∧
        SlotTable.FirstFree (openFds k.fds) 2 7 (openCall img filename k).2 ∧
        (openCall img filename k).1.fds =
          Function.update k.fds (openCall img filename k).2 (openedSlot (img.dentry j)) := by
  cases hknown : filename.bind (knownEntry img) with
  | none =>
    obtain ⟨hresult, hproc⟩ := openCall_refused (k := k) (.inl hknown)
    exact .inl ⟨.inl rfl, hresult, fds_of_proc hproc⟩
  | some j =>
    obtain ⟨name, rfl, hname⟩ := Option.bind_eq_some_iff.mp hknown
    cases hslot : findSlot k.currentPcb.fdArray 6 2 with
    | none =>
      obtain ⟨hresult, hproc⟩ := @openCall_refused img (some name) k (.inr hslot)
      exact .inl ⟨.inr (T.findSlot_none hslot), hresult, fds_of_proc hproc⟩
    | some index =>
      obtain ⟨hresult, hproc⟩ := openCall_granted hname hslot
      refine .inr ⟨name, j, rfl, hname, ?_, ?_⟩
      · rw [hresult]
        exact T.findSlot_some hslot
      · rw [hresult]
        exact fds_of_withFds hproc

/-- What `open` promises. -/
structure OpenSpec (img : FsImage) (filename : Option Buf) (k : Kernel) (result : Int)
    (k' : Kernel) : Prop where
  /-- It fails just when the name is null or unknown, or every slot is used. -/
  fails_iff : result = -1 ↔
    filename.bind (knownEntry img) = none ∨ ∀ fd, 2 ≤ fd → fd ≤ 7 → OpenSlot k.fds fd
  unchanged : result = -1 → k'.fds = k.fds
  /-- Otherwise it returns the smallest free index. -/
  smallest : result ≠ -1 → 2 ≤ result ∧ result ≤ 7 ∧ ¬ OpenSlot k.fds result ∧
    ∀ fd, 2 ≤ fd → fd < result → OpenSlot k.fds fd
  /-- Only that slot is filled: open, at position 0, as the name's entry says. -/
  filled : result ≠ -1 → ∃ name j, filename = some name ∧ knownEntry img name = some j ∧
    (openedSlot (img.dentry j)).flags = 1 ∧ (openedSlot (img.dentry j)).filePosition = 0 ∧
    k'.fds = Function.update k.fds result (openedSlot (img.dentry j))

theorem full_openFds {fdArray : Int → FileD} :
    SlotTable.Full (openFds fdArray) 2 7 ↔ ∀ fd, 2 ≤ fd → fd ≤ 7 → OpenSlot fdArray fd := by
  simp only [SlotTable.Full, ne_eq, openFds_eq_none, not_not]

theorem FdTable.openSpec (T : FdTable k.fds) (filename : Option Buf) :
    OpenSpec img filename k (openCall img filename k).2 (openCall img filename k).1 := by
  rcases T.opened filename with ⟨hwhy, hresult, hfds⟩ | ⟨name, j, rfl, hname, hfree, hfds⟩
  · rw [full_openFds] at hwhy
    exact ⟨iff_of_true hresult hwhy, fun _ => hfds, fun h => absurd hresult h,
      fun h => absurd hresult h⟩
  · have hlo := hfree.ge
    have hne : (openCall img (some name) k).2 ≠ -1 := by omega
    obtain ⟨hflags, hposition⟩ := openedSlot_flags (img.dentry j)
    refine ⟨iff_of_false hne ?_, fun h => absurd h hne, fun _ => ?_, fun _ => ?_⟩
    · rintro (hunknown | hfull)
      · rw [Option.bind_some, hname] at hunknown
        cases hunknown
      · exact hfree.not_full (full_openFds.mpr hfull)
    · refine ⟨hfree.ge, hfree.le, openFds_eq_none.mp hfree.free, fun fd hfd hfd' => ?_⟩
      have hused := hfree.below fd hfd hfd'
      rwa [Ne, openFds_eq_none, not_not] at hused
    · exact ⟨name, j, rfl, hname, hflags, hposition, hfds⟩

/-- What `close` promises: it succeeds on an open slot, frees that one, and refuses anything
else. -/
structure CloseSpec (fd : Int) (k : Kernel) (result : Int) (k' : Kernel) : Prop where
  closes : OpenSlot k.fds fd →
    result = 0 ∧ k'.fds = Function.update k.fds fd { k.fds fd with flags := 0 }
  refuses : ¬ OpenSlot k.fds fd → result = -1 ∧ k'.fds = k.fds

theorem FdTable.closeSpec (T : FdTable k.fds) (fd : Int) :
    CloseSpec fd k (closeCall fd k).2 (closeCall fd k).1 := by
  refine ⟨fun hopen => ?_, fun hclosed => ?_⟩
  · have hne : (k.currentPcb.fdArray fd).flags ≠ 0 := (T.openSlot_iff hopen.1 hopen.2.1).mp hopen
    obtain ⟨hresult, hproc⟩ := closeCall_closed hopen.1 hopen.2.1 hne
    exact ⟨hresult, fds_of_withFds hproc⟩
  · have hwhy : fd < 2 ∨ fd > 7 ∨ (k.currentPcb.fdArray fd).flags = 0 := by
      by_contra h
      have hne : (k.fds fd).flags ≠ 0 := fun hzero => h (.inr (.inr hzero))
      exact hclosed ((T.openSlot_iff (by omega) (by omega)).mpr hne)
    obtain ⟨hresult, hsame⟩ := closeCall_refused hwhy
    exact ⟨hresult, by rw [hsame]⟩

/-- `read`, on any descriptor: at most a file slot of 2..7 has its position moved. -/
theorem FdTable.read (T : FdTable k.fds) (keeps : term.KeepsProcesses) (fd : Int)
    (buf : Option Buf) (nbytes : Int) :
    (readCall img term fd buf nbytes k).1.fds = k.fds ∨
      ∃ position, OpenSlot k.fds fd ∧
        (readCall img term fd buf nbytes k).1.fds =
          Function.update k.fds fd { k.fds fd with filePosition := position } := by
  rcases readCall_proc keeps fd buf nbytes k with hproc | ⟨position, hfile, hgood, hproc⟩
  · exact .inl (fds_of_proc hproc)
  · refine .inr ⟨position, ?_, fds_of_withFds hproc⟩
    have h0 : fd ≠ 0 := by
      rintro rfl
      rw [show k.currentPcb.fdArray 0 = ⟨stdoutTable, 0, 0, 1⟩ from T.stdin] at hfile
      cases hfile
    have h1 : fd ≠ 1 := by
      rintro rfl
      rw [show k.currentPcb.fdArray 1 = ⟨stdinTable, 0, 0, 1⟩ from T.stdout] at hfile
      cases hfile
    have hlo : ¬ fd < 0 := fun h => hgood (.inl h)
    have hhi : ¬ fd > 7 := fun h => hgood (.inr (.inl h))
    have hne : (k.fds fd).flags ≠ 0 := fun h => hgood (.inr (.inr h))
    exact (T.openSlot_iff (by omega) (by omega)).mpr hne

/-- What `read` and `write` promise the table: they refuse a descriptor that is neither open
nor one of the two that always are, and move one position at most. -/
structure TransferSpec (img : FsImage) (term : TerminalDriver) (fd : Int) (nbytes : Int)
    (k : Kernel) : Prop where
  readRefuses : ∀ buf, ¬ OpenSlot k.fds fd → fd ≠ 0 → fd ≠ 1 →
    (readCall img term fd (some buf) nbytes k).2.2 = -1 ∧
      (readCall img term fd (some buf) nbytes k).1.fds = k.fds
  writeRefuses : ∀ buf, ¬ OpenSlot k.fds fd → fd ≠ 0 → fd ≠ 1 →
    (writeCall term fd (some buf) nbytes k).2 = -1 ∧
      (writeCall term fd (some buf) nbytes k).1.fds = k.fds
  readMoves : ∀ buf, (readCall img term fd buf nbytes k).1.fds = k.fds ∨
    ∃ position, OpenSlot k.fds fd ∧ (readCall img term fd buf nbytes k).1.fds =
      Function.update k.fds fd { k.fds fd with filePosition := position }
  writeKeeps : ∀ buf, (writeCall term fd buf nbytes k).1.fds = k.fds

theorem FdTable.transferSpec (T : FdTable k.fds) (keeps : term.KeepsProcesses) (fd nbytes : Int) :
    TransferSpec img term fd nbytes k := by
  have hbad : ¬ OpenSlot k.fds fd → fd ≠ 0 → fd ≠ 1 → badFd fd k := by
    intro hclosed h0 h1
    by_contra hgood
    have hlo : ¬ fd < 0 := fun h => hgood (.inl h)
    have hhi : ¬ fd > 7 := fun h => hgood (.inr (.inl h))
    have hne : (k.fds fd).flags ≠ 0 := fun h => hgood (.inr (.inr h))
    exact hclosed ((T.openSlot_iff (by omega) (by omega)).mpr hne)
  refine ⟨fun buf hclosed h0 h1 => ?_, fun buf hclosed h0 h1 => ?_,
    fun buf => T.read keeps fd buf nbytes,
    fun buf => fds_of_proc (writeCall_proc keeps fd buf nbytes k)⟩
  · obtain ⟨hresult, hsame⟩ :=
      @readCall_refused img term fd buf nbytes k (hbad hclosed h0 h1)
    exact ⟨hresult, by rw [hsame]⟩
  · obtain ⟨hresult, hsame⟩ := @writeCall_refused term fd buf nbytes k (hbad hclosed h0 h1)
    exact ⟨hresult, by rw [hsame]⟩

/-- What one call does: the table stays one, and the map takes one step. -/
theorem FdTable.step (T : FdTable k.fds) (keeps : term.KeepsProcesses) (e : FdEvent) :
    FdTable (fdStep img term e k).fds ∧
      SlotTable.Step 2 7 (openFds k.fds) (fdLabel e (fdResult img term e k))
        (openFds (fdStep img term e k).fds) := by
  cases e with
  | openFile filename =>
    have hstate : (fdStep img term (.openFile filename) k).fds =
        (openCall img filename k).1.fds := rfl
    rw [hstate]
    rcases T.opened filename with ⟨_, hresult, hfds⟩ | ⟨_, j, _, _, hfree, hfds⟩
    · have hlabel : fdLabel (.openFile filename)
          (fdResult img term (.openFile filename) k) = .keep := if_pos hresult
      rw [hfds, hlabel]
      exact ⟨T, .keep⟩
    · have hlo := hfree.ge
      have hlabel : fdLabel (.openFile filename) (fdResult img term (.openFile filename) k) =
          .take (openCall img filename k).2 := if_neg (by simp only [fdResult]; omega)
      obtain ⟨hflags, _⟩ := openedSlot_flags (img.dentry j)
      rw [hfds, hlabel, openFds_update_open hfree.ge hfree.le hflags]
      exact ⟨T.update hfree.ge (.inr hflags), .take hfree⟩
  | read fd buf nbytes =>
    have hstate : (fdStep img term (.read fd buf nbytes) k).fds =
        (readCall img term fd buf nbytes k).1.fds := rfl
    have hlabel : fdLabel (.read fd buf nbytes)
        (fdResult img term (.read fd buf nbytes) k) = .keep := rfl
    rw [hstate, hlabel]
    rcases T.read keeps fd buf nbytes with hfds | ⟨position, hopen, hfds⟩
    · rw [hfds]
      exact ⟨T, .keep⟩
    · rw [hfds, openFds_update_position]
      exact ⟨T.update hopen.1 (.inr hopen.2.2), .keep⟩
  | write fd buf nbytes =>
    have hstate : (fdStep img term (.write fd buf nbytes) k).fds = k.fds :=
      fds_of_proc (writeCall_proc keeps fd buf nbytes k)
    rw [hstate]
    exact ⟨T, .keep⟩
  | close fd =>
    have hstate : (fdStep img term (.close fd) k).fds = (closeCall fd k).1.fds := rfl
    rw [hstate]
    obtain ⟨hcloses, hrefuses⟩ := T.closeSpec fd
    by_cases hopen : OpenSlot k.fds fd
    · obtain ⟨hresult, hfds⟩ := hcloses hopen
      have hlabel : fdLabel (.close fd) (fdResult img term (.close fd) k) = .drop fd :=
        if_neg (by simp only [fdResult]; omega)
      rw [hfds, hlabel, openFds_update_closed rfl]
      refine ⟨T.update hopen.1 (.inl rfl), .drop ?_⟩
      rwa [Ne, openFds_eq_none, not_not]
    · obtain ⟨hresult, hfds⟩ := hrefuses hopen
      have hlabel : fdLabel (.close fd) (fdResult img term (.close fd) k) = .keep := if_pos hresult
      rw [hfds, hlabel]
      exact ⟨T, .keep⟩

end Calls

/-! ## Sequences of calls -/

/-- The state after a list of calls. -/
def runFds (img : FsImage) (term : TerminalDriver) (k : Kernel) (es : List FdEvent) : Kernel :=
  es.foldl (fun k e => fdStep img term e k) k

/-- What each of the calls did to the map. -/
def fdLabels (img : FsImage) (term : TerminalDriver) : Kernel → List FdEvent → List SlotTable.Label
  | _, [] => []
  | k, e :: es => fdLabel e (fdResult img term e k) :: fdLabels img term (fdStep img term e k) es

/-- What a list of calls preserves, and the run of the map it is. -/
theorem FdTable.run {img : FsImage} {term : TerminalDriver} (keeps : term.KeepsProcesses)
    (es : List FdEvent) {k : Kernel} (T : FdTable k.fds) :
    FdTable (runFds img term k es).fds ∧
      SlotTable.Run 2 7 (openFds k.fds) (fdLabels img term k es)
        (openFds (runFds img term k es).fds) := by
  induction es generalizing k with
  | nil => exact ⟨T, .nil⟩
  | cons e es ih =>
    obtain ⟨hstep, hlabel⟩ := T.step keeps e
    obtain ⟨hrun, hlabels⟩ := ih hstep
    exact ⟨hrun, .cons hlabel hlabels⟩

/-- The table `execute` gives a process: nothing open but the keyboard and the screen. -/
theorem Started.fdTable {frame : Frame} {parentPtr parentId : Int} {k k' : Kernel} {pid : Int}
    (h : Started frame parentPtr parentId k k' pid) :
    FdTable k'.fds ∧ openFds k'.fds = fun _ => none := by
  obtain ⟨executeArg, hnew⟩ := h.pcb_new
  have hfds : k'.fds = (newPcb frame parentPtr parentId executeArg).fdArray := by
    rw [Kernel.fds, Kernel.currentPcb, Proc.currentPcb, h.currentPcbPtr]
    exact hnew.fdArray
  have huser : ∀ fd, 2 ≤ fd → fd ≤ 7 → (k'.fds fd).flags = 0 := by
    intro fd lo hi
    rw [hfds]
    have h0 : fd ≠ 0 := by omega
    have h1 : fd ≠ 1 := by omega
    have h8 : fd < 8 := by omega
    simp [newPcb, h0, h1, lo, h8]
  refine ⟨⟨fun fd lo hi => ?_, by rw [hfds]; rfl, by rw [hfds]; rfl⟩, ?_⟩
  · by_cases h2 : 2 ≤ fd
    · exact .inl (huser fd h2 hi)
    · obtain rfl | rfl : fd = 0 ∨ fd = 1 := by omega
      · exact .inr (by rw [hfds]; rfl)
      · exact .inr (by rw [hfds]; rfl)
  · funext fd
    refine if_neg ?_
    rintro ⟨lo, hi, hone⟩
    rw [huser fd lo hi] at hone
    cases hone

/-- After any list of calls of a process that `execute` started, the flags are bits, slots 0
and 1 are the keyboard and the screen, and the next call does to the table what its
specification says. Each descriptor has been handed out once more often than it has been
closed if it is open by then, and equally often if not. -/
theorem descriptorTable_refines {img : FsImage} {term : TerminalDriver}
    (keeps : term.KeepsProcesses) {frame : Frame} {command : Option (List UInt8)}
    {k₀ k₁ : Kernel} {eip esp : Nat}
    (start : executeHandler img frame command k₀ = some (k₁, .iret eip esp)) (es : List FdEvent) :
    let k := runFds img term k₁ es
    FdTable k.fds ∧
      (∀ filename, OpenSpec img filename k (openCall img filename k).2 (openCall img filename k).1) ∧
      (∀ fd, CloseSpec fd k (closeCall fd k).2 (closeCall fd k).1) ∧
      (∀ fd nbytes, TransferSpec img term fd nbytes k) ∧
      SlotTable.Run 2 7 (openFds k₁.fds) (fdLabels img term k₁ es) (openFds k.fds) ∧
      ∀ fd, (fdLabels img term k₁ es).count (.take fd) =
        (fdLabels img term k₁ es).count (.drop fd) + if OpenSlot k.fds fd then 1 else 0 := by
  intro k
  rcases executeHandler_some start with ⟨_, hexit, _⟩ | ⟨_, pid, _, _, hstarted⟩
  · cases hexit
  obtain ⟨T₁, hempty⟩ := hstarted.fdTable
  obtain ⟨T, hrun⟩ := T₁.run keeps es
  refine ⟨T, T.openSpec, T.closeSpec, T.transferSpec keeps, hrun, fun fd => ?_⟩
  have hbalance := hrun.balance fd
  have hstart : SlotTable.inUse (openFds k₁.fds) fd = 0 := by
    rw [hempty]
    rfl
  have hend : SlotTable.inUse (openFds k.fds) fd = if OpenSlot k.fds fd then 1 else 0 := by
    simp only [SlotTable.inUse, openFds_eq_none]
    by_cases h : OpenSlot k.fds fd
    · simp [h]
    · simp [h]
  rw [hstart, hend] at hbalance
  omega

/-- A file opened, closed and opened again is on descriptor 2 both times. -/
theorem descriptorTable_refines_reopen :
    ∃ k₁, executeHandler shellImage zeroFrame (some (bytes "shell")) coldBoot =
        some (k₁, .iret 0x08048018 newUserBottom) ∧
      ∀ fd, [SlotTable.Label.take 2, .drop 2, .take 2].count (.take fd) =
        [SlotTable.Label.take 2, .drop 2, .take 2].count (.drop fd) +
          if OpenSlot (runFds shellImage quietTerminal k₁
            [.openFile (some (cstr (bytes "shell"))), .close 2,
              .openFile (some (cstr (bytes "shell")))]).fds fd then 1 else 0 :=
  ⟨_, rfl, (@descriptorTable_refines shellImage quietTerminal quietTerminal_keeps zeroFrame
    (some (bytes "shell")) coldBoot _ _ _ rfl
    [.openFile (some (cstr (bytes "shell"))), .close 2,
      .openFile (some (cstr (bytes "shell")))]).2.2.2.2.2⟩

end Mp3Kernel
