import Mp3Kernel.Laws.FileStream

/-!
# The positions of open files

`file_read` clips a request to what is left of the file, above and not below: a negative count
passes, moves the position back or wraps it, and every later read starts from there. With
counts that are not negative a position stays in its file, and the copy loop stays in
`data_add` unless the read ends at the last byte a file can have, from where it visits the
block after it.
-/

namespace Mp3Kernel

/-! ## The blocks a read visits -/

/-- The outer loop runs over those blocks. -/
theorem copyRange_eq_foldl (img : FsImage) (inode : Inode) (start nbytes : Int) (buf : Buf) :
    copyRange img inode start nbytes buf =
      (copyRangeBlocks start nbytes).foldl
        (fun t i => t.copyBlock (img.data (inode.dataAdd i)) i t.totalBytes.toNat 0)
        { buf := buf, bufIdx := 0, curByte := u32 (start.tmod 4096), totalBytes := nbytes,
          stores := [], loads := [] } := by
  have hloop : ∀ n i t, Transfer.copyBlocks img inode n i t =
      (List.range' i n).foldl
        (fun t i => t.copyBlock (img.data (inode.dataAdd i)) i t.totalBytes.toNat 0) t := by
    intro n
    induction n with
    | zero => exact fun _ _ => rfl
    | succ n ih =>
      intro i t
      rw [List.range'_succ, List.foldl_cons]
      exact ih (i + 1) _
  exact hloop _ _ _

/-- The blocks of a range no `int32_t` overflows in: from the one it starts in to the one it
ends in, that of the byte after it. -/
theorem copyRangeBlocks_eq {p m : Nat} (range : p + m < 2147483648) :
    copyRangeBlocks p m = List.range' (p / 4096) ((p + m) / 4096 - p / 4096 + 1) := by
  obtain ⟨hbegin, hend, hturns⟩ := blockRange range
  unfold copyRangeBlocks
  dsimp only
  rw [hbegin, hend, hturns]

theorem copyRangeBlocks_bounded_iff {p m : Nat} (range : p + m < 2147483648) :
    (∀ i ∈ copyRangeBlocks p m, i < 1023) ↔ p + m < 1023 * 4096 := by
  rw [copyRangeBlocks_eq range]
  constructor
  · intro h
    have hlast := h ((p + m) / 4096) (List.mem_range'_1.mpr (by omega))
    omega
  · intro h i hi
    have := List.mem_range'_1.mp hi
    omega

/-! ## Positions in range -/

/-- An open descriptor of a regular file. -/
structure FileSlot (img : FsImage) (fdArray : Int → FileD) (fd : Int) : Prop where
  opened : OpenSlot fdArray fd
  ops : (fdArray fd).fileOpTable = fileTable
  regular : img.Regular (fdArray fd).inode

/-- The length of the file a slot is open on. -/
def slotLength (img : FsImage) (slot : FileD) : Int := (img.inode slot.inode).length

/-- Each open regular file's position is in the file. -/
def PositionsInRange (img : FsImage) (fdArray : Int → FileD) : Prop :=
  ∀ fd, FileSlot img fdArray fd →
    0 ≤ ((fdArray fd).filePosition : Int) ∧
      ((fdArray fd).filePosition : Int) ≤ slotLength img (fdArray fd)

/-- A read of a regular file returns an error or a count in range, does not move its position
back, and keeps to the `data_add` of its inode. -/
structure ReadInRange (img : FsImage) (term : TerminalDriver) (fd : Int) (buf : Buf)
    (nbytes : Int) (k : Kernel) : Prop where
  result : (readCall img term fd (some buf) nbytes k).2.2 = -1 ∨
    (0 ≤ (readCall img term fd (some buf) nbytes k).2.2 ∧
      (readCall img term fd (some buf) nbytes k).2.2 ≤ nbytes)
  advances : (k.fds fd).filePosition ≤
    ((readCall img term fd (some buf) nbytes k).1.fds fd).filePosition
  blocks : ∀ i ∈ fileReadBlocks img (k.fds fd) nbytes, i < 1023

/-- A call leaves the positions in range, and is itself in range if it reads a regular file. -/
structure CallInRange (img : FsImage) (term : TerminalDriver) (k : Kernel) (e : FdEvent) :
    Prop where
  positions : PositionsInRange img (fdStep img term e k).fds
  read : ∀ fd buf nbytes, e = .read fd (some buf) nbytes → FileSlot img k.fds fd →
    ReadInRange img term fd buf nbytes k

/-- The condition on a call: a read of a regular file does not ask for a negative count, and
ends before the last byte a file can have. -/
def KeepsPositions (img : FsImage) (k : Kernel) (e : FdEvent) : Prop :=
  ∀ fd buf nbytes, e = .read fd (some buf) nbytes → FileSlot img k.fds fd →
    0 ≤ nbytes ∧
      (k.fds fd).filePosition +
        min nbytes (slotLength img (k.fds fd) - (k.fds fd).filePosition) < 1023 * 4096

/-- The counts a call can be given. -/
def AsksInt32 (_k : Kernel) : FdEvent → Prop
  | .read _ _ nbytes => -2147483648 ≤ nbytes ∧ nbytes < 2147483648
  | _ => True

/-- The calls of one process as a machine. -/
def fdMachine (img : FsImage) (term : TerminalDriver) (e : FdEvent) (k : Kernel) : Option Kernel :=
  some (fdStep img term e k)

/-! ## One read -/

section Read

variable {img : FsImage} {term : TerminalDriver} {k : Kernel} {fd nbytes : Int}

/-- A slot stays open on its file when its position moves. -/
theorem FileSlot.moved (F : FileSlot img k.fds fd) {fdArray : Int → FileD} {position : Nat}
    (h : fdArray = Function.update k.fds fd { k.fds fd with filePosition := position }) :
    FileSlot img fdArray fd ∧ (fdArray fd).filePosition = position ∧
      slotLength img (fdArray fd) = slotLength img (k.fds fd) := by
  have hslot : fdArray fd = { k.fds fd with filePosition := position } := by
    rw [h, Function.update_self]
  refine ⟨⟨?_, ?_, ?_⟩, ?_, ?_⟩
  · unfold OpenSlot
    rw [hslot]
    exact F.opened
  · rw [hslot]
    exact F.ops
  · rw [hslot]
    exact F.regular
  · rw [hslot]
  · rw [hslot]
    rfl

/-- A read that asks for a count that is not negative. -/
theorem FileSlot.read_nonneg (wf : img.WellFormed) (F : FileSlot img k.fds fd)
    (inRange : ((k.fds fd).filePosition : Int) ≤ slotLength img (k.fds fd))
    (nonneg : 0 ≤ nbytes) (term : TerminalDriver) (buf : Buf) :
    ∃ m : Nat,
      (m : Int) = min nbytes (slotLength img (k.fds fd) - (k.fds fd).filePosition) ∧
      (readCall img term fd (some buf) nbytes k).2.2 = m ∧
      (readCall img term fd (some buf) nbytes k).1.fds =
        Function.update k.fds fd
          { k.fds fd with filePosition := (k.fds fd).filePosition + m } ∧
      fileReadBlocks img (k.fds fd) nbytes = copyRangeBlocks (k.fds fd).filePosition m := by
  have hsmall := (wf.length_range F.regular).2
  have hrest : 0 ≤ min nbytes (slotLength img (k.fds fd) - (k.fds fd).filePosition) := by omega
  obtain ⟨m, hm⟩ := Int.eq_ofNat_of_zero_le hrest
  have hrange : ReadRange img (k.fds fd) nbytes (k.fds fd).filePosition m :=
    ⟨rfl, inRange, hsmall, hm.symm⟩
  obtain ⟨hstart, hcount⟩ := hrange.byteLeft_eq
  obtain ⟨hresult, -, hfds⟩ := hrange.fileRead buf
  refine ⟨m, hm.symm, ?_, ?_, ?_⟩
  · rw [readCall_file F.opened F.ops]
    exact hresult
  · rw [readCall_file F.opened F.ops]
    exact hfds
  · unfold fileReadBlocks
    rw [hstart, hcount]

/-- A read that asks for a negative count: it moves the position back, or out of the file. -/
theorem FileSlot.read_neg (wf : img.WellFormed) (F : FileSlot img k.fds fd)
    (inRange : ((k.fds fd).filePosition : Int) ≤ slotLength img (k.fds fd))
    (int32 : -2147483648 ≤ nbytes) (neg : nbytes < 0) (term : TerminalDriver) (buf : Buf) :
    ∃ position,
      (readCall img term fd (some buf) nbytes k).1.fds =
        Function.update k.fds fd { k.fds fd with filePosition := position } ∧
      (position < (k.fds fd).filePosition ∨ slotLength img (k.fds fd) < position) := by
  have hlength : slotLength img (k.fds fd) ≤ 1023 * 4096 := (wf.length_range F.regular).2
  have hstart : i32 (k.fds fd).filePosition = (k.fds fd).filePosition := i32_natCast (by omega)
  have hleft : byteLeft (img.inode (k.fds fd).inode) (k.fds fd).filePosition nbytes = nbytes := by
    have hrest : i32 (slotLength img (k.fds fd) - (k.fds fd).filePosition) =
        slotLength img (k.fds fd) - (k.fds fd).filePosition := i32_of_range (by omega) (by omega)
    unfold byteLeft
    exact if_neg (by
      show ¬ nbytes > i32 (slotLength img (k.fds fd) - (k.fds fd).filePosition)
      omega)
  have hsum : i32 ((k.fds fd).filePosition + nbytes) = (k.fds fd).filePosition + nbytes :=
    i32_of_range (by omega) (by omega)
  refine ⟨u32 ((k.fds fd).filePosition + nbytes), ?_, ?_⟩
  · rw [readCall_file F.opened F.ops]
    dsimp only
    rw [fds_of_withFds (fileRead_proc fd buf nbytes k)]
    unfold Kernel.fds at hstart hleft hsum ⊢
    rw [hstart, hleft, hsum]
  · by_cases hback : 0 ≤ ((k.fds fd).filePosition : Int) + nbytes
    · have hposition : (u32 ((k.fds fd).filePosition + nbytes) : Int) =
          (k.fds fd).filePosition + nbytes := u32_of_range hback (by omega)
      exact .inl (by omega)
    · -- below zero the unsigned position wraps
      unfold u32
      exact .inr (by omega)

/-- For a read, being in range is the condition. -/
theorem FileSlot.read_inRange_iff (wf : img.WellFormed) (F : FileSlot img k.fds fd)
    (inRange : ((k.fds fd).filePosition : Int) ≤ slotLength img (k.fds fd))
    (int32 : -2147483648 ≤ nbytes) (buf : Buf) :
    (ReadInRange img term fd buf nbytes k ∧
        (((readCall img term fd (some buf) nbytes k).1.fds fd).filePosition : Int) ≤
          slotLength img (k.fds fd)) ↔
      0 ≤ nbytes ∧
        (k.fds fd).filePosition +
          min nbytes (slotLength img (k.fds fd) - (k.fds fd).filePosition) < 1023 * 4096 := by
  have hsmall : slotLength img (k.fds fd) ≤ 1023 * 4096 := (wf.length_range F.regular).2
  by_cases nonneg : 0 ≤ nbytes
  · obtain ⟨m, hm, hresult, hfds, hblocks⟩ := F.read_nonneg wf inRange nonneg term buf
    obtain ⟨-, hposition, -⟩ := F.moved hfds
    have hbounded := @copyRangeBlocks_bounded_iff (k.fds fd).filePosition m (by omega)
    constructor
    · rintro ⟨⟨-, -, blocks⟩, -⟩
      rw [hblocks] at blocks
      have := hbounded.mp blocks
      exact ⟨nonneg, by omega⟩
    · rintro ⟨-, hend⟩
      refine ⟨⟨.inr ?_, ?_, ?_⟩, ?_⟩
      · rw [hresult]
        omega
      · rw [hposition]
        omega
      · rw [hblocks]
        exact hbounded.mpr (by omega)
      · rw [hposition]
        omega
  · refine iff_of_false ?_ fun h => nonneg h.1
    rintro ⟨⟨-, advances, -⟩, within⟩
    obtain ⟨position, hfds, hout⟩ := F.read_neg wf inRange int32 (by omega) term buf
    obtain ⟨-, hposition, -⟩ := F.moved hfds
    rw [hposition] at advances within
    omega

end Read

/-! ## One call -/

/-- The table is a table, and its positions are in range. -/
structure PositionsInv (img : FsImage) (k : Kernel) : Prop where
  table : FdTable k.fds
  inRange : PositionsInRange img k.fds

section Call

variable {img : FsImage} {term : TerminalDriver} {k : Kernel} {fdArray : Int → FileD} {fd : Int}

/-- A change to one slot. -/
theorem PositionsInRange.update (P : PositionsInRange img fdArray) {slot : FileD}
    (h : FileSlot img (Function.update fdArray fd slot) fd →
      (slot.filePosition : Int) ≤ slotLength img slot) :
    PositionsInRange img (Function.update fdArray fd slot) := by
  intro i F
  by_cases hifd : i = fd
  · subst hifd
    rw [Function.update_self]
    exact ⟨Int.natCast_nonneg _, h F⟩
  · obtain ⟨hopened, hops, hregular⟩ := F
    unfold OpenSlot at hopened
    rw [Function.update_of_ne hifd] at hopened hops hregular ⊢
    exact P i ⟨hopened, hops, hregular⟩

theorem PositionsInv.openFile (I : PositionsInv img k) (wf : img.WellFormed)
    (filename : Option Buf) : PositionsInRange img (openCall img filename k).1.fds := by
  rcases @FdTable.opened img k I.table filename with
    ⟨-, -, hfds⟩ | ⟨name, j, rfl, -, -, hfds⟩
  · rw [hfds]
    exact I.inRange
  · rw [hfds]
    refine I.inRange.update fun F => ?_
    obtain ⟨-, hposition⟩ := openedSlot_flags (img.dentry j)
    have hregular := F.regular
    rw [Function.update_self] at hregular
    rw [hposition]
    exact (wf.length_range hregular).1

theorem PositionsInv.close (I : PositionsInv img k) (fd : Int) :
    PositionsInRange img (closeCall fd k).1.fds := by
  obtain ⟨hcloses, hrefuses⟩ := I.table.closeSpec fd
  by_cases hopen : OpenSlot k.fds fd
  · rw [(hcloses hopen).2]
    refine I.inRange.update fun F => ?_
    have hflags := F.opened.2.2
    rw [Function.update_self] at hflags
    exact absurd (show (0 : Nat) = 1 from hflags) (by decide)
  · rw [(hrefuses hopen).2]
    exact I.inRange

/-- A read of anything else moves no regular file's position. -/
theorem PositionsInv.readOther (I : PositionsInv img k) (keeps : term.KeepsProcesses)
    (other : ¬ FileSlot img k.fds fd) (buf : Option Buf) (nbytes : Int) :
    PositionsInRange img (readCall img term fd buf nbytes k).1.fds := by
  rcases @FdTable.read img term k I.table keeps fd buf nbytes with hfds | ⟨position, hopen, hfds⟩
  · rw [hfds]
    exact I.inRange
  · rw [hfds]
    refine I.inRange.update fun F => absurd ⟨hopen, ?_, ?_⟩ other
    · have hops := F.ops
      rwa [Function.update_self] at hops
    · have hregular := F.regular
      rwa [Function.update_self] at hregular

/-- A read of a regular file moves its own position at most. -/
theorem PositionsInv.read_fds (I : PositionsInv img k) (keeps : term.KeepsProcesses) (fd : Int)
    (buf : Buf) (nbytes : Int) : ∃ position,
      (readCall img term fd (some buf) nbytes k).1.fds =
        Function.update k.fds fd { k.fds fd with filePosition := position } := by
  rcases @FdTable.read img term k I.table keeps fd (some buf) nbytes with hfds | ⟨p, -, hfds⟩
  · refine ⟨(k.fds fd).filePosition, ?_⟩
    rw [hfds, show { k.fds fd with filePosition := (k.fds fd).filePosition } = k.fds fd from rfl,
      Function.update_eq_self]
  · exact ⟨p, hfds⟩

theorem PositionsInv.readFile (I : PositionsInv img k) (keeps : term.KeepsProcesses)
    (F : FileSlot img k.fds fd) {buf : Buf} {nbytes : Int}
    (within : (((readCall img term fd (some buf) nbytes k).1.fds fd).filePosition : Int) ≤
      slotLength img (k.fds fd)) :
    PositionsInRange img (readCall img term fd (some buf) nbytes k).1.fds := by
  obtain ⟨position, hfds⟩ := I.read_fds keeps fd buf nbytes
  obtain ⟨-, hposition, -⟩ := F.moved hfds
  rw [hposition] at within
  rw [hfds]
  exact I.inRange.update fun _ => within

/-- A call that is in range met the condition. -/
theorem PositionsInv.needed (I : PositionsInv img k) (wf : img.WellFormed)
    (keeps : term.KeepsProcesses) {e : FdEvent} (asks : AsksInt32 k e)
    (C : CallInRange img term k e) : KeepsPositions img k e := by
  intro fd buf nbytes he F
  subst he
  obtain ⟨position, hfds⟩ := I.read_fds keeps fd buf nbytes
  obtain ⟨hmoved, -, hlength⟩ := F.moved hfds
  have hwithin := (C.positions fd hmoved).2
  rw [show slotLength img ((fdStep img term (.read fd (some buf) nbytes) k).fds fd) =
    slotLength img (k.fds fd) from hlength] at hwithin
  exact (F.read_inRange_iff wf (I.inRange fd F).2 asks.1 buf).mp
    ⟨C.read fd buf nbytes rfl F, hwithin⟩

/-- A call that meets the condition is in range. -/
theorem PositionsInv.callInRange (I : PositionsInv img k) (wf : img.WellFormed)
    (keeps : term.KeepsProcesses) {e : FdEvent} (asks : AsksInt32 k e)
    (ok : KeepsPositions img k e) : CallInRange img term k e := by
  have hread : ∀ fd buf nbytes, e = .read fd (some buf) nbytes → FileSlot img k.fds fd →
      ReadInRange img term fd buf nbytes k ∧
        (((readCall img term fd (some buf) nbytes k).1.fds fd).filePosition : Int) ≤
          slotLength img (k.fds fd) := by
    intro fd buf nbytes he F
    have hasks : -2147483648 ≤ nbytes := by
      subst he
      exact asks.1
    exact (F.read_inRange_iff wf (I.inRange fd F).2 hasks buf).mpr (ok fd buf nbytes he F)
  refine ⟨?_, fun fd buf nbytes he F => (hread fd buf nbytes he F).1⟩
  cases e with
  | openFile filename => exact I.openFile wf filename
  | close fd => exact I.close fd
  | write fd buf nbytes =>
    rw [show (fdStep img term (.write fd buf nbytes) k).fds = k.fds from
      fds_of_proc (writeCall_proc keeps fd buf nbytes k)]
    exact I.inRange
  | read fd buf nbytes =>
    by_cases F : FileSlot img k.fds fd
    · cases buf with
      | none => exact I.inRange
      | some b => exact I.readFile keeps F (hread fd b nbytes rfl F).2
    · exact I.readOther keeps F buf nbytes

/-- One call. -/
theorem PositionsInv.step (I : PositionsInv img k) (wf : img.WellFormed)
    (keeps : term.KeepsProcesses) {e : FdEvent} (asks : AsksInt32 k e)
    (ok : KeepsPositions img k e) : PositionsInv img (fdStep img term e k) :=
  ⟨(I.table.step keeps e).1, (I.callInRange wf keeps asks ok).positions⟩

end Call

/-! ## Runs -/

/-- A process that has just been started has no file open. -/
theorem JustStarted.positions {img : FsImage} {k₁ : Kernel} (start : JustStarted img k₁) :
    PositionsInv img k₁ := by
  refine ⟨start.streams.table, fun fd F => ?_⟩
  have hopened := (start.streams.opened fd).mpr F.opened
  cases hopened

/-- The calls of a process are all in range, with every position they lead through, just when
each of them meets the condition in the state it is made in. -/
theorem filePositions_of_run {img : FsImage} (wf : img.WellFormed) {term : TerminalDriver}
    (keeps : term.KeepsProcesses) {k₁ : Kernel} (start : JustStarted img k₁) (es : List FdEvent) :
    PositionsInRange img k₁.fds ∧
      (Runs.Meets (fdMachine img term) AsksInt32 (CallInRange img term) k₁ es ↔
        Runs.Meets (fdMachine img term) AsksInt32 (KeepsPositions img) k₁ es) := by
  have hstart := start.positions
  refine ⟨hstart.inRange, Runs.meets_congr (PositionsInv img) ?_ ?_ hstart⟩
  · intro k e k' I asks ok hstep
    obtain rfl := Option.some.inj hstep
    exact I.step wf keeps asks ok
  · intro k e k' I asks _
    exact ⟨I.needed wf keeps asks, I.callInRange wf keeps asks⟩

/-- A file of 28 bytes read in two parts, the second one clipped. -/
theorem filePositions_of_run_twice :
    ∃ k₁, JustStarted shellImage k₁ ∧
      Runs.Meets (fdMachine shellImage quietTerminal) AsksInt32
        (CallInRange shellImage quietTerminal) k₁
        [.openFile (some (cstr (bytes "shell"))), .read 2 (some fun _ => 0) 10,
          .read 2 (some fun _ => 0) 100] := by
  obtain ⟨k₁, start⟩ : ∃ k₁, JustStarted shellImage k₁ :=
    ⟨_, zeroFrame, coldBoot, 0x08048018, newUserBottom, .inr ⟨some (bytes "shell"), rfl⟩⟩
  -- no read can end after byte 28
  have hok : ∀ (k : Kernel) (e : FdEvent),
      (∀ fd buf nbytes, e = .read fd buf nbytes → 0 ≤ nbytes) →
        KeepsPositions shellImage k e := by
    intro k e nonneg fd buf nbytes he _
    have hlength : slotLength shellImage (k.fds fd) = 28 := rfl
    exact ⟨nonneg _ _ _ he, by omega⟩
  have hrun := filePositions_of_run shellImage_wellFormed quietTerminal_keeps start
  refine ⟨k₁, start, (hrun _).2.mpr fun _ _ _ => ⟨hok _ _ ?_, fun _ _ _ => ⟨hok _ _ ?_,
    fun _ _ _ => ⟨hok _ _ ?_, trivial⟩⟩⟩⟩
  · intro _ _ _ he
    cases he
  · intro _ _ _ he
    cases he
    decide
  · intro _ _ _ he
    cases he
    decide

/-- A count of -1 at position 0 leaves the position at `0xFFFFFFFF`. -/
theorem filePositions_of_run_negative :
    ∃ k₁, shellImage.WellFormed ∧ JustStarted shellImage k₁ ∧
      ¬ Runs.Meets (fdMachine shellImage quietTerminal) AsksInt32
        (CallInRange shellImage quietTerminal) k₁
        [.openFile (some (cstr (bytes "shell"))), .read 2 (some fun _ => 0) (-1)] := by
  have start : JustStarted shellImage _ :=
    ⟨zeroFrame, coldBoot, 0x08048018, newUserBottom, .inr ⟨some (bytes "shell"), rfl⟩⟩
  refine ⟨_, shellImage_wellFormed, start, fun h => ?_⟩
  obtain ⟨-, hread⟩ := h _ trivial rfl
  obtain ⟨hcall, -⟩ := hread _ ⟨by decide, by decide⟩ rfl
  have hin := hcall.positions 2 ⟨by decide +kernel, by decide +kernel, 0, by decide +kernel⟩
  exact absurd hin.2 (by decide +kernel)

end Mp3Kernel
