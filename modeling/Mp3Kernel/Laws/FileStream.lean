import Mp3Kernel.Laws.DescriptorTable
import Mp3Kernel.Laws.Transfer

/-!
# Descriptors as byte streams

An open descriptor is a reader of the file it was opened on: a `Handle`, which holds what
its reads have delivered so far. The globals that `open` and `read` overwrite on the way
carry nothing from one call to the next, so handles move independently, and a handle's slot
always stands where its deliveries end (`Streams`). What a handle has delivered is therefore
a head of its file, whatever the sizes asked for.
-/

namespace Mp3Kernel

/-! ## Handles -/

/-- The entry a descriptor was opened on, and the bytes its reads have delivered since. -/
structure Handle where
  entry : Nat
  delivered : List UInt8
  deriving DecidableEq

/-- The handles of a process, by descriptor. -/
abbrev Handles := Int → Option Handle

/-- What a read delivers: the head of the buffer, as far as the count it returns. -/
def readBytes (r : Kernel × Option Buf × Int) : List UInt8 :=
  match r.2.1 with
  | none => []
  | some buf => (List.range r.2.2.toNat).map buf

def Handle.deliver (bs : List UInt8) (h : Handle) : Handle :=
  { h with delivered := h.delivered ++ bs }

section Handles

variable (img : FsImage) (term : TerminalDriver)

/-- What a call does to the handles. -/
def Handles.step (e : FdEvent) (k : Kernel) (g : Handles) : Handles :=
  match e with
  | .openFile filename =>
    if (openCall img filename k).2 = -1 then g
    else
      Function.update g (openCall img filename k).2
        ((filename.bind (knownEntry img)).map fun j => ⟨j, []⟩)
  | .read fd buf nbytes =>
    Function.update g fd
      ((g fd).map (Handle.deliver (readBytes (readCall img term fd buf nbytes k))))
  | .write _ _ _ => g
  | .close fd => if (closeCall fd k).2 = -1 then g else Function.update g fd none

theorem Handles.step_openFile (filename : Option Buf) (k : Kernel) (g : Handles) :
    g.step img term (.openFile filename) k =
      if (openCall img filename k).2 = -1 then g
      else
        Function.update g (openCall img filename k).2
          ((filename.bind (knownEntry img)).map fun j => ⟨j, []⟩) := rfl

theorem Handles.step_read (fd : Int) (buf : Option Buf) (nbytes : Int) (k : Kernel) (g : Handles) :
    g.step img term (.read fd buf nbytes) k =
      Function.update g fd
        ((g fd).map (Handle.deliver (readBytes (readCall img term fd buf nbytes k)))) := rfl

theorem Handles.step_close (fd : Int) (k : Kernel) (g : Handles) :
    g.step img term (.close fd) k =
      if (closeCall fd k).2 = -1 then g else Function.update g fd none := rfl

/-- The handles after a list of calls. -/
def runHandles : Kernel → Handles → List FdEvent → Handles
  | _, g, [] => g
  | k, g, e :: es => runHandles (fdStep img term e k) (g.step img term e k) es

/-- The stream a handle reads. -/
def Handle.stream (h : Handle) : Nat → UInt8 :=
  fileByte img (img.inode (img.dentry h.entry).inodeIdx)

/-- The length of the file a handle reads. -/
def Handle.length (h : Handle) : Int := (img.inode (img.dentry h.entry).inodeIdx).length

end Handles

/-! ## The invariant -/

/-- A handle on a regular file: its slot stands where its deliveries end, and they are the
head of the file. -/
structure Handle.Reads (img : FsImage) (h : Handle) (slot : FileD) : Prop where
  known : h.entry < img.boot.numEntry
  slot : slot = ⟨fileTable, (img.dentry h.entry).inodeIdx, h.delivered.length, 1⟩
  le : (h.delivered.length : Int) ≤ h.length img
  prefix_eq : h.delivered = Stream.slice (h.stream img) 0 h.delivered.length

/-- The handles and the table agree. -/
structure Streams (img : FsImage) (fdArray : Int → FileD) (g : Handles) : Prop where
  table : FdTable fdArray
  opened : ∀ fd, (g fd).isSome ↔ OpenSlot fdArray fd
  reads : ∀ fd h, g fd = some h → (img.dentry h.entry).type = 2 → h.Reads img (fdArray fd)

theorem findEntry_lt {img : FsImage} {filename : Buf} {j n i : Nat}
    (h : findEntry img filename n i = some j) : j < i + n := by
  induction n generalizing i with
  | zero => cases h
  | succ n ih =>
    unfold findEntry at h
    split at h
    · cases h
      omega
    · have := ih h
      omega

theorem knownEntry_lt {img : FsImage} {filename : Buf} {j : Nat}
    (h : knownEntry img filename = some j) : j < img.boot.numEntry := by
  unfold knownEntry at h
  split at h
  · cases h
  · have := findEntry_lt h
    omega

/-- A handle just opened. -/
theorem Handle.reads_opened {img : FsImage} (wf : img.WellFormed) {j : Nat}
    (known : j < img.boot.numEntry) (regular : (img.dentry j).type = 2) :
    Handle.Reads img ⟨j, []⟩ (openedSlot (img.dentry j)) where
  known := known
  slot := by simp [openedSlot, regular]
  le := (wf.length j known regular).1
  prefix_eq := rfl

section Read

variable {img : FsImage} {term : TerminalDriver} {k : Kernel} {g : Handles} {fd nbytes : Int}
  {h : Handle}

/-- What is in range of the file a handle reads. -/
theorem Handle.Reads.range {slot : FileD} (R : h.Reads img slot) (wf : img.WellFormed)
    (regular : (img.dentry h.entry).type = 2) (nonneg : 0 ≤ nbytes) :
    ∃ m : Nat, (m : Int) = min nbytes (h.length img - h.delivered.length) ∧
      ReadRange img slot nbytes h.delivered.length m := by
  obtain ⟨known, hslot, hle, _⟩ := R
  obtain ⟨_, hsmall⟩ := wf.length h.entry known regular
  unfold Handle.length at hle ⊢
  refine ⟨(min nbytes ((img.inode (img.dentry h.entry).inodeIdx).length -
    h.delivered.length)).toNat, by omega, ?_⟩
  subst hslot
  exact ⟨rfl, hle, hsmall, by dsimp only; omega⟩

/-- A read through an open file slot is `file_read`. -/
theorem readCall_file (hopen : OpenSlot k.fds fd) (hops : (k.fds fd).fileOpTable = fileTable)
    (buf : Buf) :
    readCall img term fd (some buf) nbytes k =
      ((fileRead img fd buf nbytes k).1, some (fileRead img fd buf nbytes k).2.1,
        (fileRead img fd buf nbytes k).2.2) := by
  obtain ⟨lo, hi, hflags⟩ := hopen
  have hgood : ¬ badFd fd k := by
    rintro (h | h | h)
    · omega
    · omega
    · exact absurd (hflags.symm.trans h) (by decide)
  have hfn : (k.currentPcb.fdArray fd).fileOpTable.readFn = .fileRead :=
    congrArg FileOp.readFn hops
  unfold readCall
  dsimp only
  rw [if_neg hgood, hfn]
  rfl

/-- A read of a regular file: what it returns, what it delivers, and the slot it leaves. -/
theorem Streams.read (S : Streams img k.fds g) (term : TerminalDriver) (wf : img.WellFormed)
    (hg : g fd = some h) (regular : (img.dentry h.entry).type = 2) (nonneg : 0 ≤ nbytes) (buf : Buf) :
    let r := readCall img term fd (some buf) nbytes k
    ∃ m : Nat, r.2.2 = m ∧ (m : Int) = min nbytes (h.length img - h.delivered.length) ∧
      readBytes r = Stream.slice (h.stream img) h.delivered.length m ∧
      r.1.fds = Function.update k.fds fd
        { k.fds fd with filePosition := h.delivered.length + m } := by
  have R := S.reads fd h hg regular
  obtain ⟨m, hm, hrange⟩ := R.range wf regular nonneg
  obtain ⟨hcount, hbuf, hfds⟩ := hrange.fileRead buf
  have hopen : OpenSlot k.fds fd := (S.opened fd).mp (by rw [hg]; rfl)
  have hread := @readCall_file img term k fd nbytes hopen (by rw [R.slot]) buf
  have hstream : h.stream img = fileByte img (img.inode (k.fds fd).inode) := by
    rw [R.slot]
    rfl
  intro r
  refine ⟨m, ?_, hm, ?_, ?_⟩
  · show (readCall img term fd (some buf) nbytes k).2.2 = m
    rw [hread]
    exact hcount
  · show readBytes (readCall img term fd (some buf) nbytes k) = _
    rw [hread, hstream]
    unfold readBytes
    dsimp only
    rw [hcount, hbuf, Int.toNat_natCast]
    exact Stream.map_splice _ _ (le_storedBytes _ _) buf
  · show (readCall img term fd (some buf) nbytes k).1.fds = _
    rw [hread]
    exact hfds

end Read

/-! ## One call -/

section Step

variable {img : FsImage} {term : TerminalDriver} {k : Kernel} {fdArray : Int → FileD}
  {g : Handles} {fd : Int} {h : Handle}

/-- The handles on the slots a call does not touch. -/
theorem Streams.update (S : Streams img fdArray g) {slot : FileD} {h' : Option Handle}
    (table : FdTable (Function.update fdArray fd slot))
    (opened : h'.isSome ↔ OpenSlot (Function.update fdArray fd slot) fd)
    (reads : ∀ h, h' = some h → (img.dentry h.entry).type = 2 → h.Reads img slot) :
    Streams img (Function.update fdArray fd slot) (Function.update g fd h') := by
  refine ⟨table, fun i => ?_, fun i h hi => ?_⟩
  · by_cases hifd : i = fd
    · rw [hifd, Function.update_self]
      exact opened
    · rw [Function.update_of_ne hifd, OpenSlot, Function.update_of_ne hifd]
      exact S.opened i
  · by_cases hifd : i = fd
    · rw [hifd, Function.update_self] at hi ⊢
      exact reads h hi
    · rw [Function.update_of_ne hifd] at hi ⊢
      exact S.reads i h hi

/-- A read moves the handle it reads, if the file is regular, by what it delivers. -/
theorem Handle.Reads.deliver {slot : FileD} (R : h.Reads img slot) {m : Nat}
    (within : (h.delivered.length + m : Int) ≤ h.length img) :
    (h.deliver (Stream.slice (h.stream img) h.delivered.length m)).Reads img
      { slot with filePosition := h.delivered.length + m } := by
  obtain ⟨known, hslot, hle, hprefix⟩ := R
  have hlength : (h.deliver (Stream.slice (h.stream img) h.delivered.length m)).delivered.length =
      h.delivered.length + m := by simp [Handle.deliver]
  refine ⟨known, ?_, ?_, ?_⟩
  · rw [hlength, hslot]
    rfl
  · rw [hlength]
    exact_mod_cast within
  · have hjoin := Stream.slice_add (h.stream img) 0 h.delivered.length m
    rw [Nat.zero_add, ← hprefix] at hjoin
    rw [hlength]
    exact hjoin.symm

theorem Streams.readStep (S : Streams img k.fds g) (wf : img.WellFormed)
    (keeps : term.KeepsProcesses) (buf : Option Buf) {nbytes : Int} (nonneg : 0 ≤ nbytes) :
    Streams img (readCall img term fd buf nbytes k).1.fds
      (Function.update g fd
        ((g fd).map (Handle.deliver (readBytes (readCall img term fd buf nbytes k))))) := by
  have hsame : Function.update k.fds fd (k.fds fd) = k.fds := Function.update_eq_self _ _
  cases hg : g fd with
  | none =>
    -- not open, so nothing moves
    have hclosed : ¬ OpenSlot k.fds fd := by
      rw [← S.opened fd, hg]
      exact Bool.false_ne_true
    have hfds : (readCall img term fd buf nbytes k).1.fds = k.fds := by
      rcases S.table.read keeps fd buf nbytes with hfds | ⟨_, hopen, _⟩
      · exact hfds
      · exact absurd hopen hclosed
    rw [hfds, Option.map_none, ← hg, Function.update_eq_self]
    exact S
  | some h =>
    have hopen : OpenSlot k.fds fd := (S.opened fd).mp (by rw [hg]; rfl)
    by_cases regular : (img.dentry h.entry).type = 2
    · cases buf with
      | none =>
        have hfds : (readCall img term fd none nbytes k).1.fds = k.fds := rfl
        have hnone : Handle.deliver (readBytes (readCall img term fd none nbytes k)) h = h := by
          simp [Handle.deliver, readBytes, readCall]
        rw [hfds, Option.map_some, hnone, ← hg, Function.update_eq_self]
        exact S
      | some buf =>
        obtain ⟨m, _, hm, hbytes, hfds⟩ := S.read term wf hg regular nonneg buf
        have R := S.reads fd h hg regular
        rw [hfds, hbytes, Option.map_some]
        refine S.update (S.table.update hopen.1 (.inr hopen.2.2)) ?_ ?_
        · simpa [OpenSlot] using hopen
        · intro h' heq _
          cases heq
          refine R.deliver ?_
          have := R.le
          omega
    · -- not a regular file: whatever the slot holds, the handle stays on its entry
      have hirregular : ∀ h', (some h).map (Handle.deliver
          (readBytes (readCall img term fd buf nbytes k))) = some h' →
          ¬ (img.dentry h'.entry).type = 2 := by
        intro h' heq
        cases heq
        exact regular
      rcases S.table.read keeps fd buf nbytes with hfds | ⟨position, _, hfds⟩
      · rw [hfds, ← hsame]
        refine S.update (by rw [hsame]; exact S.table) (by simpa [OpenSlot] using hopen) ?_
        exact fun h' heq hreg => absurd hreg (hirregular h' heq)
      · rw [hfds]
        refine S.update (S.table.update hopen.1 (.inr hopen.2.2))
          (by simpa [OpenSlot] using hopen) ?_
        exact fun h' heq hreg => absurd hreg (hirregular h' heq)

theorem Streams.openStep (S : Streams img k.fds g) (wf : img.WellFormed)
    (filename : Option Buf) :
    Streams img (openCall img filename k).1.fds (g.step img term (.openFile filename) k) := by
  rw [Handles.step_openFile]
  rcases @FdTable.opened img k S.table filename with
    ⟨_, hresult, hfds⟩ | ⟨name, j, rfl, hname, hfree, hfds⟩
  · rw [if_pos hresult, hfds]
    exact S
  · obtain ⟨hflags, _⟩ := openedSlot_flags (img.dentry j)
    have hlo := hfree.ge
    rw [if_neg (by omega), hfds]
    simp only [Option.bind_some, hname, Option.map_some]
    refine S.update (S.table.update hfree.ge (.inr hflags)) ?_ ?_
    · simp [OpenSlot, hfree.ge, hfree.le, hflags]
    · intro h heq regular
      cases heq
      exact Handle.reads_opened wf (knownEntry_lt hname) regular

theorem Streams.closeStep (S : Streams img k.fds g) (fd : Int) :
    Streams img (closeCall fd k).1.fds (g.step img term (.close fd) k) := by
  rw [Handles.step_close]
  obtain ⟨hcloses, hrefuses⟩ := S.table.closeSpec fd
  by_cases hopen : OpenSlot k.fds fd
  · obtain ⟨hresult, hfds⟩ := hcloses hopen
    rw [if_neg (by omega), hfds]
    refine S.update (S.table.update hopen.1 (.inl rfl)) ?_ ?_
    · simp [OpenSlot]
    · rintro _ heq _
      cases heq
  · obtain ⟨hresult, hfds⟩ := hrefuses hopen
    rw [if_pos hresult, hfds]
    exact S

/-- A read asks for a count that is not negative. -/
def FdEvent.AsksCount : FdEvent → Prop
  | .read _ _ nbytes => 0 ≤ nbytes
  | _ => True

/-- What one call preserves. -/
theorem Streams.step (S : Streams img k.fds g) (wf : img.WellFormed)
    (keeps : term.KeepsProcesses) {e : FdEvent} (asks : e.AsksCount) :
    Streams img (fdStep img term e k).fds (g.step img term e k) := by
  cases e with
  | openFile filename => exact S.openStep wf filename
  | read fd buf nbytes => exact S.readStep wf keeps buf asks
  | write fd buf nbytes =>
    have hfds : (fdStep img term (.write fd buf nbytes) k).fds = k.fds :=
      fds_of_proc (writeCall_proc keeps fd buf nbytes k)
    rw [hfds]
    exact S
  | close fd => exact S.closeStep fd

/-- The descriptor a call names. -/
def FdEvent.target : FdEvent → Option Int
  | .openFile _ => none
  | .read fd _ _ | .write fd _ _ | .close fd => some fd

/-- A call on another descriptor, or an `open`, leaves a handle and its slot as they are. -/
theorem Streams.other (S : Streams img k.fds g) (keeps : term.KeepsProcesses) (hg : g fd = some h)
    {e : FdEvent} (other : e.target ≠ some fd) :
    g.step img term e k fd = some h ∧ (fdStep img term e k).fds fd = k.fds fd := by
  have hopen : OpenSlot k.fds fd := (S.opened fd).mp (by rw [hg]; rfl)
  cases e with
  | openFile filename =>
    rw [Handles.step_openFile, fdStep]
    rcases @FdTable.opened img k S.table filename with
      ⟨_, hresult, hfds⟩ | ⟨name, j, rfl, hname, hfree, hfds⟩
    · rw [if_pos hresult, hfds]
      exact ⟨hg, rfl⟩
    · -- the slot it fills was free
      have hne : fd ≠ (openCall img (some name) k).2 := by
        intro heq
        exact openFds_eq_none.mp (heq ▸ hfree.free) hopen
      have hlo := hfree.ge
      rw [if_neg (by omega), hfds, Function.update_of_ne hne, Function.update_of_ne hne]
      exact ⟨hg, rfl⟩
  | read fd' buf nbytes =>
    have hne : fd ≠ fd' := fun heq => other (congrArg some heq.symm)
    rw [Handles.step_read, fdStep, Function.update_of_ne hne]
    refine ⟨hg, ?_⟩
    rcases @FdTable.read img term k S.table keeps fd' buf nbytes with hfds | ⟨_, _, hfds⟩
    · rw [hfds]
    · rw [hfds, Function.update_of_ne hne]
  | write fd' buf nbytes =>
    have hfds : (fdStep img term (.write fd' buf nbytes) k).fds = k.fds :=
      fds_of_proc (writeCall_proc keeps fd' buf nbytes k)
    rw [hfds]
    exact ⟨hg, rfl⟩
  | close fd' =>
    have hne : fd ≠ fd' := fun heq => other (congrArg some heq.symm)
    rw [Handles.step_close, fdStep]
    obtain ⟨hcloses, hrefuses⟩ := S.table.closeSpec fd'
    by_cases hopen' : OpenSlot k.fds fd'
    · obtain ⟨hresult, hfds⟩ := hcloses hopen'
      rw [if_neg (by omega), hfds, Function.update_of_ne hne, Function.update_of_ne hne]
      exact ⟨hg, rfl⟩
    · obtain ⟨hresult, hfds⟩ := hrefuses hopen'
      rw [if_pos hresult, hfds]
      exact ⟨hg, rfl⟩

end Step

/-! ## Sequences of calls -/

/-- What a list of calls preserves. -/
theorem Streams.run {img : FsImage} {term : TerminalDriver} (wf : img.WellFormed)
    (keeps : term.KeepsProcesses) (es : List FdEvent) (asks : ∀ e ∈ es, e.AsksCount) {k : Kernel}
    {g : Handles} (S : Streams img k.fds g) :
    Streams img (runFds img term k es).fds (runHandles img term k g es) := by
  induction es generalizing k g with
  | nil => exact S
  | cons e es ih =>
    have hstep := S.step wf keeps (asks e List.mem_cons_self)
    exact ih (fun e' he => asks e' (List.mem_cons_of_mem _ he)) hstep

/-- A process has just been started and is current. -/
def JustStarted (img : FsImage) (k₁ : Kernel) : Prop :=
  ∃ frame k₀ eip esp,
    initShell img frame k₀ = some (k₁, .iret eip esp) ∨
      ∃ command, executeHandler img frame command k₀ = some (k₁, .iret eip esp)

/-- It has no descriptors of its own yet. -/
theorem JustStarted.streams {img : FsImage} {k₁ : Kernel} (start : JustStarted img k₁) :
    Streams img k₁.fds fun _ => none := by
  have hfresh : FdTable k₁.fds ∧ openFds k₁.fds = fun _ => none := by
    obtain ⟨frame, k₀, eip, esp, hshell | ⟨command, hexecute⟩⟩ := start
    · rcases initShell_some hshell with ⟨_, hexit, _⟩ | ⟨_, pid, _, _, hstarted⟩
      · cases hexit
      · exact hstarted.fdTable
    · rcases executeHandler_some hexecute with ⟨_, hexit, _⟩ | ⟨_, pid, _, _, hstarted⟩
      · cases hexit
      · exact hstarted.fdTable
  obtain ⟨T, hempty⟩ := hfresh
  refine ⟨T, fun fd => ?_, fun fd h heq => by cases heq⟩
  have hclosed : ¬ OpenSlot k₁.fds fd := openFds_eq_none.mp (congrFun hempty fd)
  simp [hclosed]

/-- After any list of calls of a process, each descriptor open has a handle, and a handle on a
regular file has delivered a head of it. The next read returns the bytes after that head, as
many as are asked for and left; one that asks for some and gets none finds the whole file
delivered. A call on any other descriptor changes neither the handle nor the slot. -/
theorem fileStream_of_run {img : FsImage} (wf : img.WellFormed) {term : TerminalDriver}
    (keeps : term.KeepsProcesses) {k₁ : Kernel} (start : JustStarted img k₁)
    (es : List FdEvent) (asks : ∀ e ∈ es, e.AsksCount) :
    let k := runFds img term k₁ es
    let g := runHandles img term k₁ (fun _ => none) es
    (∀ fd, (g fd).isSome ↔ OpenSlot k.fds fd) ∧
      ∀ fd h, g fd = some h → (img.dentry h.entry).type = 2 →
        let p := h.delivered.length
        (p : Int) ≤ h.length img ∧
          h.delivered = Stream.slice (h.stream img) 0 p ∧
          (∀ buf nbytes, 0 ≤ nbytes →
            let r := readCall img term fd (some buf) nbytes k
            r.2.2 = min nbytes (h.length img - p) ∧
              readBytes r = Stream.slice (h.stream img) p r.2.2.toNat) ∧
          (∀ buf nbytes, 0 < nbytes → (readCall img term fd (some buf) nbytes k).2.2 = 0 →
            h.delivered = Stream.slice (h.stream img) 0 (h.length img).toNat) ∧
          ∀ e : FdEvent, e.target ≠ some fd →
            g.step img term e k fd = some h ∧ (fdStep img term e k).fds fd = k.fds fd := by
  intro k g
  have S : Streams img k.fds g := start.streams.run wf keeps es asks
  refine ⟨S.opened, fun fd h hg regular => ?_⟩
  intro p
  have R := S.reads fd h hg regular
  refine ⟨R.le, R.prefix_eq, fun buf nbytes nonneg => ?_, fun buf nbytes positive hzero => ?_,
    fun e other => S.other keeps hg other⟩
  · obtain ⟨m, hresult, hm, hbytes, _⟩ := S.read term wf hg regular nonneg buf
    refine ⟨hresult.trans hm, ?_⟩
    rw [hresult, Int.toNat_natCast]
    exact hbytes
  · obtain ⟨m, hresult, hm, _⟩ := S.read term wf hg regular (Int.le_of_lt positive) buf
    have hle := R.le
    have hall : (h.length img).toNat = h.delivered.length := by omega
    rw [hall]
    exact R.prefix_eq

theorem shellImage_wellFormed : shellImage.WellFormed where
  length := fun _ _ _ => ⟨by show (0 : Int) ≤ 28; decide, by show (28 : Int) ≤ 1023 * 4096; decide⟩
  blocks := fun _ _ _ _ _ => Nat.one_pos

/-- One file on two descriptors, with 10 bytes read on the first and 5 on the second. -/
theorem fileStream_of_run_twice :
    ∃ k₁, JustStarted shellImage k₁ ∧
      ∀ buf nbytes, 0 ≤ nbytes →
        (readCall shellImage quietTerminal 2 (some buf) nbytes
          (runFds shellImage quietTerminal k₁
            [.openFile (some (cstr (bytes "shell"))), .openFile (some (cstr (bytes "shell"))),
              .read 2 (some fun _ => 0) 10, .read 3 (some fun _ => 0) 5])).2.2 =
          min nbytes (28 - 10) := by
  have start : JustStarted shellImage _ :=
    ⟨zeroFrame, coldBoot, 0x08048018, newUserBottom, .inr ⟨some (bytes "shell"), rfl⟩⟩
  refine ⟨_, start, fun buf nbytes nonneg => ?_⟩
  have hrun := fileStream_of_run shellImage_wellFormed quietTerminal_keeps start
    [.openFile (some (cstr (bytes "shell"))), .openFile (some (cstr (bytes "shell"))),
      .read 2 (some fun _ => 0) 10, .read 3 (some fun _ => 0) 5]
    (by simp [FdEvent.AsksCount])
  have hhandle := hrun.2 2 ⟨0, elfHeader.take 10⟩ (by decide +kernel) rfl
  exact (hhandle.2.2.1 buf nbytes nonneg).1

end Mp3Kernel
