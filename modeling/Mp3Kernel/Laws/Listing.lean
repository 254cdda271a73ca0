import Mp3Kernel.Laws.Calls
import Mp3Kernel.Lib.Run

/-!
# Listings of the directory

`dir_read` takes the next entry from one counter for the whole system, which no `open` resets
and which a read past the last entry takes back to the first. So the counter tells how many
directory reads there have been since the machine booted, on whatever descriptors, and a
descriptor's listing is the directory only as long as that number and its own stay in step.
-/

namespace Mp3Kernel

/-! ## What a run has read -/

/-- The directory reads of a run: all of them, and those of each descriptor since it was
opened, by the PCB that holds it. -/
structure Listings where
  total : Nat
  since : Int → Int → Nat

/-- No directory read yet. -/
def Listings.none : Listings := ⟨0, fun _ _ => 0⟩

/-- The descriptor a call lists the directory on. -/
def dirReadOf (k : Kernel) : ProcEvent ⊕ FdEvent → Option Int
  | .inr (.read fd (some _) _) =>
    if ¬ badFd fd k ∧ (k.currentPcb.fdArray fd).fileOpTable.readFn = .dirRead then some fd
    else Option.none
  | _ => Option.none

/-- The descriptor a call opens. -/
def openOf (img : FsImage) (k : Kernel) : ProcEvent ⊕ FdEvent → Option Int
  | .inr (.openFile filename) =>
    if (openCall img filename k).2 = -1 then Option.none else some (openCall img filename k).2
  | _ => Option.none

/-- A change of the current process's count for one descriptor. -/
def Listings.count (k : Kernel) (fd : Int) (n : Nat) (h : Listings) : Int → Int → Nat :=
  Function.update h.since k.proc.currentPcbPtr
    (Function.update (h.since k.proc.currentPcbPtr) fd n)

/-- The count after a call. -/
def noteListing (img : FsImage) (e : ProcEvent ⊕ FdEvent) (k _k' : Kernel) (h : Listings) :
    Listings :=
  match dirReadOf k e with
  | some fd => ⟨h.total + 1, h.count k fd (h.since k.proc.currentPcbPtr fd + 1)⟩
  | Option.none =>
    match openOf img k e with
    | some fd => { h with since := h.count k fd 0 }
    | Option.none => h

/-- The machine that counts its directory reads. -/
def listStep (img : FsImage) (term : TerminalDriver) :
    ProcEvent ⊕ FdEvent → Kernel × Listings → Option (Kernel × Listings) :=
  Runs.withHistory (sysStep img term) (noteListing img)

/-- A directory read asks for a whole name. -/
def asksName (s : Kernel × Listings) (e : ProcEvent ⊕ FdEvent) : Prop :=
  ∀ fd buf nbytes, e = .inr (.read fd buf nbytes) → dirReadOf s.1 e = some fd → 32 ≤ nbytes

/-- What a directory read should return: entry `j`, and nothing after the last. -/
def EntryRight (img : FsImage) (r : Kernel × Option Buf × Int) (j : Nat) : Prop :=
  (j < img.boot.numEntry →
    r.2.2 = 32 ∧ ∃ out, r.2.1 = some out ∧ ∀ i < 32, out i = (img.dentry j).name i) ∧
  (j = img.boot.numEntry → r.2.2 = 0)

/-- A turn is as good as `j`: the same, or that of an entry with the same name. -/
def SameTurn (img : FsImage) (turn j : Nat) : Prop :=
  j ≤ img.boot.numEntry →
    turn = j ∨ (turn < img.boot.numEntry ∧ j < img.boot.numEntry ∧
      ∀ i < 32, (img.dentry turn).name i = (img.dentry j).name i)

/-- A directory read returns the entry whose turn it is on its own descriptor. -/
def ListsRight (img : FsImage) (term : TerminalDriver) (s : Kernel × Listings)
    (e : ProcEvent ⊕ FdEvent) : Prop :=
  ∀ fd buf nbytes, e = .inr (.read fd buf nbytes) → dirReadOf s.1 e = some fd →
    EntryRight img (readCall img term fd buf nbytes s.1) (s.2.since s.1.proc.currentPcbPtr fd)

/-- The condition on a step: a directory read comes when the reads of all descriptors have
turned to the entry that its own descriptor's have. -/
def InTurn (img : FsImage) (s : Kernel × Listings) (e : ProcEvent ⊕ FdEvent) : Prop :=
  ∀ fd, dirReadOf s.1 e = some fd →
    SameTurn img (s.2.total % (img.boot.numEntry + 1)) (s.2.since s.1.proc.currentPcbPtr fd)

/-! ## The counter -/

/-- What the listing relies on: the terminal driver leaves the counter alone. -/
structure TerminalDriver.KeepsListing (term : TerminalDriver) : Prop where
  read : ∀ buf nbytes k,
    (term.terminalRead buf nbytes k).1.fs.dirOpenFileIdx = k.fs.dirOpenFileIdx
  write : ∀ buf nbytes k,
    (term.terminalWrite buf nbytes k).1.fs.dirOpenFileIdx = k.fs.dirOpenFileIdx

section Counter

variable {img : FsImage} {term : TerminalDriver} {k k' : Kernel}

theorem searchFrom_dirOpenFileIdx (filename : Buf) (n i : Nat) (v : FsVars) :
    (searchFrom img filename n i v).1.dirOpenFileIdx = v.dirOpenFileIdx := by
  induction n generalizing i v with
  | zero => rfl
  | succ n ih =>
    unfold searchFrom
    dsimp only
    split
    · rfl
    · exact ih _ _

theorem lookup_dirOpenFileIdx (filename : Buf) (k : Kernel) :
    (readDentryByName img filename k).1.fs.dirOpenFileIdx = k.fs.dirOpenFileIdx := by
  rw [readDentryByName_fs]
  split
  · rfl
  · exact searchFrom_dirOpenFileIdx _ _ _ _

theorem startProgram_fs {frame : Frame} {pid : Int} {child : Pcb} {exit : Exit}
    (h : startProgram img frame pid child k = some (k', exit)) : k'.fs = k.fs := by
  rcases startProgram_some h with ⟨_, _, rfl⟩ | ⟨_, _, _, _, rfl⟩ <;> rfl

theorem initShell_dirOpenFileIdx {frame : Frame} {exit : Exit}
    (h : initShell img frame k = some (k', exit)) :
    k'.fs.dirOpenFileIdx = k.fs.dirOpenFileIdx := by
  unfold initShell at h
  split at h
  next =>
    cases h
    rfl
  next pid _ =>
    dsimp only at h
    split at h
    next =>
      cases h
      exact lookup_dirOpenFileIdx _ (k.setId pid 1)
    next =>
      rw [startProgram_fs h]
      exact lookup_dirOpenFileIdx _ (k.setId pid 1)

theorem executeHandler_dirOpenFileIdx {frame : Frame} {command : Option (List UInt8)} {exit : Exit}
    (h : executeHandler img frame command k = some (k', exit)) :
    k'.fs.dirOpenFileIdx = k.fs.dirOpenFileIdx := by
  unfold executeHandler at h
  split at h
  next =>
    cases h
    rfl
  next command =>
    dsimp only at h
    split at h
    next =>
      cases h
      rfl
    next pid _ =>
      split at h
      next => cases h
      next =>
        split at h
        next =>
          cases h
          exact lookup_dirOpenFileIdx _ (k.setId pid 1)
        next =>
          rw [startProgram_fs h]
          exact lookup_dirOpenFileIdx _ (k.setId pid 1)

theorem haltTail_fs {pid currPcb status : Int} {exit : Exit}
    (h : haltTail pid currPcb status k = some (k', exit)) : k'.fs = k.fs := by
  unfold haltTail at h
  dsimp only at h
  split at h
  next => cases h
  next =>
    obtain ⟨rfl, rfl⟩ := Prod.mk.inj (Option.some.inj h)
    rw [haltClose_eq]
    unfold haltVidmap
    split <;> rfl

theorem haltHandler_dirOpenFileIdx {frame : Frame} {status : UInt8} {exit : Exit}
    (h : haltHandler img frame status k = some (k', exit)) :
    k'.fs.dirOpenFileIdx = k.fs.dirOpenFileIdx := by
  unfold haltHandler at h
  dsimp only at h
  split at h
  next => cases h
  next =>
    split at h
    next =>
      split at h
      next => cases h
      next hexec =>
        have hkept := executeHandler_dirOpenFileIdx hexec
        rwa [← haltTail_fs h] at hkept
      next hexec =>
        cases h
        have hkept := executeHandler_dirOpenFileIdx hexec
        exact hkept
    next => rw [haltTail_fs h]

/-- No process call moves the counter. -/
theorem procStep_dirOpenFileIdx {e : ProcEvent} (h : procStep img e k = some k') :
    k'.fs.dirOpenFileIdx = k.fs.dirOpenFileIdx := by
  cases e with
  | initShell frame =>
    obtain ⟨⟨_, exit⟩, hcall, rfl⟩ := Option.map_eq_some_iff.mp h
    exact initShell_dirOpenFileIdx hcall
  | execute frame command =>
    obtain ⟨⟨_, exit⟩, hcall, rfl⟩ := Option.map_eq_some_iff.mp h
    exact executeHandler_dirOpenFileIdx hcall
  | halt frame status =>
    obtain ⟨⟨_, exit⟩, hcall, rfl⟩ := Option.map_eq_some_iff.mp h
    exact haltHandler_dirOpenFileIdx hcall
  | vidmap screenStart =>
    obtain ⟨⟨_, eax⟩, hcall, rfl⟩ := Option.map_eq_some_iff.mp h
    rw [(vidmapHandler_frame hcall).1]
  | undoVidmap | remap vis exe | switchTerms vis exe =>
    cases h
    rfl
  | schedule pid vis exe =>
    simp only [procStep] at h
    split at h
    · cases h
      rfl
    · cases h

theorem Kernel.rtcVirRate_fs (rate : Nat) (k : Kernel) : (k.rtcVirRate rate).fs = k.fs := by
  unfold Kernel.rtcVirRate
  dsimp only
  split <;> rfl

theorem callOpen_dirOpenFileIdx (f : OpenFn) (filename : Buf) (k : Kernel) :
    (callOpen img f filename k).1.fs.dirOpenFileIdx = k.fs.dirOpenFileIdx := by
  cases f with
  | dirOpen | badcallOpen => rfl
  | fileOpen =>
    unfold callOpen fileOpen
    dsimp only
    split <;> exact lookup_dirOpenFileIdx filename k
  | rtcOpen =>
    show (k.rtcVirRate 1).fs.dirOpenFileIdx = _
    rw [k.rtcVirRate_fs]

theorem openCall_dirOpenFileIdx (filename : Option Buf) (k : Kernel) :
    (openCall img filename k).1.fs.dirOpenFileIdx = k.fs.dirOpenFileIdx := by
  unfold openCall
  split
  next => rfl
  next name =>
    split
    next => rfl
    next =>
      dsimp only
      split
      next => exact lookup_dirOpenFileIdx name k
      next => exact (callOpen_dirOpenFileIdx _ _ _).trans (lookup_dirOpenFileIdx name k)

theorem writeCall_dirOpenFileIdx (keeps : term.KeepsListing) (fd : Int) (buf : Option Buf)
    (nbytes : Int) (k : Kernel) :
    (writeCall term fd buf nbytes k).1.fs.dirOpenFileIdx = k.fs.dirOpenFileIdx := by
  unfold writeCall
  split
  next => rfl
  next b =>
    split
    next => rfl
    next =>
      cases (k.currentPcb.fdArray fd).fileOpTable.writeFn with
      | dirWrite | fileWrite | badcallWrite => rfl
      | terminalWrite => exact keeps.write b nbytes k
      | rtcWrite =>
        simp only [callWrite, Kernel.rtcWrite]
        split
        · rfl
        · split
          · rfl
          · rw [k.rtcVirRate_fs]

theorem closeCall_fs (fd : Int) (k : Kernel) : (closeCall fd k).1.fs = k.fs := by
  unfold closeCall
  split <;> rfl

theorem dirReadOf_some {e : ProcEvent ⊕ FdEvent} {fd : Int} (h : dirReadOf k e = some fd) :
    ∃ buf nbytes, e = .inr (.read fd buf nbytes) := by
  unfold dirReadOf at h
  split at h
  next =>
    split at h
    · cases h
      exact ⟨_, _, rfl⟩
    · cases h
  next => cases h

/-- A call that lists the directory is `dir_read`. -/
theorem readCall_dir {fd nbytes : Int} {buf : Option Buf}
    (h : dirReadOf k (.inr (.read fd buf nbytes)) = some fd) :
    ∃ b, buf = some b ∧ readCall img term fd buf nbytes k =
      ((dirRead img b nbytes k).1, some (dirRead img b nbytes k).2.1,
        (dirRead img b nbytes k).2.2) := by
  cases buf with
  | none => cases h
  | some b =>
    refine ⟨b, rfl, ?_⟩
    simp only [dirReadOf] at h
    split at h
    next hdir =>
      unfold readCall
      dsimp only
      rw [if_neg hdir.1, hdir.2]
      rfl
    next => cases h

theorem readData_dirOpenFileIdx (inode : Inode) (buf : Buf) (nbytes start : Int) (v : FsVars) :
    (readData img inode buf nbytes { v with lastRead := start }).1.dirOpenFileIdx =
      v.dirOpenFileIdx := rfl

theorem fileRead_dirOpenFileIdx (fd : Int) (buf : Buf) (nbytes : Int) (k : Kernel) :
    (fileRead img fd buf nbytes k).1.fs.dirOpenFileIdx = k.fs.dirOpenFileIdx := by
  have hproc : ∀ p (k : Kernel), { k with proc := p }.fs.dirOpenFileIdx = k.fs.dirOpenFileIdx :=
    fun _ _ => rfl
  let slot := k.currentPcb.fdArray fd
  let start := i32 slot.filePosition
  refine (hproc _ _).trans ?_
  exact @readData_dirOpenFileIdx img (img.inode slot.inode) buf
    (byteLeft (img.inode slot.inode) start nbytes) start k.fs

/-- Any other read leaves the counter where it is. -/
theorem readCall_dirOpenFileIdx (keeps : term.KeepsListing) {fd nbytes : Int} {buf : Option Buf}
    (h : dirReadOf k (.inr (.read fd buf nbytes)) = none) :
    (readCall img term fd buf nbytes k).1.fs.dirOpenFileIdx = k.fs.dirOpenFileIdx := by
  unfold readCall
  split
  next => rfl
  next b =>
    split
    next => rfl
    next hgood =>
      dsimp only
      cases hfn : (k.currentPcb.fdArray fd).fileOpTable.readFn with
      | dirRead => simp [dirReadOf, hgood, hfn] at h
      | fileRead => exact fileRead_dirOpenFileIdx fd b nbytes k
      | badcallRead => rfl
      | terminalRead => exact keeps.read b nbytes k
      | rtcRead => rfl

/-- The counter is where the reads of all descriptors have turned. -/
def CounterTurns (img : FsImage) (s : Kernel × Listings) : Prop :=
  s.1.fs.dirOpenFileIdx = s.2.total % (img.boot.numEntry + 1)

/-- The next turn. -/
theorem turn_succ {turn total n : Nat} (h : turn = total % (n + 1)) :
    (if turn < n then turn + 1 else 0) = (total + 1) % (n + 1) := by
  have hlt : turn < n + 1 := h ▸ Nat.mod_lt _ (Nat.succ_pos n)
  rw [← Nat.mod_add_mod, ← h]
  split
  next hmore => exact (Nat.mod_eq_of_lt (by omega)).symm
  next hlast =>
    have hturn : turn = n := by omega
    rw [hturn, Nat.mod_self]

/-- What `dir_read` does to the counter. -/
theorem dirRead_dirOpenFileIdx (buf : Buf) (nbytes : Int) (k : Kernel) :
    (dirRead img buf nbytes k).1.fs.dirOpenFileIdx =
      if k.fs.dirOpenFileIdx < img.boot.numEntry then k.fs.dirOpenFileIdx + 1 else 0 := by
  unfold dirRead
  split <;> rfl

/-- What one call preserves. -/
theorem CounterTurns.step {e : ProcEvent ⊕ FdEvent} {s t : Kernel × Listings}
    (I : CounterTurns img s) (keeps : term.KeepsListing) (h : listStep img term e s = some t) :
    CounterTurns img t := by
  obtain ⟨k, counts⟩ := s
  obtain ⟨k', counts'⟩ := t
  obtain ⟨hstep, hnote⟩ := Runs.withHistory_some h
  dsimp only at hstep hnote
  have hidx : k.fs.dirOpenFileIdx = counts.total % (img.boot.numEntry + 1) := I
  show k'.fs.dirOpenFileIdx = counts'.total % (img.boot.numEntry + 1)
  cases hread : dirReadOf k e with
  | none =>
    have htotal : counts'.total = counts.total := by
      rw [hnote, noteListing, hread]
      dsimp only
      split <;> rfl
    have hkept : k'.fs.dirOpenFileIdx = k.fs.dirOpenFileIdx := by
      cases e with
      | inl e => exact procStep_dirOpenFileIdx hstep
      | inr e =>
        rw [sysStep_fd hstep]
        cases e with
        | openFile filename => exact openCall_dirOpenFileIdx filename k
        | read fd buf nbytes => exact readCall_dirOpenFileIdx keeps hread
        | write fd buf nbytes => exact writeCall_dirOpenFileIdx keeps fd buf nbytes k
        | close fd => exact congrArg FsVars.dirOpenFileIdx (closeCall_fs fd k)
    rw [hkept, htotal, hidx]
  | some fd =>
    have htotal : counts'.total = counts.total + 1 := by
      rw [hnote, noteListing, hread]
    obtain ⟨buf, nbytes, rfl⟩ := dirReadOf_some hread
    obtain ⟨b, _, hcall⟩ := @readCall_dir img term _ _ _ _ hread
    rw [htotal, sysStep_fd hstep, fdStep, hcall, dirRead_dirOpenFileIdx]
    exact turn_succ hidx

/-! ## One read -/

/-- `dir_read` of a whole name, before the counter's end. -/
theorem dirRead_within {buf : Buf} {nbytes : Int} (asks : 32 ≤ nbytes)
    (h : k.fs.dirOpenFileIdx < img.boot.numEntry) :
    (dirRead img buf nbytes k).2.2 = 32 ∧
      ∀ i < 32, (dirRead img buf nbytes k).2.1 i = (img.dentry k.fs.dirOpenFileIdx).name i := by
  have hbytes : min 32 nbytes.toNat = 32 := by omega
  unfold dirRead
  rw [if_pos h, hbytes]
  refine ⟨rfl, fun i hi => ?_⟩
  dsimp only
  rw [if_pos hi, if_pos hi]

/-- `dir_read` at the counter's end. -/
theorem dirRead_past {buf : Buf} {nbytes : Int} (h : ¬ k.fs.dirOpenFileIdx < img.boot.numEntry) :
    (dirRead img buf nbytes k).2.2 = 0 := by
  unfold dirRead
  rw [if_neg h]

/-- A read at a turn returns entry `j` just when the turn is as good as `j`. -/
theorem entryRight_iff {r : Kernel × Option Buf × Int} {out : Buf} {turn j : Nat}
    (hout : r.2.1 = some out) (hturn : turn ≤ img.boot.numEntry)
    (within : turn < img.boot.numEntry →
      r.2.2 = 32 ∧ ∀ i < 32, out i = (img.dentry turn).name i)
    (past : ¬ turn < img.boot.numEntry → r.2.2 = 0) : EntryRight img r j ↔ SameTurn img turn j := by
  by_cases hmore : turn < img.boot.numEntry
  · obtain ⟨hcount, hname⟩ := within hmore
    constructor
    · rintro ⟨hentry, hend⟩ hj
      have hj' : j < img.boot.numEntry := by
        by_contra hlast
        have := hend (by omega)
        omega
      obtain ⟨_, out', hout', hbytes⟩ := hentry hj'
      obtain rfl := Option.some.inj (hout.symm.trans hout')
      exact .inr ⟨hmore, hj', fun i hi => (hname i hi).symm.trans (hbytes i hi)⟩
    · intro same
      refine ⟨fun hj => ⟨hcount, out, hout, fun i hi => ?_⟩, fun hj => ?_⟩
      · rw [hname i hi]
        rcases same (by omega) with rfl | ⟨_, _, h⟩
        · rfl
        · exact h i hi
      · rcases same (by omega) with h | h <;> omega
  · have hzero := past hmore
    constructor
    · rintro ⟨hentry, _⟩ hj
      by_cases hj' : j < img.boot.numEntry
      · have := (hentry hj').1
        omega
      · exact .inl (by omega)
    · intro same
      refine ⟨fun hj => ?_, fun _ => hzero⟩
      rcases same (by omega) with h | h <;> omega

/-- The condition is exact, where the counter stands as it should. -/
theorem CounterTurns.listsRight_iff {e : ProcEvent ⊕ FdEvent} {s : Kernel × Listings}
    (I : CounterTurns img s) (asks : asksName s e) :
    ListsRight img term s e ↔ InTurn img s e := by
  obtain ⟨k, counts⟩ := s
  have hidx : k.fs.dirOpenFileIdx = counts.total % (img.boot.numEntry + 1) := I
  cases hread : dirReadOf k e with
  | none =>
    refine ⟨fun _ fd hfd => ?_, fun _ fd buf nbytes _ hfd => ?_⟩
    · cases hread.symm.trans hfd
    · cases hread.symm.trans hfd
  | some fd =>
    obtain ⟨buf, nbytes, rfl⟩ := dirReadOf_some hread
    obtain ⟨b, rfl, hcall⟩ := @readCall_dir img term _ _ _ _ hread
    have hexact : EntryRight img (readCall img term fd (some b) nbytes k)
        (counts.since k.proc.currentPcbPtr fd) ↔
          SameTurn img (counts.total % (img.boot.numEntry + 1))
            (counts.since k.proc.currentPcbPtr fd) := by
      have hle : k.fs.dirOpenFileIdx ≤ img.boot.numEntry :=
        Nat.le_of_lt_succ (hidx ▸ Nat.mod_lt _ (Nat.succ_pos _))
      rw [hcall, ← hidx]
      exact entryRight_iff rfl hle (dirRead_within (asks fd _ nbytes rfl hread)) dirRead_past
    constructor
    · intro right fd' hfd'
      obtain rfl : fd = fd' := Option.some.inj (hread.symm.trans hfd')
      exact hexact.mp (right fd _ nbytes rfl hread)
    · intro inTurn fd' buf' nbytes' heq _
      cases heq
      exact hexact.mpr (inTurn fd hread)

end Counter

/-- From a machine whose counter is at the first entry, as it boots, every directory read of a
run of system calls, by whatever processes and on whatever descriptors, returns the entry whose
turn it is on its own descriptor just when every one comes in turn. -/
theorem listings_right_iff {img : FsImage} {term : TerminalDriver} (keeps : term.KeepsListing)
    {k : Kernel} (start : k.fs.dirOpenFileIdx = 0) (es : List (ProcEvent ⊕ FdEvent)) :
    Runs.Meets (listStep img term) asksName (ListsRight img term) (k, Listings.none) es ↔
      Runs.Meets (listStep img term) asksName (InTurn img) (k, Listings.none) es := by
  have hstart : CounterTurns img (k, Listings.none) := start.trans (Nat.zero_mod _).symm
  exact Runs.meets_congr (CounterTurns img) (fun _ _ _ I _ _ h => I.step keeps h)
    (fun _ _ _ I asks _ => I.listsRight_iff asks) hstart

theorem quietTerminal_keepsListing : quietTerminal.KeepsListing := ⟨fun _ _ _ => rfl, fun _ _ _ => rfl⟩

/-- An image with two entries: the directory itself, and the shell. -/
def dirImage : FsImage :=
  { shellImage with
    boot := ⟨2, 1, 1⟩
    dentry := fun i => if i = 0 then ⟨cstr (bytes "."), 1, 0⟩ else ⟨cstr (bytes "shell"), 2, 0⟩ }

/-- The calls of a listing given up after one entry. -/
def listOne : List (ProcEvent ⊕ FdEvent) :=
  [.inr (.openFile (some (cstr (bytes ".")))), .inr (.read 2 (some fun _ => 0) 32), .inr (.close 2)]

/-- One listing of the first entry, by the first shell. -/
theorem listings_right_once :
    Runs.Meets (listStep dirImage quietTerminal) asksName (ListsRight dirImage quietTerminal)
      (coldBoot, Listings.none) (.inl (.initShell zeroFrame) :: listOne) := by
  refine (listings_right_iff quietTerminal_keepsListing rfl _).mpr ?_
  rintro _ - ⟨⟩
  refine ⟨fun _ h => (nomatch h), ?_⟩
  rintro _ - ⟨⟩
  refine ⟨fun _ h => (nomatch h), ?_⟩
  rintro _ - ⟨⟩
  refine ⟨fun fd h _ => .inl ?_, ?_⟩
  · obtain rfl : 2 = fd := Option.some.inj h
    rfl
  · rintro _ - ⟨⟩
    exact ⟨fun _ h => (nomatch h), trivial⟩

/-- A second listing, after that one, begins at the second entry. -/
theorem listings_resumed :
    ¬ Runs.Meets (listStep dirImage quietTerminal) asksName (ListsRight dirImage quietTerminal)
      (coldBoot, Listings.none) (.inl (.initShell zeroFrame) :: (listOne ++ listOne)) := by
  have asks : ∀ (s : Kernel × Listings) (e : ProcEvent ⊕ FdEvent),
      (∀ fd buf nbytes, e = .inr (.read fd buf nbytes) → 32 ≤ nbytes) → asksName s e :=
    fun _ _ h fd buf nbytes heq _ => h fd buf nbytes heq
  intro meets
  obtain ⟨_, meets⟩ := meets _ (asks _ _ (by simp)) rfl
  obtain ⟨_, meets⟩ := meets _ (asks _ _ (by simp)) rfl
  obtain ⟨_, meets⟩ := meets _ (asks _ _ (by simp)) rfl
  obtain ⟨_, meets⟩ := meets _ (asks _ _ (by simp)) rfl
  obtain ⟨_, meets⟩ := meets _ (asks _ _ (by simp)) rfl
  obtain ⟨right, _⟩ := meets _ (asks _ _ (by simp)) rfl
  obtain ⟨_, out, hout, hname⟩ := (right 2 _ _ rfl rfl).1 (by decide)
  have hfirst : (115 : UInt8) = 46 := (congrFun (Option.some.inj hout) 0).trans (hname 0 (by omega))
  cases hfirst

end Mp3Kernel
