import Mp3Kernel.Laws.ProcessSteps

/-!
# What a descriptor call can do

To the process table a descriptor call is a change of the current process's `fd_array` and
nothing else. `open` fills the slot its search finds with what the name's entry says, `read`
moves the position of a file slot, `close` clears one slot's flag, and `write` changes no
slot at all.
-/

namespace Mp3Kernel

/-! ## Looking a name up -/

/-- The first of the entries from `i` on, `n` of them, with the name looked for. -/
def findEntry (img : FsImage) (filename : Buf) : Nat → Nat → Option Nat
  | 0, _ => none
  | n + 1, i =>
    if strncmp filename (img.dentry i).name 32 = 0 then some i else findEntry img filename n (i + 1)

/-- The entry a name stands for. -/
def knownEntry (img : FsImage) (filename : Buf) : Option Nat :=
  if nameTooLong filename then none else findEntry img filename img.boot.numEntry 0

section Lookup

variable (img : FsImage) (filename : Buf)

theorem searchFrom_some {j : Nat} {n i : Nat} {v : FsVars}
    (h : findEntry img filename n i = some j) :
    searchFrom img filename n i v = ({ v with tempDentry := some j, lastDentry := some j }, 0) := by
  induction n generalizing i v with
  | zero => cases h
  | succ n ih =>
    unfold findEntry at h
    unfold searchFrom
    dsimp only
    split at h
    next hmatch =>
      cases h
      rw [if_pos hmatch]
    next hmatch => rw [if_neg hmatch, ih h]

theorem searchFrom_none {n i : Nat} {v : FsVars} (h : findEntry img filename n i = none) :
    (searchFrom img filename n i v).2 = -1 := by
  induction n generalizing i v with
  | zero => rfl
  | succ n ih =>
    unfold findEntry at h
    unfold searchFrom
    dsimp only
    split at h
    next => cases h
    next hmatch =>
      rw [if_neg hmatch]
      exact ih h

/-- A lookup that succeeds, and the globals it leaves. -/
theorem readDentryByName_known {j : Nat} (h : knownEntry img filename = some j) (k : Kernel) :
    (readDentryByName img filename k).2 = 0 ∧
      (readDentryByName img filename k).1.fs =
        { k.fs with tempDentry := some j, lastDentry := some j } := by
  unfold knownEntry at h
  split at h
  next => cases h
  next hshort =>
    have hsearch := searchFrom_some img filename (v := k.fs) h
    rw [readDentryByName_fs, if_neg hshort]
    unfold readDentryByName
    rw [if_neg hshort, hsearch]
    exact ⟨rfl, rfl⟩

/-- A lookup that fails. -/
theorem readDentryByName_unknown (h : knownEntry img filename = none) (k : Kernel) :
    (readDentryByName img filename k).2 = -1 := by
  unfold knownEntry at h
  unfold readDentryByName
  split at h
  next hlong => rw [if_pos hlong]
  next hshort =>
    have hsearch := searchFrom_none img filename (v := k.fs) h
    rw [if_neg hshort]
    dsimp only
    rw [if_neg (by omega)]

end Lookup

/-! ## The search for a slot -/

/-- The slot found has a clear flag, and none before it has; it is a slot of the table unless
the table holds flags that are neither 0 nor 1. -/
theorem findSlot_some {fdArray : Int → FileD} {index i : Int} {n : Nat} (hi : i + n = 8)
    (h : findSlot fdArray n i = some index) :
    i ≤ index ∧ (∀ j, i ≤ j → j < index → (fdArray j).flags ≠ 0) ∧
      ((index ≤ 7 ∧ (fdArray index).flags = 0) ∨
        (index = 8 ∧ (n = 0 ∨ (fdArray 7).flags ≠ 1))) := by
  induction n generalizing i with
  | zero =>
    cases h
    exact ⟨by omega, fun j _ _ => by omega, .inr ⟨by omega, .inl rfl⟩⟩
  | succ n ih =>
    unfold findSlot at h
    split at h
    next => cases h
    next hnotfull =>
      split at h
      next hfree =>
        cases h
        exact ⟨by omega, fun j _ _ => by omega, .inl ⟨by omega, hfree⟩⟩
      next hused =>
        obtain ⟨hlo, hbefore, hend⟩ := ih (by omega) h
        refine ⟨by omega, fun j hj hj' => ?_, ?_⟩
        · by_cases hji : j = i
          · exact hji ▸ hused
          · exact hbefore j (by omega) hj'
        · rcases hend with hfound | ⟨h8, h0 | h7⟩
          · exact .inl hfound
          · have hi7 : i = 7 := by omega
            subst hi7
            exact .inr ⟨h8, .inr fun hone => hnotfull ⟨hone, rfl⟩⟩
          · exact .inr ⟨h8, .inr h7⟩

/-- No slot is found when every flag is set. -/
theorem findSlot_none {fdArray : Int → FileD} {i : Int} {n : Nat} (hi : i + n = 8)
    (h : findSlot fdArray n i = none) : ∀ j, i ≤ j → j ≤ 7 → (fdArray j).flags ≠ 0 := by
  induction n generalizing i with
  | zero => cases h
  | succ n ih =>
    unfold findSlot at h
    intro j hj hj'
    split at h
    next hfull =>
      have hj7 : j = i := by omega
      rw [hj7]
      omega
    next =>
      split at h
      next => cases h
      next hused =>
        by_cases hji : j = i
        · exact hji ▸ hused
        · exact ih (by omega) h j (by omega) hj'

/-! ## The process table after a call -/

/-- The process globals with other descriptors for the current process. -/
def Proc.withFds (p : Proc) (fdArray : Int → FileD) : Proc :=
  { p with
    pcbAt := Function.update p.pcbAt p.currentPcbPtr { p.currentPcb with fdArray := fdArray } }

theorem Proc.withFds_self (p : Proc) : p.withFds p.currentPcb.fdArray = p := by
  unfold Proc.withFds
  rw [show { p.currentPcb with fdArray := p.currentPcb.fdArray } = p.currentPcb from rfl,
    Proc.currentPcb, Function.update_eq_self]

@[simp] theorem Proc.withFds_fdArray (p : Proc) (fdArray : Int → FileD) :
    (p.withFds fdArray).currentPcb.fdArray = fdArray := by
  simp [Proc.withFds, Proc.currentPcb]

theorem Kernel.modifyFd_proc (k : Kernel) (fd : Int) (f : FileD → FileD) :
    (k.modifyFd fd f).proc =
      k.proc.withFds (Function.update k.currentPcb.fdArray fd (f (k.currentPcb.fdArray fd))) := rfl

/-- The descriptors of the current process. -/
def Kernel.fds (k : Kernel) : Int → FileD := k.currentPcb.fdArray

theorem fds_of_proc {k k' : Kernel} (h : k'.proc = k.proc) : k'.fds = k.fds := by
  rw [Kernel.fds, Kernel.currentPcb, h]
  rfl

theorem fds_of_withFds {k k' : Kernel} {fdArray : Int → FileD}
    (h : k'.proc = k.proc.withFds fdArray) : k'.fds = fdArray := by
  rw [Kernel.fds, Kernel.currentPcb, h, Proc.withFds_fdArray]

section Calls

variable {img : FsImage} {term : TerminalDriver}

@[simp] theorem fileOpen_proc (filename : Buf) (k : Kernel) :
    (fileOpen img filename k).1.proc = k.proc := by
  unfold fileOpen
  dsimp only
  split <;> exact readDentryByName_proc img filename k

@[simp] theorem Kernel.rtcVirRate_proc (rate : Nat) (k : Kernel) :
    (k.rtcVirRate rate).proc = k.proc := by
  unfold Kernel.rtcVirRate
  dsimp only
  split <;> rfl

@[simp] theorem callOpen_proc (f : OpenFn) (filename : Buf) (k : Kernel) :
    (callOpen img f filename k).1.proc = k.proc := by
  cases f with
  | dirOpen | badcallOpen => rfl
  | fileOpen => exact fileOpen_proc filename k
  | rtcOpen => exact k.rtcVirRate_proc 1

/-- `open`, refused. -/
theorem openCall_refused {filename : Option Buf} {k : Kernel}
    (h : filename.bind (knownEntry img) = none ∨ findSlot k.currentPcb.fdArray 6 2 = none) :
    (openCall img filename k).2 = -1 ∧ (openCall img filename k).1.proc = k.proc := by
  unfold openCall
  split
  next => exact ⟨rfl, rfl⟩
  next name =>
    split
    next => exact ⟨rfl, rfl⟩
    next hslot =>
      dsimp only
      have hunknown : knownEntry img name = none := by
        rcases h with h | h
        · exact h
        · rw [hslot] at h
          cases h
      have hresult := readDentryByName_unknown img name hunknown k
      rw [if_pos (by omega)]
      exact ⟨rfl, readDentryByName_proc img name k⟩

/-- `open`, granted: the slot found is filled in from the entry found. -/
theorem openCall_granted {filename : Buf} {k : Kernel} {j : Nat} {index : Int}
    (hname : knownEntry img filename = some j)
    (hslot : findSlot k.currentPcb.fdArray 6 2 = some index) :
    (openCall img (some filename) k).2 = index ∧
      (openCall img (some filename) k).1.proc =
        k.proc.withFds
          (Function.update k.currentPcb.fdArray index (openedSlot (img.dentry j))) := by
  obtain ⟨hresult, hfs⟩ := readDentryByName_known img filename hname k
  unfold openCall
  simp only [hslot, hresult, ne_eq, not_true_eq_false, if_false, callOpen_proc, hfs,
    Option.getD_some, true_and]
  rw [Kernel.modifyFd_proc, Kernel.currentPcb, readDentryByName_proc]
  rfl

/-- `close`. -/
theorem closeCall_closed {fd : Int} {k : Kernel} (lo : 2 ≤ fd) (hi : fd ≤ 7)
    (opened : (k.currentPcb.fdArray fd).flags ≠ 0) :
    (closeCall fd k).2 = 0 ∧
      (closeCall fd k).1.proc =
        k.proc.withFds (Function.update k.currentPcb.fdArray fd
          { k.currentPcb.fdArray fd with flags := 0 }) := by
  unfold closeCall
  rw [if_neg (by omega)]
  exact ⟨rfl, rfl⟩

theorem closeCall_refused {fd : Int} {k : Kernel}
    (h : fd < 2 ∨ fd > 7 ∨ (k.currentPcb.fdArray fd).flags = 0) :
    (closeCall fd k).2 = -1 ∧ (closeCall fd k).1 = k := by
  unfold closeCall
  rw [if_pos h]
  exact ⟨rfl, rfl⟩

theorem readCall_refused {fd : Int} {buf : Buf} {nbytes : Int} {k : Kernel} (h : badFd fd k) :
    (readCall img term fd (some buf) nbytes k).2.2 = -1 ∧
      (readCall img term fd (some buf) nbytes k).1 = k := by
  unfold readCall
  dsimp only
  rw [if_pos h]
  exact ⟨rfl, rfl⟩

theorem writeCall_refused {fd : Int} {buf : Buf} {nbytes : Int} {k : Kernel} (h : badFd fd k) :
    (writeCall term fd (some buf) nbytes k).2 = -1 ∧
      (writeCall term fd (some buf) nbytes k).1 = k := by
  unfold writeCall
  dsimp only
  rw [if_pos h]
  exact ⟨rfl, rfl⟩

/-- `file_read` advances the position of its slot by the bytes it was able to ask for. -/
theorem fileRead_proc (fd : Int) (buf : Buf) (nbytes : Int) (k : Kernel) :
    (fileRead img fd buf nbytes k).1.proc =
      k.proc.withFds (Function.update k.currentPcb.fdArray fd
        { k.currentPcb.fdArray fd with
          filePosition :=
            u32 (i32 (i32 (k.currentPcb.fdArray fd).filePosition +
              byteLeft (img.inode (k.currentPcb.fdArray fd).inode)
                (i32 (k.currentPcb.fdArray fd).filePosition) nbytes)) }) := by
  simp only [fileRead, readData, Kernel.modifyFd_proc, Kernel.currentPcb]

/-- `read` moves at most the position of the slot it reads, and only of a file's. -/
theorem readCall_proc (keeps : term.KeepsProcesses) (fd : Int) (buf : Option Buf) (nbytes : Int)
    (k : Kernel) :
    (readCall img term fd buf nbytes k).1.proc = k.proc ∨
      ∃ position, (k.currentPcb.fdArray fd).fileOpTable.readFn = .fileRead ∧ ¬ badFd fd k ∧
        (readCall img term fd buf nbytes k).1.proc =
          k.proc.withFds (Function.update k.currentPcb.fdArray fd
            { k.currentPcb.fdArray fd with filePosition := position }) := by
  unfold readCall
  split
  next => exact .inl rfl
  next b =>
    split
    next => exact .inl rfl
    next hgood =>
      dsimp only
      cases hfn : (k.currentPcb.fdArray fd).fileOpTable.readFn with
      | dirRead =>
        left
        simp only [callRead, dirRead]
        split <;> rfl
      | fileRead => exact .inr ⟨_, rfl, hgood, fileRead_proc fd b nbytes k⟩
      | badcallRead => exact .inl rfl
      | terminalRead => exact .inl (keeps.read b nbytes k)
      | rtcRead => exact .inl rfl

/-- `write` changes no descriptor. -/
theorem writeCall_proc (keeps : term.KeepsProcesses) (fd : Int) (buf : Option Buf) (nbytes : Int)
    (k : Kernel) : (writeCall term fd buf nbytes k).1.proc = k.proc := by
  unfold writeCall
  split
  next => rfl
  next b =>
    split
    next => rfl
    next =>
      cases (k.currentPcb.fdArray fd).fileOpTable.writeFn with
      | dirWrite | fileWrite | badcallWrite => rfl
      | terminalWrite => exact keeps.write b nbytes k
      | rtcWrite =>
        simp only [callWrite, Kernel.rtcWrite]
        split
        · rfl
        · split
          · rfl
          · exact k.rtcVirRate_proc _

/-- A descriptor call changes the current process's descriptors at most. -/
theorem fdStep_proc (keeps : term.KeepsProcesses) (e : FdEvent) (k : Kernel) :
    ∃ fdArray, (fdStep img term e k).proc = k.proc.withFds fdArray := by
  have hsame : ∃ fdArray, k.proc = k.proc.withFds fdArray := ⟨_, k.proc.withFds_self.symm⟩
  cases e with
  | openFile filename =>
    cases hknown : filename.bind (knownEntry img) with
    | none =>
      rw [fdStep, (openCall_refused (.inl hknown)).2]
      exact hsame
    | some j =>
      obtain ⟨name, rfl, hname⟩ := Option.bind_eq_some_iff.mp hknown
      cases hslot : findSlot k.currentPcb.fdArray 6 2 with
      | none =>
        rw [fdStep, (openCall_refused (.inr hslot)).2]
        exact hsame
      | some index => exact ⟨_, (openCall_granted hname hslot).2⟩
  | read fd buf nbytes =>
    rcases @readCall_proc img term keeps fd buf nbytes k with hproc | ⟨_, _, _, hproc⟩
    · rw [fdStep, hproc]
      exact hsame
    · exact ⟨_, hproc⟩
  | write fd buf nbytes =>
    rw [fdStep, writeCall_proc keeps]
    exact hsame
  | close fd =>
    by_cases h : fd < 2 ∨ fd > 7 ∨ (k.currentPcb.fdArray fd).flags = 0
    · rw [fdStep, (closeCall_refused h).2]
      exact hsame
    · exact ⟨_, (closeCall_closed (by omega) (by omega) (by omega)).2⟩

end Calls

/-! ## What descriptor calls leave alone -/

/-- A part of the state that is neither the file system's globals, the process globals nor
the RTC's, and that neither printing nor the terminal driver changes. -/
structure Spared {β : Type} (term : TerminalDriver) (get : Kernel → β) : Prop where
  fs : ∀ v k, get { k with fs := v } = get k
  proc : ∀ p k, get { k with proc := p } = get k
  rtc : ∀ r k, get { k with rtc := r } = get k
  print : ∀ s k, get (Kernel.printfPlain s k) = get k
  read : ∀ buf nbytes k, get (term.terminalRead buf nbytes k).1 = get k
  write : ∀ buf nbytes k, get (term.terminalWrite buf nbytes k).1 = get k

section Spared

variable {β : Type} {img : FsImage} {term : TerminalDriver} {get : Kernel → β}
  (S : Spared term get)

include S

theorem Spared.rtcVirRate (rate : Nat) (k : Kernel) : get (k.rtcVirRate rate) = get k := by
  unfold Kernel.rtcVirRate
  dsimp only
  split
  · exact S.rtc _ k
  · rfl

theorem Spared.lookup (filename : Buf) (k : Kernel) :
    get (readDentryByName img filename k).1 = get k :=
  readDentryByName_frame img filename k get S.fs S.print

theorem Spared.callOpen (f : OpenFn) (filename : Buf) (k : Kernel) :
    get (callOpen img f filename k).1 = get k := by
  cases f with
  | dirOpen | badcallOpen => rfl
  | fileOpen =>
    unfold Mp3Kernel.callOpen fileOpen
    dsimp only
    split
    · exact (S.fs _ _).trans (S.lookup filename k)
    · exact S.lookup filename k
  | rtcOpen => exact S.rtcVirRate 1 k

theorem Spared.openCall (filename : Option Buf) (k : Kernel) :
    get (openCall img filename k).1 = get k := by
  unfold Mp3Kernel.openCall
  split
  next => rfl
  next name =>
    split
    next => rfl
    next index _ =>
      dsimp only
      split
      next => exact S.lookup name k
      next => exact (S.callOpen _ _ _).trans ((S.proc _ _).trans (S.lookup name k))

theorem Spared.readCall (fd : Int) (buf : Option Buf) (nbytes : Int) (k : Kernel) :
    get (readCall img term fd buf nbytes k).1 = get k := by
  unfold Mp3Kernel.readCall
  split
  next => rfl
  next b =>
    split
    next => rfl
    next =>
      dsimp only
      cases (k.currentPcb.fdArray fd).fileOpTable.readFn with
      | dirRead =>
        simp only [callRead, dirRead]
        split <;> exact S.fs _ k
      | fileRead => exact (S.proc _ _).trans (S.fs _ k)
      | badcallRead => rfl
      | terminalRead => exact S.read b nbytes k
      | rtcRead => exact S.rtc _ k

theorem Spared.writeCall (fd : Int) (buf : Option Buf) (nbytes : Int) (k : Kernel) :
    get (writeCall term fd buf nbytes k).1 = get k := by
  unfold Mp3Kernel.writeCall
  split
  next => rfl
  next b =>
    split
    next => rfl
    next =>
      cases (k.currentPcb.fdArray fd).fileOpTable.writeFn with
      | dirWrite | fileWrite | badcallWrite => rfl
      | terminalWrite => exact S.write b nbytes k
      | rtcWrite =>
        simp only [callWrite, Kernel.rtcWrite]
        split
        · rfl
        · split
          · rfl
          · exact S.rtcVirRate _ k

theorem Spared.closeCall (fd : Int) (k : Kernel) : get (closeCall fd k).1 = get k := by
  unfold Mp3Kernel.closeCall
  split
  · rfl
  · exact S.proc _ k

theorem Spared.fdStep (e : FdEvent) (k : Kernel) : get (fdStep img term e k) = get k := by
  cases e with
  | openFile filename => exact S.openCall filename k
  | read fd buf nbytes => exact S.readCall fd buf nbytes k
  | write fd buf nbytes => exact S.writeCall fd buf nbytes k
  | close fd => exact S.closeCall fd k

end Spared

end Mp3Kernel
