import Mp3Kernel.Laws.CatFile

/-!
# What `ls` shows

The directory is listed from one counter for the whole system, so what `ls` shows depends on
where the counter stands and on nobody else listing meanwhile. Then it shows the entries from
there on, and takes the counter back to the first unless a write is refused.
-/

namespace Mp3Kernel.User

open Interaction (Program Event)

/-! ## Nobody else lists -/

/-- The others may do anything but list the directory. -/
def listsNothing (k : Kernel) (e : ProcEvent ⊕ FdEvent) : Prop := dirReadOf k e = none

/-- The next entry to be listed. -/
def counterAt (n : Nat) (k : Kernel) : Prop := k.fs.dirOpenFileIdx = n

section Listing

variable {img : FsImage} {term : TerminalDriver}

theorem fdStep_dirOpenFileIdx (keeps : term.KeepsListing) {e : FdEvent} {k : Kernel}
    (h : dirReadOf k (.inr e) = none) :
    (fdStep img term e k).fs.dirOpenFileIdx = k.fs.dirOpenFileIdx := by
  cases e with
  | openFile filename => exact openCall_dirOpenFileIdx filename k
  | read fd buf nbytes => exact readCall_dirOpenFileIdx keeps h
  | write fd buf nbytes => exact writeCall_dirOpenFileIdx keeps fd buf nbytes k
  | close fd => exact congrArg FsVars.dirOpenFileIdx (closeCall_fs fd k)

/-- The counter stays where it is while nobody lists. -/
theorem setting_listsNothing (keeps : term.KeepsProcesses) (keepsListing : term.KeepsListing)
    (n : Nat) : Setting img term listsNothing (counterAt n) where
  keeps := keeps
  others := by
    intro k e k' hn hlists hstep
    cases e with
    | inl e => exact (procStep_dirOpenFileIdx hstep).trans hn
    | inr e =>
      obtain rfl := sysStep_fd hstep
      exact (fdStep_dirOpenFileIdx keepsListing hlists).trans hn
  own := fun hn hlists => (fdStep_dirOpenFileIdx keepsListing hlists).trans hn

end Listing

/-! ## A read of the directory -/

/-- What a descriptor that is open stands for. -/
theorem openFds_some {fdArray : Int → FileD} {fd : Int} {d : Descriptor}
    (h : openFds fdArray fd = some d) : OpenSlot fdArray fd ∧ (fdArray fd).descriptor = d := by
  unfold openFds at h
  split at h
  next hopen => exact ⟨hopen, Option.some.inj h⟩
  next => cases h

section Rules

variable {img : FsImage} {term : TerminalDriver} {admits : Kernel → ProcEvent ⊕ FdEvent → Prop}
  {k : Kernel} {pid : Int} {view : PcbView} {β : Type} {fd : Int}
  {post : List (Event Call Call.Answer) → β → Kernel → Prop}

/-- The slot of a descriptor that is open, as the calls find it. -/
theorem Undisturbed.goodFd (U : Undisturbed pid view k) (current : k.proc.currentId = pid)
    {d : Descriptor} (isOpen : openFds view.fdArray fd = some d) :
    ¬ badFd fd k ∧ (k.currentPcb.fdArray fd).fileOpTable = d.ops := by
  obtain ⟨⟨hlo, hhi, hflag⟩, rfl⟩ := openFds_some isOpen
  have hslot : k.currentPcb.fdArray fd = view.fdArray fd := congrFun (U.fds current) fd
  refine ⟨?_, congrArg FileD.fileOpTable hslot⟩
  unfold badFd
  rw [hslot]
  omega

/-- `open`, of the directory. -/
theorem Settled.openDir {extra : Kernel → Prop} (U : Settled extra pid view k)
    (S : Setting img term admits extra) (T : FdTable view.fdArray)
    (room : ¬ SlotTable.Full (openFds view.fdArray) 2 7) {j : Nat} (dot : img.First (bytes ".") j)
    (isDir : (img.dentry j).type = 1) {f : Int → UserProgram β}
    (h : ∀ fd t, SlotTable.FirstFree (openFds view.fdArray) 2 7 fd →
      Settled extra pid { view with
        fdArray := Function.update view.fdArray fd ⟨dirTable, 0, 0, 1⟩ } t →
      (f fd).Always (machine img term pid admits)
        (fun es => post (⟨.openFile (cstr (bytes ".")), fd⟩ :: es)) t) :
    (ece391Open (cstr (bytes ".")) >>= f).Always (machine img term pid admits) post k := by
  have hholds : Field.Holds 0 (cstr (bytes ".")) (bytes ".") := Field.holds_getD (by decide +kernel)
  have hknown := (knownEntry_short hholds (by decide +kernel)).mpr dot
  have hslot : openedSlot (img.dentry j) = ⟨dirTable, 0, 0, 1⟩ := by simp [openedSlot, isDir]
  refine U.openKnown S T room hknown fun fd t hfree U' => h fd t hfree ?_
  rwa [hslot] at U'

theorem dirRead_proc (buf : Buf) (nbytes : Int) (k : Kernel) :
    (dirRead img buf nbytes k).1.proc = k.proc := by
  unfold dirRead
  split <;> rfl

/-- The buffer of a whole name. -/
theorem dirRead_buf {buf : Buf} (more : k.fs.dirOpenFileIdx < img.boot.numEntry) :
    (dirRead img buf 32 k).2.1 =
      Stream.splice (img.dentry k.fs.dirOpenFileIdx).name 0 32 buf := by
  funext i
  simp only [dirRead, if_pos more, Stream.splice, Nat.zero_add]
  show (if i < 32 then if i < 32 then _ else _ else _) = _
  split <;> rfl

/-- `read`, of a whole name on a descriptor for the directory. -/
theorem Settled.readDir {n : Nat} (U : Settled (counterAt n) pid view k)
    (S : Setting img term admits (counterAt n)) {ops : Descriptor}
    (dir : openFds view.fdArray fd = some ops) (lists : ops.ops.readFn = .dirRead) {buf : Buf}
    {f : Buf × Int → UserProgram β}
    (more : n < img.boot.numEntry → ∀ t, Settled (counterAt (n + 1)) pid view t →
      (f (Stream.splice (img.dentry n).name 0 32 buf, 32)).Always (machine img term pid admits)
        (fun es => post (⟨.read fd buf 32,
          (Stream.splice (img.dentry n).name 0 32 buf, (32 : Int))⟩ :: es)) t)
    (past : ¬ n < img.boot.numEntry → ∀ t, Settled (counterAt 0) pid view t →
      (f (buf, 0)).Always (machine img term pid admits)
        (fun es => post (⟨.read fd buf 32, (buf, (0 : Int))⟩ :: es)) t) :
    (ece391Read fd buf 32 >>= f).Always (machine img term pid admits) post k := by
  refine U.call S fun t U' current => ?_
  obtain rfl : t.fs.dirOpenFileIdx = n := U'.extra
  obtain ⟨hgood, hops⟩ := U'.toUndisturbed.goodFd current dir
  have hdir : dirReadOf t (.inr (.read fd (some buf) 32)) = some fd := by
    refine if_pos ⟨hgood, ?_⟩
    rw [hops, lists]
  obtain ⟨b, hb, hcall⟩ := @readCall_dir img term _ _ _ _ hdir
  obtain rfl := Option.some.inj hb
  have hproc := @dirRead_proc img buf 32 t
  have hcounter := @dirRead_dirOpenFileIdx img buf 32 t
  by_cases hmore : t.fs.dirOpenFileIdx < img.boot.numEntry
  · rw [if_pos hmore] at hcounter
    refine ⟨_, _, ?_, more hmore _ ⟨U'.toUndisturbed.congr_proc hproc, hcounter⟩⟩
    simp only [answer, hcall, Option.getD_some, dirRead_buf hmore,
      (dirRead_within (Int.le_refl 32) hmore).1]
  · rw [if_neg hmore] at hcounter
    refine ⟨_, _, ?_, past hmore _ ⟨U'.toUndisturbed.congr_proc hproc, hcounter⟩⟩
    simp only [answer, hcall, Option.getD_some]
    rw [dirRead, if_neg hmore]

end Rules

/-! ## `ls` -/

/-- The line for an entry: its name as the field of 32 bytes holds it, and a newline. -/
def entryLine (img : FsImage) (i : Nat) : List UInt8 :=
  Stream.slice (img.dentry i).name 0 32 ++ [newline]

/-- The lines for the entries from `i` up to `j`. -/
def entryLines (img : FsImage) (i j : Nat) : List UInt8 :=
  (List.range' i (j - i)).flatMap (entryLine img)

theorem entryLines_cons {img : FsImage} {i j : Nat} (h : i < j) :
    entryLines img i j = entryLine img i ++ entryLines img (i + 1) j := by
  have hcount : j - i = (j - (i + 1)) + 1 := by omega
  unfold entryLines
  rw [hcount, List.range'_succ, List.flatMap_cons]

/-- What `ls` has done from entry `n` on: all lines are shown and the counter is back at the
first entry, or a write was refused and the counter is behind that entry. -/
def LsDone (img : FsImage) (n : Nat) (calls : List (Event Call Call.Answer)) (status : Int)
    (k : Kernel) : Prop :=
  (status = 0 ∧ shown calls = entryLines img n img.boot.numEntry ∧
      (∀ c ∈ calls, ¬ Refused c) ∧ counterAt 0 k) ∨
    ∃ i < img.boot.numEntry, n ≤ i ∧ status = 3 ∧ shown calls = entryLines img n (i + 1) ∧
      (∃ c ∈ calls, Refused c) ∧ counterAt (i + 1) k

section Ls

variable {img : FsImage} {term : TerminalDriver} {k : Kernel} {pid : Int} {view : PcbView}
  {fd : Int}

/-- The line that `ls` makes of what it has read. -/
theorem map_entryLine (img : FsImage) (n : Nat) (buf : Buf) :
    (List.range 33).map
      (Function.update (Stream.splice (img.dentry n).name 0 32 buf) 32 newline) =
        entryLine img n := by
  have hname : (List.range 32).map (Function.update
      (Stream.splice (img.dentry n).name 0 32 buf) 32 newline) =
        Stream.slice (img.dentry n).name 0 32 := by
    rw [← Stream.map_splice (img.dentry n).name 0 (Nat.le_refl 32) buf]
    refine List.map_congr_left fun i hi => Function.update_of_ne ?_ _ _
    have hi := List.mem_range.mp hi
    omega
  rw [List.range_succ, List.map_append, hname, List.map_singleton, Function.update_self]
  rfl

/-- The loop, from where the counter stands. -/
theorem lsLoop_always (keeps : term.KeepsProcesses) (keepsListing : term.KeepsListing)
    {turns n : Nat} {buf : Buf} (U : Settled (counterAt n) pid view k) {ops : Descriptor}
    (dir : openFds view.fdArray fd = some ops) (lists : ops.ops.readFn = .dirRead)
    (enough : img.boot.numEntry - n < turns) :
    (lsLoop fd turns buf).Always (machine img term pid listsNothing) (LsDone img n) k := by
  induction turns generalizing n k buf with
  | zero => exact absurd enough (Nat.not_lt_zero _)
  | succ turns ih =>
    have S := @setting_listsNothing img term keeps keepsListing
    refine U.readDir (S n) dir lists (fun hmore t U' => ?_) fun hpast t U' => ?_
    · dsimp only
      rw [if_neg (by decide), if_neg (by decide)]
      refine U'.write (S (n + 1)) fun r u U'' => ?_
      have hline : ∀ es, shown (⟨.read fd buf 32, (Stream.splice (img.dentry n).name 0 32 buf,
          (32 : Int))⟩ :: ⟨.write 1 (Function.update (Stream.splice (img.dentry n).name 0 32 buf)
            32 newline) 33, r⟩ :: es) = entryLine img n ++ shown es := by
        intro es
        rw [shown_cons, shown_cons]
        exact congrArg (· ++ shown es) (map_entryLine img n buf)
      split
      next hr =>
        refine .inr ⟨n, hmore, Nat.le_refl n, rfl, ?_, ?_, U''.extra⟩
        · refine (hline []).trans ?_
          rw [entryLines_cons (Nat.lt_succ_self n)]
          simp [shown, entryLines]
        · exact ⟨_, List.mem_cons_of_mem _ List.mem_cons_self, hr⟩
      next hr =>
        refine (ih U'' (n := n + 1) (by omega)).mono fun calls status v hdone => ?_
        rcases hdone with ⟨hstatus, hshow, hnone, hreset⟩ |
          ⟨i, hi, hle, hstatus, hshow, ⟨c, hc, hrefused⟩, hcounter⟩
        · refine .inl ⟨hstatus, ?_, ?_, hreset⟩
          · refine (hline calls).trans ?_
            rw [entryLines_cons hmore, hshow]
          · exact List.forall_mem_cons.mpr ⟨id, List.forall_mem_cons.mpr ⟨hr, hnone⟩⟩
        · refine .inr ⟨i, hi, by omega, hstatus, ?_, ⟨c, by simp [hc], hrefused⟩, hcounter⟩
          refine (hline calls).trans ?_
          rw [entryLines_cons (by omega), hshow]
    · -- the counter is back at the first entry
      have hnone : entryLines img n img.boot.numEntry = [] := by
        rw [entryLines, Nat.sub_eq_zero_of_le (by omega)]
        rfl
      exact .inl ⟨rfl, hnone.symm, by simp [Refused], U'.extra⟩

end Ls

/-- `ls`, started by any command at any moment, where the first entry named `.` is a directory:
while nobody else lists it, `ls` shows each entry from the system's counter on, in order, and
leaves the counter at the first entry for the next listing; or a write is refused, and the next
listing goes on behind the entry that was not shown. -/
theorem ls_shows {img : FsImage} {term : TerminalDriver} (keeps : term.KeepsProcesses)
    (keepsListing : term.KeepsListing) {frame₀ frame : Frame} {k₀ k₁ k k₂ : Kernel}
    {eip₀ esp₀ eip esp : Nat} (boot : Booted k₀)
    (first : initShell img frame₀ k₀ = some (k₁, .iret eip₀ esp₀))
    (run : Runs.Reach (sysStep img term) callsLeaf k₁ k) {command : List UInt8}
    (exec : executeHandler img frame (some command) k = some (k₂, .iret eip esp)) {j : Nat}
    (dot : img.First (bytes ".") j) (isDir : (img.dentry j).type = 1) (buf : Buf) {turns : Nat}
    (enough : img.boot.numEntry < turns) :
    (ls turns buf).Always (machine img term k₂.proc.currentId listsNothing)
      (LsDone img k₂.fs.dirOpenFileIdx) k₂ := by
  obtain ⟨view, hstart, F⟩ := undisturbed_of_execute keeps boot first run exec
  have S := @setting_listsNothing img term keeps keepsListing k₂.fs.dirOpenFileIdx
  have U : Settled (counterAt k₂.fs.dirOpenFileIdx) k₂.proc.currentId view k₂ := ⟨hstart, rfl⟩
  refine U.openDir S F.table F.room dot isDir fun fd t hfree U' => ?_
  have hdir : openFds (Function.update view.fdArray fd ⟨dirTable, 0, 0, 1⟩) fd =
      some ⟨dirTable, 0⟩ := by
    rw [openFds_update_open hfree.ge hfree.le rfl, Function.update_self]
    rfl
  have hlo := hfree.ge
  rw [if_neg (by omega)]
  refine (lsLoop_always keeps keepsListing U' hdir rfl (by omega)).mono
    fun calls status u hdone => ?_
  rcases hdone with ⟨hstatus, hshow, hnone, hreset⟩ |
    ⟨i, hi, hle, hstatus, hshow, ⟨c, hc, hrefused⟩, hcounter⟩
  · exact .inl ⟨hstatus, hshow, List.forall_mem_cons.mpr ⟨id, hnone⟩, hreset⟩
  · exact .inr ⟨i, hi, hle, hstatus, hshow, ⟨c, by simp [hc], hrefused⟩, hcounter⟩

/-- The whole directory, listed by the first command. -/
theorem ls_shows_both :
    ∃ k₁ k₂, initShell dirImage zeroFrame coldBoot = some (k₁, .iret 0x08048018 newUserBottom) ∧
      executeHandler dirImage zeroFrame (some (bytes "shell")) k₁ =
        some (k₂, .iret 0x08048018 newUserBottom) ∧
      ∀ buf, (ls 3 buf).Always (machine dirImage quietTerminal k₂.proc.currentId listsNothing)
        (LsDone dirImage 0) k₂ := by
  have start : ∃ k₁ k₂,
      initShell dirImage zeroFrame coldBoot = some (k₁, .iret 0x08048018 newUserBottom) ∧
        executeHandler dirImage zeroFrame (some (bytes "shell")) k₁ =
          some (k₂, .iret 0x08048018 newUserBottom) ∧
        k₂.fs.dirOpenFileIdx = 0 := ⟨_, _, rfl, rfl, rfl⟩
  obtain ⟨k₁, k₂, first, exec, hcounter⟩ := start
  refine ⟨k₁, k₂, first, exec, fun buf => ?_⟩
  have hdot : dirImage.First (bytes ".") 0 :=
    ⟨by decide, by decide +kernel, fun i hi => absurd hi (Nat.not_lt_zero i)⟩
  have hls := @ls_shows dirImage quietTerminal quietTerminal_keeps quietTerminal_keepsListing
    _ _ _ _ _ _ _ _ _ _ coldBoot_booted first .refl _ exec 0 hdot rfl buf 3 (by decide)
  rwa [hcounter] at hls

end Mp3Kernel.User
