import Mp3Kernel.Laws.GrepFile
import Mp3Kernel.Laws.LsListing

/-!
# What `grep` shows

`main` hands every entry whose name has no dot in front to `do_one_file`, the clock's too. A
read of the clock gives no bytes, which `do_one_file` takes for the end of a file, so a directory
with the clock in it is searched all the same. It does not come back at once: `RTC_open` sets the
counter to 511 and `RTC_read` waits for that many interrupts. That wait is left to `Kernel/Rtc`,
and that `grep` ends assumes that the interrupts keep coming.
-/

namespace Mp3Kernel.User

open Interaction (Event)

/-! ## The clock -/

section Clock

variable {img : FsImage} {term : TerminalDriver} {admits : Kernel → ProcEvent ⊕ FdEvent → Prop}
  {extra : Kernel → Prop} {k : Kernel} {pid : Int} {view : PcbView} {fd : Int}

/-- `read`, on a descriptor for the clock. -/
theorem Settled.readClock {β : Type} {post : List (Event Call Call.Answer) → β → Kernel → Prop}
    (U : Settled extra pid view k) (S : Setting img term admits extra) {d : Descriptor}
    (clock : openFds view.fdArray fd = some d) (ticks : d.ops.readFn = .rtcRead) {buf : Buf}
    {nbytes : Int} {f : Buf × Int → UserProgram β}
    (h : ∀ t, Settled extra pid view t → (f (buf, 0)).Always (machine img term pid admits)
      (fun es => post (⟨.read fd buf nbytes, (buf, (0 : Int))⟩ :: es)) t) :
    (ece391Read fd buf nbytes >>= f).Always (machine img term pid admits) post k := by
  refine U.call S fun t U' current => ?_
  obtain ⟨hgood, hops⟩ := U'.toUndisturbed.goodFd current clock
  have hfn : (t.currentPcb.fdArray fd).fileOpTable.readFn = .rtcRead := by rw [hops, ticks]
  have hcall : readCall img term fd (some buf) nbytes t = (t.rtcRead.1, some buf, 0) := by
    unfold readCall
    dsimp only
    rw [if_neg hgood, hfn]
    rfl
  have hlists : dirReadOf t (.inr (.read fd (some buf) nbytes)) = none := by
    refine if_neg fun hdir => ?_
    cases hfn.symm.trans hdir.2
  have hnew : (fdStep img term (.read fd (some buf) nbytes) t).fds = view.fdArray := by
    show (readCall img term fd (some buf) nbytes t).1.fds = view.fdArray
    rw [hcall]
    exact U'.fds current
  refine ⟨_, (buf, (0 : Int)), Prod.ext rfl ?_, h _ (U'.own S current hlists hnew)⟩
  simp only [answer, hcall, Option.getD_some]

/-- `do_one_file` of the clock shows nothing. -/
theorem doOneFile_clock (S : Setting img term admits extra) (U : Settled extra pid view k)
    (T : FdTable view.fdArray) (room : ¬ SlotTable.Full (openFds view.fdArray) 2 7) {s fname : Buf}
    {pattern name : List UInt8} (pat : Field.Holds 0 s pattern) (fits : pattern.length < 4294967296)
    (named : Field.Holds 0 fname name) {j : Nat} (first : img.First name j)
    (clock : (img.dentry j).type = 0) (data : Buf) {turns : Nat} (positive : 0 < turns) :
    (doOneFile turns s fname data).Always (machine img term pid admits)
      (fun calls r t => r.2 = 0 ∧
        (∃ view', Settled extra pid view' t ∧ FdTable view'.fdArray ∧
          openFds view'.fdArray = openFds view.fdArray) ∧ shown calls = []) k := by
  have hshort : name.length ≤ 32 := by
    rw [← first.named]
    exact img.entryName_length_le j
  have hknown : knownEntry img fname = some j := (knownEntry_short named hshort).mpr first
  have hslot : openedSlot (img.dentry j) = ⟨rtcTable, 0, 0, 1⟩ := if_pos clock
  unfold doOneFile
  rw [ece391Strlen_eq pat fits]
  refine U.openKnown S T room hknown fun fd u hfree U₁ => ?_
  have hlo := hfree.ge
  rw [hslot] at U₁
  have hopen : openFds (Function.update view.fdArray fd ⟨rtcTable, 0, 0, 1⟩) fd =
      some ⟨rtcTable, 0⟩ := by
    rw [openFds_update_open hfree.ge hfree.le rfl, Function.update_self]
    rfl
  rw [if_neg (by omega)]
  refine Interaction.Program.Always.bind ?_
  obtain ⟨turns, rfl⟩ := Nat.exists_eq_add_one.mpr positive
  refine U₁.readClock S hopen rfl fun t U₂ => ?_
  dsimp only
  rw [if_neg (by decide)]
  refine Interaction.Program.Always.bind ?_
  refine (linesLoop_always S pat named (by omega) U₂ (Nat.le_refl 0) (Nat.zero_le _)
    positive).mono fun calls left t hlines => ?_
  obtain ⟨U₃, -, hended, -, hpending⟩ := hlines
  have hnothing : shown calls = [] := by
    have P := (hpending [] ⟨List.not_mem_nil, fun h => absurd rfl h, fun _ => .inl rfl,
      .inl rfl⟩).shown
    rw [hended rfl] at P
    change shown calls ++ grepped pattern name [] = grepped pattern name [] at P
    rwa [grepped_nil, List.append_nil] at P
  rw [if_pos rfl]
  refine Interaction.Program.always_pure ?_
  dsimp only
  rw [if_neg Bool.false_ne_true]
  refine U₃.closeOpen S (T.update hfree.ge (.inr rfl)) (openFds_some hopen).1 fun v U₄ => ?_
  rw [Function.update_idem] at U₄
  rw [if_neg (by decide)]
  refine ⟨rfl, ⟨_, U₄, T.update hfree.ge (.inl rfl), ?_⟩, ?_⟩
  · rw [openFds_update_closed rfl, Function.update_eq_self_iff]
    exact hfree.free.symm
  · rw [shown_cons, shown_append, shown_cons, shown_append, hnothing]
    rfl

end Clock

/-! ## The loop over the directory -/

/-- A directory that `grep` gets through: its names are distinct, and the entries without a dot
in front are clocks and files that the turns suffice for. -/
structure Greppable (img : FsImage) (turns : Nat) : Prop where
  distinct : ∀ j < img.boot.numEntry, img.First (img.entryName j) j
  kinds : ∀ j < img.boot.numEntry, (img.dentry j).name 0 ≠ 0x2E →
    (img.dentry j).type = 0 ∨ (img.dentry j).type = 2
  enough : ∀ j < img.boot.numEntry, (img.dentry j).type = 2 →
    (img.inode (img.dentry j).inodeIdx).length < turns

/-- What is shown of entry `j`: nothing of a name with a dot in front or of the clock, and the
lines of a text that the pattern is found in. -/
structure Searched (img : FsImage) (pattern : List UInt8) (j : Nat) (out : List UInt8) : Prop where
  dotted : (img.dentry j).name 0 = 0x2E → out = []
  clock : (img.dentry j).type = 0 → out = []
  text : (img.dentry j).name 0 ≠ 0x2E → (img.dentry j).type = 2 → Clean img j →
    out = grepped pattern (img.entryName j) (fileBytes img j) ∧
      ((∀ line ∈ (fileBytes img j).splitOn newline, line.length ≤ 1024) →
        out = ((fileBytes img j).splitOn newline).flatMap (report pattern (img.entryName j)))

/-- What `grep` has done from entry `n` on. Of the texts nothing is said where a frame that
`do_one_file` gets has a newline behind the buffer. -/
def GrepDone (img : FsImage) (pattern : List UInt8) (frames : Nat → Buf) (n : Nat)
    (calls : List (Event Call Call.Answer)) (status : Int) (k : Kernel) : Prop :=
  status = 0 ∧ counterAt 0 k ∧
    ((∀ m, frames m 1024 ≠ newline) → ∃ parts,
      List.Forall₂ (Searched img pattern) (List.range' n (img.boot.numEntry - n)) parts ∧
        shown calls = parts.flatten)

section Grep

variable {img : FsImage} {term : TerminalDriver} {k : Kernel} {pid : Int} {view : PcbView}
  {fd : Int} {search : Buf} {pattern : List UInt8} {frames : Nat → Buf}

/-- One entry, and the others behind it. -/
theorem GrepDone.cons {n : Nat} {calls rest : List (Event Call Call.Answer)} {status : Int}
    (more : n < img.boot.numEntry)
    (here : (∀ m, frames m 1024 ≠ newline) → Searched img pattern n (shown calls))
    (D : GrepDone img pattern frames (n + 1) rest status k) :
    GrepDone img pattern frames n (calls ++ rest) status k := by
  obtain ⟨hstatus, hcounter, hparts⟩ := D
  refine ⟨hstatus, hcounter, fun stale => ?_⟩
  obtain ⟨parts, hall, hshown⟩ := hparts stale
  have hcount : img.boot.numEntry - n = (img.boot.numEntry - (n + 1)) + 1 := by omega
  refine ⟨shown calls :: parts, ?_, ?_⟩
  · rw [hcount, List.range'_succ]
    exact .cons (here stale) hall
  · rw [shown_append, hshown, List.flatten_cons]

/-- The name that `main` ends in its buffer. -/
theorem holds_entryName (img : FsImage) (j : Nat) (buf : Buf) :
    Field.Holds 0 (Function.update (Stream.splice (img.dentry j).name 0 32 buf) 32 0)
      (img.entryName j) := by
  refine Field.holds_text (fun i hi => ?_) (Function.update_self _ _ _)
  rw [Function.update_of_ne (by omega), Stream.splice, if_pos hi, Nat.zero_add]

/-- The loop, from where the counter stands. -/
theorem grepLoop_always (keeps : term.KeepsProcesses) (keepsListing : term.KeepsListing)
    (wf : img.WellFormed) {fileTurns : Nat} (G : Greppable img fileTurns)
    (lines : 1024 < fileTurns) (pat : Field.Holds 0 search pattern)
    (fits : pattern.length < 4294967296) {turns n m : Nat} {buf : Buf}
    (U : Settled (counterAt n) pid view k) (T : FdTable view.fdArray)
    (room : ¬ SlotTable.Full (openFds view.fdArray) 2 7) {d : Descriptor}
    (dir : openFds view.fdArray fd = some d) (lists : d.ops.readFn = .dirRead)
    (enough : img.boot.numEntry - n < turns) :
    (grepLoop fileTurns search frames fd turns m buf).Always (machine img term pid listsNothing)
      (GrepDone img pattern frames n) k := by
  induction turns generalizing n m k view buf with
  | zero => exact absurd enough (Nat.not_lt_zero _)
  | succ turns ih =>
    have S := @setting_listsNothing img term keeps keepsListing
    refine U.readDir (S n) dir lists (fun hmore t U' => ?_) fun hpast t U' => ?_
    · have hhead : Stream.splice (img.dentry n).name 0 32 buf 0 = (img.dentry n).name 0 := rfl
      dsimp only
      rw [if_neg (by decide), if_neg (by decide)]
      split
      next hdot =>
        rw [hhead] at hdot
        refine (ih U' T room dir (by omega)).mono fun calls status u D => ?_
        show GrepDone img pattern frames n ([_] ++ calls) status u
        exact .cons hmore (fun _ => ⟨fun _ => rfl, fun _ => rfl, fun h => absurd hdot h⟩) D
      next hname =>
        rw [hhead] at hname
        have hfirst := G.distinct n hmore
        refine Interaction.Program.Always.bind ?_
        rcases G.kinds n hmore hname with hclock | hregular
        · refine (doOneFile_clock (S (n + 1)) U' T room pat fits (holds_entryName img n buf)
            hfirst hclock (frames m) (by omega)).mono fun calls r u hone => ?_
          obtain ⟨hresult, ⟨view', V, T', hsame⟩, hnothing⟩ := hone
          rw [if_neg (not_not.mpr hresult)]
          refine (ih V T' (hsame ▸ room) (hsame ▸ dir) (by omega)).mono fun rest status v D => ?_
          show GrepDone img pattern frames n ((_ :: calls) ++ rest) status v
          refine .cons hmore (fun _ => ?_) D
          have hshown : shown (⟨.read fd buf 32, (Stream.splice (img.dentry n).name 0 32 buf,
              (32 : Int))⟩ :: calls) = [] := hnothing
          rw [hshown]
          exact ⟨fun _ => rfl, fun _ => rfl, fun _ h => absurd (hclock.symm.trans h) (by decide)⟩
        · refine (doOneFile_greps (S (n + 1)) wf U' T room pat fits (holds_entryName img n buf)
            hfirst hregular (frames m) lines (G.enough n hmore hregular)).mono
              fun calls r u hone => ?_
          obtain ⟨hresult, -, ⟨view', V, T', hsame⟩, hshows⟩ := hone
          rw [if_neg (not_not.mpr hresult)]
          refine (ih V T' (hsame ▸ room) (hsame ▸ dir) (by omega)).mono fun rest status v D => ?_
          show GrepDone img pattern frames n ((_ :: calls) ++ rest) status v
          refine .cons hmore (fun stale => ?_) D
          refine ⟨fun h => absurd h hname, fun h => absurd (h.symm.trans hregular) (by decide), ?_⟩
          exact fun _ _ hclean => hshows hclean (stale m)
    · -- the counter is back at the first entry
      have hnone : img.boot.numEntry - n = 0 := by omega
      refine ⟨rfl, U'.extra, fun _ => ⟨[], ?_, rfl⟩⟩
      rw [hnone]
      exact .nil

end Grep

/-- `grep PATTERN`, typed at any moment, where the first entry named `.` is a directory: while
nobody else lists it and the clock's interrupts keep coming, it ends with status 0 and searches
each entry from the system's counter on, in order. Of a text that the buffer does not spoil it
shows the lines that the pattern is found in, each behind the file's name, and a line longer than
the buffer as several; of the clock and of a name with a dot in front it shows nothing. -/
theorem grep_shows {img : FsImage} {term : TerminalDriver} (keeps : term.KeepsProcesses)
    (keepsListing : term.KeepsListing) (wf : img.WellFormed) {frame₀ frame : Frame}
    {k₀ k₁ k k₂ : Kernel} {eip₀ esp₀ eip esp : Nat} (boot : Booted k₀)
    (first : initShell img frame₀ k₀ = some (k₁, .iret eip₀ esp₀))
    (run : Runs.Reach (sysStep img term) callsLeaf k₁ k)
    {program argument rest : List UInt8} {spaces : Nat}
    (name : ∀ c ∈ program, ProgramByte c) (some_space : 1 ≤ spaces)
    (text : ∀ c ∈ argument, ArgumentByte c) (unpadded : argument.head? ≠ some blank)
    (stop : Terminates rest) (nonempty : argument ≠ [])
    (exec : executeHandler img frame
      (some (program ++ (List.replicate spaces blank ++ (argument ++ rest)))) k =
        some (k₂, .iret eip esp)) {j turns : Nat}
    (dot : img.First (bytes ".") j) (isDir : (img.dentry j).type = 1) (G : Greppable img turns)
    (lines : 1024 < turns) (enough : img.boot.numEntry < turns) (frames : Nat → Buf)
    (search buf : Buf) :
    (grep turns frames search buf).Always (machine img term k₂.proc.currentId listsNothing)
      (GrepDone img argument frames k₂.fs.dirOpenFileIdx) k₂ := by
  obtain ⟨view, hstart, F⟩ :=
    undisturbed_of_command keeps boot first run name some_space text unpadded stop exec
  have S := @setting_listsNothing img term keeps keepsListing k₂.fs.dirOpenFileIdx
  have U : Settled (counterAt k₂.fs.dirOpenFileIdx) k₂.proc.currentId view k₂ := ⟨hstart, rfl⟩
  have hfits : argument.length ≤ 254 := F.stored.1
  refine U.getargs S F.stored text nonempty (by omega) fun t out U₁ hholds _ => ?_
  refine U₁.openDir S F.table F.room dot isDir fun fd u hfree U₂ => ?_
  have hopen : openFds (Function.update view.fdArray fd ⟨dirTable, 0, 0, 1⟩) =
      Function.update (fun _ => none) fd (some ⟨dirTable, 0⟩) := by
    rw [openFds_update_open hfree.ge hfree.le rfl, F.closed]
    rfl
  have hroom : ¬ SlotTable.Full (openFds (Function.update view.fdArray fd ⟨dirTable, 0, 0, 1⟩))
      2 7 := by
    rw [hopen]
    intro hfull
    -- 6 or 7 is another descriptor
    by_cases hlast : fd = 7
    · exact hfull 6 (by decide) (by decide) (Function.update_of_ne (by omega) _ _)
    · exact hfull 7 (by decide) (by decide) (Function.update_of_ne (by omega) _ _)
  have hdir := congrFun hopen fd
  rw [Function.update_self] at hdir
  have hlo := hfree.ge
  dsimp only
  rw [if_neg (by omega)]
  exact grepLoop_always keeps keepsListing wf G lines hholds (by omega) U₂
    (F.table.update hfree.ge (.inr rfl)) hroom hdir rfl (by omega)

/-- A directory with itself, a program without a NUL, the clock and a text. -/
def textImage : FsImage where
  boot := ⟨4, 2, 2⟩
  dentry := fun i =>
    if i = 0 then ⟨cstr (bytes "."), 1, 0⟩
    else if i = 1 then ⟨cstr (bytes "shell"), 2, 0⟩
    else if i = 2 then ⟨cstr (bytes "rtc"), 0, 0⟩
    else ⟨cstr (bytes "notes"), 2, 1⟩
  inode := fun x => if x = 0 then ⟨28, fun _ => 0⟩ else ⟨10, fun _ => 1⟩
  data := fun b =>
    if b = 0 then
      cstr ([0x7F, 0x45, 0x4C, 0x46] ++ List.replicate 20 blank ++ [0x18, 0x80, 0x04, 0x08])
    else cstr (bytes "say hi\nho\n")

theorem textImage_wellFormed : textImage.WellFormed where
  length := by decide +kernel
  blocks := by
    intro j _ _ i _
    show (if (textImage.dentry j).inodeIdx = 0 then (⟨28, fun _ => 0⟩ : Inode)
      else ⟨10, fun _ => 1⟩).dataAdd i < 2
    split
    · exact Nat.two_pos
    · exact Nat.one_lt_two

theorem textImage_greppable : Greppable textImage 1025 where
  distinct := by
    have hbefore : ∀ j < 4, ∀ i < j, textImage.entryName i ≠ textImage.entryName j := by
      decide +kernel
    exact fun j hj => ⟨hj, rfl, hbefore j hj⟩
  kinds := by decide +kernel
  enough := by decide +kernel

/-- `grep hi`, where `notes` holds two lines. -/
theorem grep_shows_notes :
    ∃ k₁ k₂, initShell textImage zeroFrame coldBoot = some (k₁, .iret 0x08048018 newUserBottom) ∧
      executeHandler textImage zeroFrame (some (bytes "shell hi")) k₁ =
        some (k₂, .iret 0x08048018 newUserBottom) ∧
      ∀ frames, (∀ m, frames m 1024 ≠ newline) → ∀ search buf,
        (grep 1025 frames search buf).Always
          (machine textImage quietTerminal k₂.proc.currentId listsNothing)
          (fun calls status _ => status = 0 ∧ shown calls = bytes "notes:say hi\n") k₂ := by
  have start : ∃ k₁ k₂,
      initShell textImage zeroFrame coldBoot = some (k₁, .iret 0x08048018 newUserBottom) ∧
        executeHandler textImage zeroFrame (some (bytes "shell hi")) k₁ =
          some (k₂, .iret 0x08048018 newUserBottom) ∧
        k₂.fs.dirOpenFileIdx = 0 := ⟨_, _, rfl, rfl, rfl⟩
  obtain ⟨k₁, k₂, first, exec, hcounter⟩ := start
  refine ⟨k₁, k₂, first, exec, fun frames stale search buf => ?_⟩
  have hdot : textImage.First (bytes ".") 0 :=
    ⟨by decide, by decide +kernel, fun i hi => absurd hi (Nat.not_lt_zero i)⟩
  have hgrep := @grep_shows textImage quietTerminal quietTerminal_keeps quietTerminal_keepsListing
    textImage_wellFormed _ _ _ _ _ _ _ _ _ _ coldBoot_booted first .refl (bytes "shell")
    (bytes "hi") [] 1 (by decide +kernel) (by decide) (by decide +kernel) (by decide +kernel) nofun
    (by decide +kernel) exec 0 1025 hdot rfl textImage_greppable (by decide) (by decide) frames
    search buf
  refine hgrep.mono fun calls status _ ⟨hstatus, _, hparts⟩ => ⟨hstatus, ?_⟩
  obtain ⟨parts, hall, hshown⟩ := hparts stale
  rw [hcounter] at hall
  change List.Forall₂ _ [0, 1, 2, 3] parts at hall
  obtain _ | ⟨hself, _ | ⟨hshell, _ | ⟨hrtc, _ | ⟨hnotes, ⟨⟩⟩⟩⟩⟩ := hall
  obtain ⟨hnone, -⟩ := hshell.text (by decide) rfl ⟨by decide +kernel, .inl (by decide +kernel)⟩
  obtain ⟨hone, -⟩ := hnotes.text (by decide) rfl ⟨by decide +kernel, .inl (by decide +kernel)⟩
  rw [hshown, hself.dotted rfl, hnone, hrtc.clock rfl, hone]
  decide +kernel

end Mp3Kernel.User
