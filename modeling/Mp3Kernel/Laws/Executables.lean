import Mp3Kernel.Laws.CommandParsing
import Mp3Kernel.Laws.Loader

/-!
# Which programs `execute` starts

`execute` looks the program's name up and tests the first four of the 28 bytes it reads of
the entry's file. It tests neither the entry's type nor the file's length: of a shorter file
the buffer keeps what the stack held behind its end (`headerBytes`), so an entry that is no
executable passes when those bytes happen to pass. An entry that is one passes whatever the
stack held, and is then loaded, inside its page unless it is too long.
-/

namespace Mp3Kernel

/-! ## The header -/

/-- The bytes of an entry's file, by position. -/
def FsImage.content (img : FsImage) (j : Nat) : Buf :=
  fileByte img (img.inode (img.dentry j).inodeIdx)

/-- The length of an entry's file. -/
def FsImage.fileLength (img : FsImage) (j : Nat) : Int := (img.inode (img.dentry j).inodeIdx).length

/-- A regular file of at least 28 bytes that begins as an ELF file does. -/
structure FsImage.Executable (img : FsImage) (j : Nat) : Prop where
  regular : (img.dentry j).type = 2
  long : 28 ≤ img.fileLength j
  magic : isExecutable (img.content j) = true

/-- The first executable of a name in the directory has this entry point. -/
def FsImage.HasExecutable (img : FsImage) (program : List UInt8) (eip : Nat) : Prop :=
  ∃ j < img.boot.numEntry, (img.entryName j = program ∧ img.Executable j) ∧
    (∀ i < j, img.entryName i = program → ¬ img.Executable i) ∧ eip = entryPoint (img.content j)

/-- The 28 bytes the EXE check sees of an entry's file: its own as far as they go, and then
what the stack held. -/
def headerBytes (img : FsImage) (j : Nat) (stale : Buf) : Buf := fun i =>
  if (i : Int) < min 28 (img.fileLength j) then img.content j i else stale i

section Header

variable {img : FsImage} {j : Nat} {stale : Buf}

/-- With nothing left to copy, the outer loop copies nothing. -/
theorem Transfer.copyBlocks_idle {inode : Inode} (n i : Nat) {t : Transfer}
    (h : t.totalBytes ≤ 0) : copyBlocks img inode n i t = t := by
  induction n generalizing i with
  | zero => rfl
  | succ n ih =>
    have hturns : t.totalBytes.toNat = 0 := Int.toNat_eq_zero.mpr h
    unfold copyBlocks
    rw [hturns]
    exact ih (i + 1)

/-- Of a file whose length is negative nothing is copied. -/
theorem executeRead_negative {v : FsVars} (last : v.lastDentry = some j)
    (negative : img.fileLength j < 0) {nbytes : Int} (request : 0 ≤ nbytes) {buf : Buf} :
    executeRead img buf nbytes v =
      { buf := buf, bufIdx := 0, curByte := 0, totalBytes := img.fileLength j, stores := [],
        loads := [] } := by
  have hmin : min nbytes (img.fileLength j) = img.fileLength j := by omega
  have hclipped := @executeRead_eq img buf v j nbytes last
  unfold FsImage.fileLength at hmin negative ⊢
  rw [hclipped, hmin]
  unfold copyRange
  exact Transfer.copyBlocks_idle _ _ (Int.le_of_lt negative)

theorem executeRead_header {v : FsVars} (last : v.lastDentry = some j) (stale : Buf) :
    (executeRead img stale 28 v).buf = headerBytes img j stale := by
  by_cases hneg : img.fileLength j < 0
  · rw [executeRead_negative last hneg (by decide)]
    funext i
    unfold headerBytes
    rw [if_neg (by omega)]
  · obtain ⟨m, hm⟩ := Int.eq_ofNat_of_zero_le (show 0 ≤ min 28 (img.fileLength j) by omega)
    have hstored : storedBytes 0 m = m := storedBytes_eq (by omega)
    have hcopied := @executeRead_copied img stale v j 28 last m hm.symm (by omega)
    rw [hcopied.buf, hstored]
    funext i
    unfold headerBytes Stream.splice
    rw [Nat.zero_add]
    exact if_congr (by omega) rfl rfl

/-- Of a file of 28 bytes or more the stack is not seen. -/
theorem headerBytes_long (long : 28 ≤ img.fileLength j) {i : Nat} (hi : i < 28) :
    headerBytes img j stale i = img.content j i := by
  unfold headerBytes
  rw [if_pos (by omega)]

theorem headerBytes_executable (long : 28 ≤ img.fileLength j) :
    isExecutable (headerBytes img j stale) = isExecutable (img.content j) ∧
      entryPoint (headerBytes img j stale) = entryPoint (img.content j) := by
  have hbyte : ∀ i < 28, headerBytes img j stale i = img.content j i :=
    fun i hi => headerBytes_long long hi
  unfold isExecutable entryPoint
  rw [hbyte 0 (by omega), hbyte 1 (by omega), hbyte 2 (by omega), hbyte 3 (by omega),
    hbyte 24 (by omega), hbyte 25 (by omega), hbyte 26 (by omega), hbyte 27 (by omega)]
  exact ⟨rfl, rfl⟩

end Header

/-! ## The checks -/

/-- "check validity": the entry point `execute` goes on with, if it does. -/
def checkProgram (img : FsImage) (stale : Buf) (program : List UInt8) (k : Kernel) : Option Nat :=
  let r := readDentryByName img (cstr program) k
  if r.2 = -1 then none
  else
    let fileData := (executeRead img stale 28 r.1.fs).buf
    if isExecutable fileData then some (entryPoint fileData) else none

section Checks

variable {img : FsImage} {frame : Frame} {command program : List UInt8} {k : Kernel} {pid : Int}

/-- The checks see the first entry of the program's name, and 28 bytes. -/
theorem checkProgram_some_iff (holds : Field.Holds 0 (cstr program) program)
    (proper : newline ∉ program) (stale : Buf) (k : Kernel) {eip : Nat} :
    checkProgram img stale program k = some eip ↔
      ∃ j, img.First program j ∧ isExecutable (headerBytes img j stale) = true ∧
        eip = entryPoint (headerBytes img j stale) := by
  have hknown : ∀ j, knownEntry img (cstr program) = some j ↔ img.First program j :=
    fun j => knownEntry_line holds proper
  unfold checkProgram
  cases h : knownEntry img (cstr program) with
  | none =>
    dsimp only
    rw [if_pos (readDentryByName_unknown img _ h k)]
    refine iff_of_false nofun ?_
    rintro ⟨j, hfirst, -⟩
    rw [(hknown j).mpr hfirst] at h
    cases h
  | some j =>
    obtain ⟨hzero, hfs⟩ := readDentryByName_known img _ h k
    have hfirst := (hknown j).mp h
    have hlast : (readDentryByName img (cstr program) k).1.fs.lastDentry = some j := by rw [hfs]
    dsimp only
    rw [if_neg (by omega), executeRead_header hlast]
    constructor
    · intro hcheck
      split at hcheck
      next helf => exact ⟨j, hfirst, helf, (Option.some.inj hcheck).symm⟩
      next => cases hcheck
    · rintro ⟨i, hi, helf, rfl⟩
      obtain rfl := hi.unique hfirst
      rw [if_pos helf]

/-- The state a program is loaded in has the entry of its name. -/
theorem loading_lastDentry (holds : Field.Holds 0 (cstr program) program)
    (proper : newline ∉ program) {j : Nat} (first : img.First program j) (pid : Int)
    (k : Kernel) : (loading img program pid k).fs.lastDentry = some j := by
  have hknown := (knownEntry_line holds proper).mpr first
  show (readDentryByName img (cstr program) (k.setId pid 1)).1.fs.lastDentry = some j
  rw [(readDentryByName_known img _ hknown (k.setId pid 1)).2]

/-- The new process takes over from a state in which its program is loaded. -/
def Kernel.enterProcess (frame : Frame) (pid : Int) (child : Pcb) (k : Kernel) : Kernel :=
  { k with proc := k.proc.enter frame pid child }

/-- `execute` goes on as the checks say, once it has a pid and the command fits. -/
theorem executeHandler_checked (fits : commandFits command)
    (free : findPid k.proc.idArray maximumProcess 0 = some pid) :
    match checkProgram img frame.fileData (parseCommand command).1 k with
    | none => ∃ k', executeHandler img frame (some command) k = some (k', .ret (-1))
    | some eip => ∃ child, executeHandler img frame (some command) k =
        (loadProgram img (loading img (parseCommand command).1 pid k)).map fun k' =>
          (k'.enterProcess frame pid child, .iret eip newUserBottom) := by
  have hresult := readDentryByName_found img (cstr (parseCommand command).1) (k.setId pid 1) k
  have hfs := lookup_setId_fs img (cstr (parseCommand command).1) k pid 1
  unfold checkProgram executeHandler
  dsimp only
  rw [free]
  dsimp only
  rw [if_neg (not_not.mpr fits), hresult]
  by_cases hmissing : (readDentryByName img (cstr (parseCommand command).1) k).2 = -1
  · rw [if_pos hmissing, if_pos hmissing]
    exact ⟨_, rfl⟩
  · rw [if_neg hmissing, if_neg hmissing]
    unfold startProgram
    dsimp only
    rw [hfs]
    by_cases helf : isExecutable (executeRead img frame.fileData 28
        (readDentryByName img (cstr (parseCommand command).1) k).1.fs).buf = true
    · rw [if_pos helf]
      refine ⟨newPcb frame (callerPtr k.proc) k.proc.currentId fun i =>
        if i < 255 then
          if i ≤ (parseCommand command).2.length then cstr (parseCommand command).2 i else 0
        else frame.childPcb.executeArg i, ?_⟩
      rw [if_pos helf]
      unfold loading
      cases loadProgram img ((readDentryByName img (cstr (parseCommand command).1)
        (k.setId pid 1)).1.setPage pid) <;> rfl
    · rw [if_neg helf, if_neg helf]
      exact ⟨_, rfl⟩

end Checks

/-! ## Accepting exactly the executables -/

/-- `execute` goes on to start a process: it does not come back with an error. -/
def Accepts (outcome : Option (Kernel × Exit)) : Prop := ∀ k', outcome ≠ some (k', .ret (-1))

/-- The checks let through exactly the names of executables, with the entry point of the first
of the name: nothing but the image and the name tells. -/
structure AcceptsExactly (img : FsImage) (stale : Buf) (program : List UInt8) (k : Kernel) :
    Prop where
  accepts : (checkProgram img stale program k).isSome ↔
    program.length ≤ 32 ∧
      ∃ j < img.boot.numEntry, img.entryName j = program ∧ img.Executable j
  entry : ∀ eip, checkProgram img stale program k = some eip → img.HasExecutable program eip

/-- The header of the first entry of a name is none and no entry of the name is an executable; or
it is one, with the entry point of the first executable of the name. -/
def FirstDecides (img : FsImage) (stale : Buf) (program : List UInt8) : Prop :=
  ∀ j, img.First program j →
    (isExecutable (headerBytes img j stale) = false ∧ ∀ eip, ¬ img.HasExecutable program eip) ∨
      (isExecutable (headerBytes img j stale) = true ∧
        img.HasExecutable program (entryPoint (headerBytes img j stale)))

section Accepting

variable {img : FsImage} {frame : Frame} {command program : List UInt8} {k : Kernel} {pid : Int}
  {stale : Buf} {j eip : Nat}

theorem accepts_started (loaded : Option Kernel) (enter : Kernel → Kernel) (eip esp : Nat) :
    Accepts (loaded.map fun k' => (enter k', .iret eip esp)) := by
  intro k' h
  obtain ⟨_, -, heq⟩ := Option.map_eq_some_iff.mp h
  exact Exit.noConfusion (Prod.mk.inj heq).2

theorem eip_started {loaded : Option Kernel} {enter : Kernel → Kernel} {eip esp eip' esp' : Nat}
    {k' : Kernel} (h : (loaded.map fun k' => (enter k', Exit.iret eip esp)) =
      some (k', .iret eip' esp')) : eip' = eip := by
  obtain ⟨_, -, heq⟩ := Option.map_eq_some_iff.mp h
  exact (Exit.iret.inj (Prod.mk.inj heq).2).1.symm

theorem FsImage.HasExecutable.named (h : img.HasExecutable program eip) :
    program.length ≤ 32 ∧
      ∃ j < img.boot.numEntry, img.entryName j = program ∧ img.Executable j := by
  obtain ⟨j, hlt, ⟨hname, hexe⟩, -⟩ := h
  exact ⟨hname ▸ img.entryName_length_le j, j, hlt, hname, hexe⟩

theorem hasExecutable_of_named
    (h : ∃ j < img.boot.numEntry, img.entryName j = program ∧ img.Executable j) :
    ∃ eip, img.HasExecutable program eip := by
  obtain ⟨j, hlt, hfound, hbefore⟩ := exists_first_entry h
  exact ⟨_, j, hlt, hfound, fun i hi hname hexe => hbefore i hi ⟨hname, hexe⟩, rfl⟩

/-- The first entry of a name decides rightly if it is an executable itself. -/
theorem FsImage.Executable.decides (exe : img.Executable j) (first : img.First program j) :
    FirstDecides img stale program := by
  intro i hi
  obtain rfl := hi.unique first
  obtain ⟨hpasses, hentry⟩ := @headerBytes_executable img i stale exe.long
  exact .inr ⟨hpasses.trans exe.magic,
    i, first.lt, ⟨first.named, exe⟩, fun n hn hname _ => first.before n hn hname, hentry⟩

/-- Where the first entry decides, a header that passes has the right entry point. -/
theorem FirstDecides.entry (decides : FirstDecides img stale program) (first : img.First program j)
    (passes : isExecutable (headerBytes img j stale) = true) :
    img.HasExecutable program (entryPoint (headerBytes img j stale)) := by
  rcases decides j first with ⟨hnone, -⟩ | ⟨-, hexe⟩
  · rw [passes] at hnone
    cases hnone
  · exact hexe

/-- And the header passes, if there is an executable of the name. -/
theorem FirstDecides.passes (decides : FirstDecides img stale program) (first : img.First program j)
    (named : ∃ j < img.boot.numEntry, img.entryName j = program ∧ img.Executable j) :
    isExecutable (headerBytes img j stale) = true := by
  rcases decides j first with ⟨-, hnone⟩ | ⟨hpasses, -⟩
  · obtain ⟨eip, hexe⟩ := hasExecutable_of_named named
    exact absurd hexe (hnone eip)
  · exact hpasses

theorem acceptsExactly_iff (holds : Field.Holds 0 (cstr program) program)
    (proper : newline ∉ program) (k : Kernel) :
    AcceptsExactly img stale program k ↔ FirstDecides img stale program := by
  have hcheck := fun eip => @checkProgram_some_iff img program holds proper stale k eip
  constructor
  · intro exact j hfirst
    cases hpasses : isExecutable (headerBytes img j stale) with
    | true =>
      exact .inr ⟨rfl, exact.entry _ ((hcheck _).mpr ⟨j, hfirst, hpasses, rfl⟩)⟩
    | false =>
      refine .inl ⟨rfl, fun eip hexe => ?_⟩
      obtain ⟨found, hfound⟩ := Option.isSome_iff_exists.mp (exact.accepts.mpr hexe.named)
      obtain ⟨i, hi, hpasses', -⟩ := (hcheck found).mp hfound
      rw [hi.unique hfirst, hpasses] at hpasses'
      cases hpasses'
  · intro decides
    have hentry : ∀ eip, checkProgram img stale program k = some eip →
        img.HasExecutable program eip := by
      intro eip hsome
      obtain ⟨j, hfirst, hpasses, rfl⟩ := (hcheck eip).mp hsome
      exact decides.entry hfirst hpasses
    refine ⟨⟨fun hsome => ?_, ?_⟩, hentry⟩
    · obtain ⟨eip, heip⟩ := Option.isSome_iff_exists.mp hsome
      exact (hentry eip heip).named
    · rintro ⟨-, i, hlt, hname, hexe⟩
      obtain ⟨j, hfirst⟩ := FsImage.exists_first ⟨i, hlt, hname⟩
      have hpasses := decides.passes hfirst ⟨i, hlt, hname, hexe⟩
      exact Option.isSome_iff_exists.mpr ⟨_, (hcheck _).mpr ⟨j, hfirst, hpasses, rfl⟩⟩

/-- `execute` goes on exactly for the names of executables, and with their entry points, just
when the first entry of the name decides rightly. -/
theorem executeHandler_accepts_iff (img : FsImage) (frame : Frame) {command : List UInt8}
    {k : Kernel} {pid : Int} (fits : commandFits command)
    (free : findPid k.proc.idArray maximumProcess 0 = some pid) :
    let check := checkProgram img frame.fileData (parseCommand command).1 k
    (Accepts (executeHandler img frame (some command) k) ↔ check.isSome) ∧
      (∀ k' eip esp, executeHandler img frame (some command) k = some (k', .iret eip esp) →
        check = some eip) ∧
      (AcceptsExactly img frame.fileData (parseCommand command).1 k ↔
        FirstDecides img frame.fileData (parseCommand command).1) := by
  obtain ⟨hnul, hline⟩ := parseCommand_program command
  have hexact := @acceptsExactly_iff img _ frame.fileData (Field.holds_getD hnul) hline k
  have hrun := @executeHandler_checked img frame command k pid fits free
  dsimp only
  rw [← and_assoc]
  refine ⟨?_, hexact⟩
  generalize checkProgram img frame.fileData (parseCommand command).1 k = check at hrun ⊢
  cases check with
  | none =>
    obtain ⟨k₁, hrefused⟩ := hrun
    rw [hrefused]
    refine ⟨iff_of_false (fun h => h k₁ rfl) nofun, fun k' eip esp h => ?_⟩
    exact Exit.noConfusion (Prod.mk.inj (Option.some.inj h)).2
  | some found =>
    obtain ⟨child, hstart⟩ := hrun
    rw [hstart]
    refine ⟨iff_of_true (accepts_started _ _ _ _) Option.isSome_some, fun k' eip esp h => ?_⟩
    rw [eip_started h]

theorem shellImage_first : shellImage.First (parseCommand (bytes "shell")).1 0 where
  lt := by decide
  named := by decide +kernel
  before := fun i hi => absurd hi (Nat.not_lt_zero i)

/-- The shell's name, with nothing on the stack. -/
theorem executeHandler_accepts_shell :
    AcceptsExactly shellImage zeroFrame.fileData (parseCommand (bytes "shell")).1 coldBoot := by
  have hexe : shellImage.Executable 0 := ⟨rfl, by decide, by decide +kernel⟩
  obtain ⟨-, -, hexact⟩ := @executeHandler_accepts_iff shellImage zeroFrame (bytes "shell") coldBoot
    0 (by decide +kernel) (by decide)
  exact hexact.mpr (hexe.decides shellImage_first)

/-- A stack frame that still holds another program's header. -/
def headerFrame : Frame := { zeroFrame with fileData := cstr elfHeader }

/-- On it, an empty file is started. -/
theorem executeHandler_accepts_empty :
    Accepts (executeHandler (namedImage fullName) headerFrame (some fullName) coldBoot) ∧
      ¬ AcceptsExactly (namedImage fullName) headerFrame.fileData (parseCommand fullName).1
        coldBoot := by
  have hcheck : checkProgram (namedImage fullName) headerFrame.fileData (parseCommand fullName).1
      coldBoot = some 0x08048018 := by decide +kernel
  constructor
  · have hrun := @executeHandler_checked (namedImage fullName) headerFrame fullName coldBoot 0
      (by decide +kernel) (by decide)
    rw [hcheck] at hrun
    obtain ⟨child, hstart⟩ := hrun
    rw [hstart]
    exact accepts_started _ _ _ _
  · intro h
    obtain ⟨-, j, -, -, hexe⟩ := h.accepts.mp (by rw [hcheck]; rfl)
    exact absurd hexe.long (by decide : ¬ (28 : Int) ≤ 0)

end Accepting

/-! ## Loading them -/

/-- The loader stores inside the user page just when the executable is shorter than 952
blocks; a longer one faults. -/
theorem executeHandler_load_iff {img : FsImage} (wf : img.WellFormed) (frame : Frame)
    {command : List UInt8} {k : Kernel} {pid : Int} {j : Nat} (fits : commandFits command)
    (free : findPid k.proc.idArray maximumProcess 0 = some pid)
    (first : img.First (parseCommand command).1 j) (exe : img.Executable j) :
    ((∀ a ∈ loadStores img (loading img (parseCommand command).1 pid k),
        0x08048000 ≤ a ∧ a < 0x08400000) ↔ img.fileLength j < 0x3B8000) ∧
      ((executeHandler img frame (some command) k).isSome ↔ img.fileLength j < 0x3B8000) := by
  obtain ⟨hlo, hhi⟩ := wf.length j first.lt exe.regular
  obtain ⟨hnul, hline⟩ := parseCommand_program command
  obtain ⟨length, hlength⟩ : ∃ length : Nat, img.fileLength j = length :=
    Int.eq_ofNat_of_zero_le hlo
  have hsmall : length ≤ 1023 * 4096 := by
    have : img.fileLength j ≤ 1023 * 4096 := hhi
    omega
  have hlast := loading_lastDentry (Field.holds_getD hnul) hline first pid k
  have hcond : img.fileLength j < 0x3B8000 ↔ length < 0x3B8000 := by omega
  have hchecked : checkProgram img frame.fileData (parseCommand command).1 k =
      some (entryPoint (headerBytes img j frame.fileData)) :=
    (checkProgram_some_iff (Field.holds_getD hnul) hline _ k).mpr
      ⟨j, first, (headerBytes_executable exe.long).1.trans exe.magic, rfl⟩
  have hrun := @executeHandler_checked img frame command k pid fits free
  rw [hchecked] at hrun
  obtain ⟨child, hstart⟩ := hrun
  rw [hcond]
  refine ⟨loadStores_inside_iff hlast hlength hsmall, ?_⟩
  rw [hstart, Option.isSome_map]
  exact loadProgram_isSome_iff hlast hlength hsmall

/-- The shell is loaded inside its page. -/
theorem executeHandler_load_shell :
    (∀ a ∈ loadStores shellImage (loading shellImage (parseCommand (bytes "shell")).1 0 coldBoot),
        0x08048000 ≤ a ∧ a < 0x08400000) ∧
      (executeHandler shellImage zeroFrame (some (bytes "shell")) coldBoot).isSome := by
  have hexe : shellImage.Executable 0 := ⟨rfl, by decide, by decide +kernel⟩
  obtain ⟨hstores, hstarts⟩ := @executeHandler_load_iff shellImage shellImage_wellFormed zeroFrame
    (bytes "shell") coldBoot 0 0 (by decide +kernel) (by decide) shellImage_first hexe
  have hshort : shellImage.fileLength 0 < 0x3B8000 := by decide
  exact ⟨hstores.mpr hshort, hstarts.mpr hshort⟩

/-- An image with a program of 952 blocks. -/
def bigImage : FsImage where
  boot := ⟨1, 1, 1⟩
  dentry := fun _ => ⟨cstr (bytes "big"), 2, 0⟩
  inode := fun _ => ⟨0x3B8000, fun _ => 0⟩
  data := fun _ => cstr elfHeader

theorem bigImage_wellFormed : bigImage.WellFormed where
  length := fun _ _ _ => (by decide : (0 : Int) ≤ 0x3B8000 ∧ (0x3B8000 : Int) ≤ 1023 * 4096)
  blocks := fun _ _ _ _ _ => Nat.zero_lt_one

theorem bigImage_first : bigImage.First (parseCommand (bytes "big")).1 0 where
  lt := by decide
  named := by decide +kernel
  before := fun i hi => absurd hi (Nat.not_lt_zero i)

/-- It fills the page to its last byte, and the bytes counted too many go past it. -/
theorem executeHandler_load_big :
    bigImage.WellFormed ∧ bigImage.First (parseCommand (bytes "big")).1 0 ∧
      bigImage.Executable 0 ∧
      ¬ ∀ a ∈ loadStores bigImage (loading bigImage (parseCommand (bytes "big")).1 0 coldBoot),
        0x08048000 ≤ a ∧ a < 0x08400000 := by
  have hexe : bigImage.Executable 0 := ⟨rfl, by decide, by decide +kernel⟩
  refine ⟨bigImage_wellFormed, bigImage_first, hexe, fun h => ?_⟩
  obtain ⟨hnul, hline⟩ := parseCommand_program (bytes "big")
  have hlast := loading_lastDentry (Field.holds_getD hnul) hline bigImage_first 0 coldBoot
  have hshort := (loadStores_inside_iff hlast rfl (by decide : 0x3B8000 ≤ 1023 * 4096)).mp h
  exact absurd hshort (by decide)

end Mp3Kernel
