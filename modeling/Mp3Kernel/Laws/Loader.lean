import Mp3Kernel.Laws.NameLookup
import Mp3Kernel.Laws.FileStream

/-!
# The program loader

`execute_read` runs the loop of `file_read` from the start of the file that `last_dentry`
names, so on a well-formed image it stores what a fresh descriptor's first read stores
(`executeRead_copied`). That is one byte too many for each block end it passes, and `execute`
asks for a whole page of 4 MB and has it stored from `0x48000` into one: what keeps the program
inside the page is the file's length alone.
-/

namespace Mp3Kernel

/-! ## What `execute_read` stores -/

section Reading

variable {img : FsImage} {inode : Inode} {buf : Buf} {v : FsVars} {j : Nat} {nbytes : Int}

/-- The bytes `execute_read` asks for. -/
theorem executeRead_eq (h : v.lastDentry = some j) :
    executeRead img buf nbytes v =
      copyRange img (img.inode (img.dentry j).inodeIdx) 0
        (min nbytes (img.inode (img.dentry j).inodeIdx).length) buf := by
  have hclip : ∀ length : Int, (if nbytes > length then length else nbytes) = min nbytes length :=
    fun length => by split <;> omega
  unfold executeRead readDataExecute
  rw [h, Option.getD_some]
  dsimp only
  rw [hclip]

theorem executeRead_copied (h : v.lastDentry = some j) {m : Nat}
    (count : (m : Int) = min nbytes (img.inode (img.dentry j).inodeIdx).length)
    (range : m < 2147483648) :
    Copied img (img.inode (img.dentry j).inodeIdx) 0 buf (storedBytes 0 m)
      (executeRead img buf nbytes v) := by
  rw [executeRead_eq h, ← count]
  exact copyRange_copied img _ 0 m buf (by omega)

end Reading

/-! ## The loader and the file reader -/

/-- A descriptor that `open` has just returned for a name that entry `j` has. -/
def FreshlyOpened (img : FsImage) (j : Nat) (k : Kernel) (fd : Int) : Prop :=
  ∃ filename k₀, knownEntry img filename = some j ∧
    openCall img (some filename) k₀ = (k, fd) ∧ fd ≠ -1

theorem FreshlyOpened.slot {img : FsImage} {j : Nat} {k : Kernel} {fd : Int}
    (h : FreshlyOpened img j k fd) : k.fds fd = openedSlot (img.dentry j) := by
  obtain ⟨filename, k₀, hname, hopen, hfd⟩ := h
  cases hslot : findSlot k₀.currentPcb.fdArray 6 2 with
  | none =>
    have hrefused := (@openCall_refused img (some filename) k₀ (.inr hslot)).1
    rw [hopen] at hrefused
    exact absurd hrefused hfd
  | some index =>
    obtain ⟨hindex, hproc⟩ := openCall_granted hname hslot
    rw [hopen] at hindex hproc
    have hfd' : fd = index := hindex
    rw [fds_of_withFds hproc, hfd', Function.update_self]

/-- For a regular file of a well-formed image, `execute_read` leaves the file's first bytes in
the buffer, does to the whole of it what the first read of a fresh descriptor does, and changes
nothing of the kernel: neither a descriptor's position nor `last_read`. -/
theorem executeRead_agrees {img : FsImage} (wf : img.WellFormed) {j : Nat}
    (lt : j < img.boot.numEntry) (regular : (img.dentry j).type = 2) {k : Kernel}
    (last : k.fs.lastDentry = some j) (fd : Int) (buf : Buf) {nbytes : Int}
    (nonneg : 0 ≤ nbytes) :
    let inode := img.inode (img.dentry j).inodeIdx
    let r := executeReadCall img fd buf nbytes k
    (∀ i : Nat, (i : Int) < min nbytes inode.length → r.2.1 i = fileByte img inode i) ∧
      (∀ k' fd', FreshlyOpened img j k' fd' → r.2.1 = (fileRead img fd' buf nbytes k').2.1) ∧
      r.1 = k := by
  intro inode r
  obtain ⟨hlo, hhi⟩ : 0 ≤ inode.length ∧ inode.length ≤ 1023 * 4096 := wf.length j lt regular
  obtain ⟨m, hm⟩ := Int.eq_ofNat_of_zero_le (show 0 ≤ min nbytes inode.length by omega)
  have hcopied := @executeRead_copied img buf k.fs j nbytes last m hm.symm (by omega)
  have hbuf : r.2.1 = Stream.splice (fileByte img inode) 0 (storedBytes 0 m) buf := hcopied.buf
  refine ⟨fun i hi => ?_, fun k' fd' fresh => ?_, rfl⟩
  · have hstored := le_storedBytes 0 m
    rw [hbuf, Stream.splice, if_pos (by omega), Nat.zero_add]
  · have hslot : k'.fds fd' = ⟨fileTable, (img.dentry j).inodeIdx, 0, 1⟩ := by
      rw [fresh.slot, openedSlot, if_neg (by omega), if_neg (by omega)]
    have hrange : ReadRange img (k'.fds fd') nbytes 0 m := by
      rw [hslot]
      refine ⟨rfl, hlo, hhi, ?_⟩
      show (m : Int) = min nbytes (inode.length - (0 : Nat))
      omega
    obtain ⟨-, hread, -⟩ := hrange.fileRead buf
    rw [hbuf, hread, hslot]

/-- A machine that has just looked up the first file. -/
def lookedUp : Kernel := { coldBoot with fs := { coldBoot.fs with lastDentry := some 0 } }

/-- The shell, which is shorter than the request. -/
theorem executeRead_agrees_shell :
    (∀ i : Nat, i < 28 →
        (executeReadCall shellImage 0 (fun _ => 0) 100 lookedUp).2.1 i =
          fileByte shellImage (shellImage.inode 0) i) ∧
      (executeReadCall shellImage 0 (fun _ => 0) 100 lookedUp).1 = lookedUp := by
  obtain ⟨hbytes, -, hsame⟩ := @executeRead_agrees shellImage shellImage_wellFormed 0 (by decide)
    rfl lookedUp rfl 0 (fun _ => 0) 100 (by decide)
  exact ⟨fun i hi => hbytes i (Int.ofNat_lt.mpr hi), hsame⟩

/-! ## Where the program is stored -/

/-- The addresses the loader stores to: from `START_ADDR + OFFSET` on. -/
def loadStores (img : FsImage) (k : Kernel) : List Nat :=
  (executeRead img (fun i => k.mem (k.mmu.userBase + 0x48000 + i)) 0x400000 k.fs).stores.map
    (0x08048000 + ·)

/-- The state in which `execute_handler` loads a program: its pid claimed, its name looked up,
its page mapped. -/
def loading (img : FsImage) (program : List UInt8) (pid : Int) (k : Kernel) : Kernel :=
  (readDentryByName img (cstr program) (k.setId pid 1)).1.setPage pid

/-- A file of whole blocks stores a byte more for each of its blocks, and any other too. -/
theorem storedBytes_le_page (length : Nat) :
    storedBytes 0 length ≤ 0x3B8000 ↔ length < 0x3B8000 := by
  unfold storedBytes
  omega

section Loading

variable {img : FsImage} {k : Kernel} {j : Nat}

/-- The loader's run: it stops at the end of the file. -/
theorem executeRead_whole (last : k.fs.lastDentry = some j) (buf : Buf) {length : Nat}
    (hlength : (img.inode (img.dentry j).inodeIdx).length = length) (small : length ≤ 1023 * 4096) :
    Copied img (img.inode (img.dentry j).inodeIdx) 0 buf (storedBytes 0 length)
      (executeRead img buf 0x400000 k.fs) :=
  executeRead_copied last (by omega) (by omega)

theorem loadStores_inside_iff (last : k.fs.lastDentry = some j) {length : Nat}
    (hlength : (img.inode (img.dentry j).inodeIdx).length = length)
    (small : length ≤ 1023 * 4096) :
    (∀ a ∈ loadStores img k, 0x08048000 ≤ a ∧ a < 0x08400000) ↔ length < 0x3B8000 := by
  have hcopied := executeRead_whole last (fun i => k.mem (k.mmu.userBase + 0x48000 + i)) hlength
    small
  unfold loadStores
  rw [hcopied.stores, ← storedBytes_le_page]
  constructor
  · intro h
    by_contra hpast
    have hlast := h (0x08048000 + 0x3B8000)
      (List.mem_map.mpr ⟨0x3B8000, List.mem_range.mpr (by omega), rfl⟩)
    omega
  · intro h a ha
    obtain ⟨i, hi, rfl⟩ := List.mem_map.mp ha
    have := List.mem_range.mp hi
    omega

/-- The program is loaded just when its stores stay in the page. -/
theorem loadProgram_isSome_iff (last : k.fs.lastDentry = some j) {length : Nat}
    (hlength : (img.inode (img.dentry j).inodeIdx).length = length)
    (small : length ≤ 1023 * 4096) : (loadProgram img k).isSome ↔ length < 0x3B8000 := by
  have hcopied := executeRead_whole last (fun i => k.mem (k.mmu.userBase + 0x48000 + i)) hlength
    small
  rw [← storedBytes_le_page]
  unfold loadProgram
  dsimp only
  rw [hcopied.bufIdx]
  split
  next hfits => exact iff_of_true rfl (by omega)
  next hfits => exact iff_of_false nofun (by omega)

end Loading

end Mp3Kernel
