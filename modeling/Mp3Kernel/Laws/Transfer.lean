import Mp3Kernel.Laws.DescriptorSteps
import Mp3Kernel.Lib.Stream

/-!
# The block-copy loop

A file is a stream of bytes, taken block by block through `data_add`. The copy loop walks
that stream without a gap (`Copied`), but it counts wrongly: leaving a block early it takes
`j` off the bytes left when it has copied `j + 1`. So it copies one byte too many for each
block end it passes, as far as the last block it visits allows (`copyRange_copied`), and a
read keeps to its bounds just when it ends before the block it starts in does.
-/

namespace Mp3Kernel

/-- The byte of a file at a position, through `data_add`. -/
def fileByte (img : FsImage) (inode : Inode) (pos : Nat) : UInt8 :=
  img.data (inode.dataAdd (pos / 4096)) (pos % 4096)

/-! ## One pass of the loop -/

/-- The loop has copied `n` bytes of the file from position `p` on, each from its own block. -/
structure Copied (img : FsImage) (inode : Inode) (p : Nat) (buf : Buf) (n : Nat) (t : Transfer) :
    Prop where
  buf : t.buf = Stream.splice (fileByte img inode) p n buf
  bufIdx : t.bufIdx = n
  curByte : t.curByte = (p + n) % 4096
  stores : t.stores = List.range n
  loads : t.loads = (List.range n).map fun idx => (p + idx) / 4096

section Loop

variable {img : FsImage} {inode : Inode} {p n : Nat} {buf : Buf} {t : Transfer}

/-- One more byte, short of the end of its block or up to it. -/
theorem Copied.copyByte (h : Copied img inode p buf n t) {i : Nat} (hi : (p + n) / 4096 = i) :
    let t' := t.copyByte (img.data (inode.dataAdd i)) i
    t'.buf = Stream.splice (fileByte img inode) p (n + 1) buf ∧ t'.bufIdx = n + 1 ∧
      t'.curByte = (p + n) % 4096 + 1 ∧ t'.stores = List.range (n + 1) ∧
      t'.loads = (List.range (n + 1)).map (fun idx => (p + idx) / 4096) ∧
      t'.totalBytes = t.totalBytes := by
  subst hi
  have hcur : (p + n) % 4096 < 4096 := Nat.mod_lt _ (by decide)
  refine ⟨?_, ?_, ?_, ?_, ?_, rfl⟩
  · simp only [Transfer.copyByte, h.buf, h.bufIdx, h.curByte, Stream.splice_succ, fileByte]
  · simp only [Transfer.copyByte, h.bufIdx]
  · have hu : (u32 ((t.curByte : Int) + 1) : Int) = (t.curByte : Int) + 1 :=
      u32_of_range (by omega) (by rw [h.curByte]; omega)
    simp only [Transfer.copyByte]
    rw [← h.curByte]
    omega
  · simp only [Transfer.copyByte, h.stores, h.bufIdx, List.range_succ]
  · simp only [Transfer.copyByte, h.loads, List.range_succ, List.map_append, List.map_cons,
      List.map_nil]

/-- The inner loop, with `fuel` turns left at turn `j`. It stops short of the block's end if
the turns run out first; otherwise it copies to the end, and takes one byte too few off the
bytes left. -/
theorem Copied.copyBlock {i fuel j n : Nat} {t : Transfer} (h : Copied img inode p buf n t)
    (hi : (p + n) / 4096 = i) :
    let t' := Transfer.copyBlock (img.data (inode.dataAdd i)) i fuel j t
    if fuel < 4096 - (p + n) % 4096 then
      Copied img inode p buf (n + fuel) t' ∧ t'.totalBytes = t.totalBytes
    else
      Copied img inode p buf (n + (4096 - (p + n) % 4096)) t' ∧
        t'.totalBytes = t.totalBytes - (j + (4096 - (p + n) % 4096) - 1 : Nat) := by
  have hcur : (p + n) % 4096 < 4096 := Nat.mod_lt _ (by decide)
  induction fuel generalizing j n t with
  | zero =>
    dsimp only
    rw [if_pos (by omega)]
    exact ⟨h, rfl⟩
  | succ fuel ih =>
    obtain ⟨hbuf, hidx, hbyte, hstores, hloads, htotal⟩ := h.copyByte hi
    dsimp only
    unfold Transfer.copyBlock
    dsimp only
    by_cases hend : (p + n) % 4096 + 1 = 4096
    · -- the block ends here
      rw [if_neg (by omega), if_pos (by rw [hbyte]; exact hend)]
      have hone : 4096 - (p + n) % 4096 = 1 := by omega
      rw [hone]
      refine ⟨⟨hbuf, hidx, ?_, hstores, hloads⟩, ?_⟩
      · have : (p + (n + 1)) % 4096 = 0 := by omega
        exact this.symm
      · rw [htotal]
        simp
    · have hnext : Copied img inode p buf (n + 1) (t.copyByte (img.data (inode.dataAdd i)) i) := by
        refine ⟨hbuf, hidx, ?_, hstores, hloads⟩
        rw [hbyte]
        omega
      have hrest := ih (j := j + 1) hnext (by omega) (by omega)
      have hleft : 4096 - (p + (n + 1)) % 4096 = 4096 - (p + n) % 4096 - 1 := by omega
      dsimp only at hrest
      rw [hleft, htotal] at hrest
      by_cases hfuel : fuel + 1 < 4096 - (p + n) % 4096
      · have hn : n + 1 + fuel = n + (fuel + 1) := by omega
        rw [if_pos (by omega), hn] at hrest
        rw [if_pos hfuel, if_neg (by rw [hbyte]; exact hend)]
        exact hrest
      · have hn : n + 1 + (4096 - (p + n) % 4096 - 1) = n + (4096 - (p + n) % 4096) := by omega
        have hj : j + 1 + (4096 - (p + n) % 4096 - 1) - 1 = j + (4096 - (p + n) % 4096) - 1 := by
          omega
        rw [if_neg (by omega), hn, hj] at hrest
        rw [if_neg hfuel, if_neg (by rw [hbyte]; exact hend)]
        exact hrest

/-! ## The whole loop -/

/-- The bytes the loop stores for a request of `m` at position `p`: one more than asked for
each block end it passes, up to the end of the last block it visits. -/
def storedBytes (p m : Nat) : Nat :=
  min (m + ((p + m) / 4096 - p / 4096)) (((p + m) / 4096 + 1) * 4096 - p)

/-- The outer loop from block `i`, in which byte `p + n` lies. Each block already passed has
left one byte too many to go. -/
theorem Copied.copyBlocks {m turns i n : Nat} {t : Transfer} (h : Copied img inode p buf n t)
    (hi : (p + n) / 4096 = i) (hlast : i + turns = (p + m) / 4096) (hn : n ≤ m)
    (htotal : t.totalBytes = (m - n + (i - p / 4096) : Nat)) :
    Copied img inode p buf (storedBytes p m) (Transfer.copyBlocks img inode (turns + 1) i t) := by
  induction turns generalizing i n t with
  | zero =>
    have hblock := @copyBlock img inode p buf i t.totalBytes.toNat 0 n t h hi
    have hfuel : t.totalBytes.toNat = m - n + (i - p / 4096) := by omega
    show Copied img inode p buf (storedBytes p m)
      (Transfer.copyBlock (img.data (inode.dataAdd i)) i t.totalBytes.toNat 0 t)
    dsimp only at hblock
    rw [hfuel] at hblock ⊢
    by_cases hshort : m - n + (i - p / 4096) < 4096 - (p + n) % 4096
    · have hstored : storedBytes p m = n + (m - n + (i - p / 4096)) := by
        unfold storedBytes
        omega
      rw [if_pos hshort] at hblock
      rw [hstored]
      exact hblock.1
    · have hstored : storedBytes p m = n + (4096 - (p + n) % 4096) := by
        unfold storedBytes
        omega
      rw [if_neg hshort] at hblock
      rw [hstored]
      exact hblock.1
  | succ turns ih =>
    have hblock := @copyBlock img inode p buf i t.totalBytes.toNat 0 n t h hi
    dsimp only at hblock
    -- the request goes past this block
    rw [if_neg (by omega)] at hblock
    obtain ⟨hcopied, hleft⟩ := hblock
    exact ih hcopied (i := i + 1) (by omega) (by omega) (by omega) (by rw [hleft, htotal]; omega)

/-- The block numbers of a range no `int32_t` overflows in. -/
theorem blockRange {p m : Nat} (range : p + m < 2147483648) :
    u32 ((p : Int).tdiv 4096) = p / 4096 ∧
      u32 ((i32 ((p : Int) + m)).tdiv 4096) = (p + m) / 4096 ∧
      u32 ((((p + m) / 4096 : Nat) : Int) + 1) - p / 4096 = (p + m) / 4096 - p / 4096 + 1 := by
  have hsum : i32 ((p : Int) + m) = ((p + m : Nat) : Int) := by
    rw [← Int.natCast_add]
    exact i32_natCast range
  refine ⟨?_, ?_, ?_⟩
  · show u32 ((p / 4096 : Nat) : Int) = p / 4096
    exact u32_natCast (by omega)
  · rw [hsum]
    show u32 (((p + m) / 4096 : Nat) : Int) = (p + m) / 4096
    exact u32_natCast (by omega)
  · have hnext : u32 ((((p + m) / 4096 : Nat) : Int) + 1) = (p + m) / 4096 + 1 :=
      u32_natCast (n := (p + m) / 4096 + 1) (by omega)
    omega

/-- `read_data` and `read_data_execute`, on such a range. -/
theorem copyRange_copied (img : FsImage) (inode : Inode) (p m : Nat) (buf : Buf)
    (range : p + m < 2147483648) :
    Copied img inode p buf (storedBytes p m) (copyRange img inode p m buf) := by
  obtain ⟨hbegin, hend, hturns⟩ := blockRange range
  have hbyte : u32 ((p : Int).tmod 4096) = p % 4096 := by
    show u32 ((p % 4096 : Nat) : Int) = p % 4096
    exact u32_natCast (by omega)
  unfold copyRange
  dsimp only
  rw [hbegin, hend, hbyte, hturns]
  refine Copied.copyBlocks (n := 0) ⟨?_, rfl, rfl, rfl, rfl⟩ rfl (by omega) (by omega) ?_
  · exact (Stream.splice_zero _ _ _).symm
  · dsimp only
    omega

end Loop

/-- A request that ends before its first block does is stored as asked. -/
theorem storedBytes_eq {p m : Nat} (h : p % 4096 + m < 4096) : storedBytes p m = m := by
  unfold storedBytes
  omega

/-- Any other is stored with at least one byte too many. -/
theorem lt_storedBytes {p m : Nat} (h : ¬ p % 4096 + m < 4096) : m < storedBytes p m := by
  unfold storedBytes
  omega

theorem le_storedBytes (p m : Nat) : m ≤ storedBytes p m := by
  unfold storedBytes
  omega

/-! ## `file_read` -/

/-- An image whose regular files fit their inodes and whose blocks are in the image. -/
structure FsImage.WellFormed (img : FsImage) : Prop where
  length : ∀ j < img.boot.numEntry, (img.dentry j).type = 2 →
    0 ≤ (img.inode (img.dentry j).inodeIdx).length ∧
      (img.inode (img.dentry j).inodeIdx).length ≤ 1023 * 4096
  blocks : ∀ j < img.boot.numEntry, (img.dentry j).type = 2 →
    ∀ i : Nat, (i : Int) < ((img.inode (img.dentry j).inodeIdx).length + 4095) / 4096 →
      (img.inode (img.dentry j).inodeIdx).dataAdd i < img.boot.numDatablock

/-- The inode of a regular file. -/
def FsImage.Regular (img : FsImage) (inodeIdx : Nat) : Prop :=
  ∃ j < img.boot.numEntry, (img.dentry j).type = 2 ∧ (img.dentry j).inodeIdx = inodeIdx

theorem FsImage.WellFormed.length_range {img : FsImage} (wf : img.WellFormed) {x : Nat}
    (h : img.Regular x) : 0 ≤ (img.inode x).length ∧ (img.inode x).length ≤ 1023 * 4096 := by
  obtain ⟨j, hj, htype, rfl⟩ := h
  exact wf.length j hj htype

section FileRead

variable {img : FsImage} {k : Kernel} {fd nbytes : Int} {buf : Buf} {p m : Nat}

/-- What is in range of a regular file: a position, and a request clipped to what is left. -/
structure ReadRange (img : FsImage) (slot : FileD) (nbytes : Int) (p m : Nat) : Prop where
  position : slot.filePosition = p
  le : (p : Int) ≤ (img.inode slot.inode).length
  small : (img.inode slot.inode).length ≤ 1023 * 4096
  clipped : (m : Int) = min nbytes ((img.inode slot.inode).length - p)

theorem ReadRange.byteLeft_eq {slot : FileD} (h : ReadRange img slot nbytes p m) :
    i32 slot.filePosition = p ∧ byteLeft (img.inode slot.inode) p nbytes = m := by
  obtain ⟨hposition, hle, hsmall, hclipped⟩ := h
  have hleft : i32 ((img.inode slot.inode).length - p) = (img.inode slot.inode).length - p :=
    i32_of_range (by omega) (by omega)
  refine ⟨?_, ?_⟩
  · rw [hposition]
    exact i32_natCast (by omega)
  · unfold byteLeft
    rw [hleft]
    split <;> omega

theorem ReadRange.copied {slot : FileD} (h : ReadRange img slot nbytes p m) :
    Copied img (img.inode slot.inode) p buf (storedBytes p m)
      (fileReadTransfer img slot buf nbytes) := by
  obtain ⟨hstart, hcount⟩ := h.byteLeft_eq
  obtain ⟨_, hle, hsmall, hclipped⟩ := h
  unfold fileReadTransfer
  dsimp only
  rw [hstart, hcount]
  exact copyRange_copied img _ p m buf (by omega)

theorem readData_snd (img : FsImage) (inode : Inode) (buf : Buf) (n start : Int) (v : FsVars) :
    (readData img inode buf n { v with lastRead := start }).2 =
      copyRange img inode start n buf := by
  unfold readData
  dsimp only

/-- The buffer and the count `file_read` gives back. -/
theorem fileRead_eq (img : FsImage) (fd : Int) (buf : Buf) (nbytes : Int) (k : Kernel) :
    ∃ k', fileRead img fd buf nbytes k =
      (k', (fileReadTransfer img (k.fds fd) buf nbytes).buf,
        byteLeft (img.inode (k.fds fd).inode) (i32 (k.fds fd).filePosition) nbytes) := by
  have htransfer : (readData img (img.inode (k.fds fd).inode) buf
      (byteLeft (img.inode (k.fds fd).inode) (i32 (k.fds fd).filePosition) nbytes)
      { k.fs with lastRead := i32 (k.fds fd).filePosition }).2 =
        fileReadTransfer img (k.fds fd) buf nbytes := readData_snd _ _ _ _ _ _
  rw [← htransfer]
  exact ⟨_, rfl⟩

theorem fileRead_parts (img : FsImage) (fd : Int) (buf : Buf) (nbytes : Int) (k : Kernel) :
    (fileRead img fd buf nbytes k).2.1 = (fileReadTransfer img (k.fds fd) buf nbytes).buf ∧
      (fileRead img fd buf nbytes k).2.2 =
        byteLeft (img.inode (k.fds fd).inode) (i32 (k.fds fd).filePosition) nbytes := by
  have parts : ∀ {r : Kernel × Buf × Int} {a : Kernel} {b : Buf} {c : Int}, r = (a, b, c) →
      r.2.1 = b ∧ r.2.2 = c := by
    rintro _ a b c rfl
    exact ⟨rfl, rfl⟩
  obtain ⟨k', hread⟩ := fileRead_eq img fd buf nbytes k
  exact parts hread

/-- A read of a regular file: the count, the buffer, and the slot it leaves. -/
theorem ReadRange.fileRead (h : ReadRange img (k.fds fd) nbytes p m) (buf : Buf) :
    (fileRead img fd buf nbytes k).2.2 = m ∧
      (fileRead img fd buf nbytes k).2.1 =
        Stream.splice (fileByte img (img.inode (k.fds fd).inode)) p (storedBytes p m) buf ∧
      (fileRead img fd buf nbytes k).1.fds =
        Function.update k.fds fd { k.fds fd with filePosition := p + m } := by
  obtain ⟨hstart, hcount⟩ := h.byteLeft_eq
  have hcopied := @copied img nbytes buf p m _ h
  obtain ⟨hbuf, hresult⟩ := fileRead_parts img fd buf nbytes k
  refine ⟨?_, ?_, ?_⟩
  · rw [hresult, hstart, hcount]
  · rw [hbuf]
    exact hcopied.buf
  · have hend : u32 (i32 ((p : Int) + m)) = p + m := by
      obtain ⟨_, hle, hsmall, hclipped⟩ := h
      rw [← Int.natCast_add, i32_natCast (by omega), u32_natCast (by omega)]
    rw [fds_of_withFds (fileRead_proc fd buf nbytes k)]
    unfold Kernel.fds at hstart hcount ⊢
    rw [hstart, hcount, hend]

end FileRead

theorem byte_ne_succ (b : UInt8) : b ≠ b + 1 := by
  intro h
  have hnat := congrArg UInt8.toNat h
  rw [UInt8.toNat_add] at hnat
  have hlt := b.toNat_lt
  have hone : (1 : UInt8).toNat = 1 := rfl
  omega

/-- A read of a regular file at a position within it, for `m` bytes after clipping: for every
buffer, it changes nothing from index `m` on and takes every byte from a block of the file,
just when it ends before the block it starts in does. -/
theorem fileRead_bounded_iff {img : FsImage} (wf : img.WellFormed) (k : Kernel) (fd : Int)
    (regular : img.Regular (k.fds fd).inode)
    (position : ((k.fds fd).filePosition : Int) ≤ (img.inode (k.fds fd).inode).length)
    {nbytes : Int} (nonneg : 0 ≤ nbytes) :
    let slot := k.fds fd
    let length := (img.inode slot.inode).length
    let m := min nbytes (length - slot.filePosition)
    ((∀ buf n, m ≤ (n : Nat) → (fileRead img fd buf nbytes k).2.1 n = buf n) ∧
        ∀ buf, ∀ i ∈ (fileReadTransfer img slot buf nbytes).loads,
          (i : Int) < (length + 4095) / 4096) ↔
      (slot.filePosition : Int) % 4096 + m < 4096 := by
  intro slot length m
  obtain ⟨_, hsmall⟩ : 0 ≤ length ∧ length ≤ 1023 * 4096 := wf.length_range regular
  have hle : (slot.filePosition : Int) ≤ length := position
  obtain ⟨count, hcount⟩ : ∃ count : Nat, (count : Int) = m := ⟨m.toNat, by omega⟩
  have hrange : ReadRange img slot nbytes slot.filePosition count :=
    ⟨rfl, hle, hsmall, hcount⟩
  constructor
  · rintro ⟨hbuf, _⟩
    by_contra hpast
    have hextra : count < storedBytes slot.filePosition count := lt_storedBytes (by omega)
    -- a buffer that differs from the byte stored past the end shows the store
    let buf : Buf := fun _ =>
      fileByte img (img.inode slot.inode) (slot.filePosition + count) + 1
    have hkept := hbuf buf count (by omega)
    obtain ⟨_, hspliced, _⟩ := hrange.fileRead buf
    rw [hspliced, Stream.splice, if_pos hextra] at hkept
    exact absurd hkept (byte_ne_succ _)
  · intro hwithin
    have hstored : storedBytes slot.filePosition count = count := storedBytes_eq (by omega)
    refine ⟨fun buf n hn => ?_, fun buf i hi => ?_⟩
    · obtain ⟨_, hspliced, _⟩ := hrange.fileRead buf
      rw [hspliced, hstored]
      exact if_neg (by omega)
    · have hcopied := @ReadRange.copied img nbytes buf _ _ _ hrange
      rw [hcopied.loads, hstored] at hi
      obtain ⟨idx, hidx, rfl⟩ := List.mem_map.mp hi
      have hlt := List.mem_range.mp hidx
      omega

/-- An image with one regular file of ones, its blocks in order. -/
def onesImage (length : Int) : FsImage where
  boot := ⟨1, 1, 2⟩
  dentry := fun _ => ⟨cstr (bytes "ones"), 2, 0⟩
  inode := fun _ => ⟨length, fun i => i⟩
  data := fun _ _ => 1

theorem onesImage_wellFormed {length : Int} (lo : 0 ≤ length) (hi : length ≤ 8192) :
    (onesImage length).WellFormed where
  length := fun _ _ _ => ⟨lo, by show length ≤ 1023 * 4096; omega⟩
  blocks := fun j hj _ i hi' => by
    have hlength : (i : Int) < (length + 4095) / 4096 := hi'
    show i < 2
    omega

/-- A machine with descriptor 2 open on the first inode. -/
def openedAt (position : Nat) : Kernel :=
  coldBoot.modifyFd 2 fun _ => ⟨fileTable, 0, position, 1⟩

/-- Ten bytes from the start of a block. -/
theorem fileRead_bounded_start :
    (∀ buf n, (10 : Int) ≤ (n : Nat) →
        (fileRead (onesImage 5000) 2 buf 10 (openedAt 0)).2.1 n = buf n) ∧
      ∀ buf, ∀ i ∈ (fileReadTransfer (onesImage 5000) ((openedAt 0).fds 2) buf 10).loads,
        (i : Int) < (5000 + 4095) / 4096 :=
  (@fileRead_bounded_iff (onesImage 5000) (onesImage_wellFormed (by decide) (by decide))
    (openedAt 0) 2 ⟨0, by decide, rfl, rfl⟩ (by decide) 10 (by decide)).mpr (by decide)

/-- One byte, the last of its block: the byte after it in the buffer is overwritten too. And
at the end of a file of whole blocks, that byte is taken from a block past the file's last. -/
theorem fileRead_overruns :
    ((onesImage 5000).WellFormed ∧ (onesImage 5000).Regular ((openedAt 4095).fds 2).inode ∧
        min 1 (5000 - (((openedAt 4095).fds 2).filePosition : Int)) = 1 ∧
        (fileRead (onesImage 5000) 2 (fun _ => 0) 1 (openedAt 4095)).2.1 1 ≠ 0) ∧
      (onesImage 4096).WellFormed ∧
        1 ∈ (fileReadTransfer (onesImage 4096) ((openedAt 4095).fds 2) (fun _ => 0) 1).loads ∧
        ¬ ((1 : Nat) : Int) < (4096 + 4095) / 4096 :=
  ⟨⟨onesImage_wellFormed (by decide) (by decide), ⟨0, by decide, rfl, rfl⟩, by decide, by decide⟩,
    onesImage_wellFormed (by decide) (by decide), by decide, by decide⟩

end Mp3Kernel
