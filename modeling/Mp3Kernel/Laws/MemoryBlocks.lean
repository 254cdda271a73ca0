import Mp3Kernel.Kernel.MemoryBlocks

/-!
# Block moves

A text of the shape of `memset` and `memcpy` does the work its byte instructions do, byte by
byte, whatever the alignment: it is enough that the byte instructions carry the work on by one
byte, that the string instruction carries it on by four, and that neither disturbs the counts.
The work itself is what memory holds when so many bytes are done.
-/

namespace Mp3Kernel

open X86

/-! ## The text -/

/-- Work in bytes, that a text's instructions carry on: `At i c` says that `i` of the `n` bytes
are done in the state `c`. It may speak of the memory and of the registers but the two
counters. -/
structure BlockWork (byte : List Op) (string : Cpu → Cpu) (n : Nat) (At : Nat → Cpu → Prop) :
    Prop where
  congr : ∀ {i c c'}, At i c → c'.mem = c.mem →
    (∀ r, r ≠ .ecx → r ≠ .edx → c'.reg r = c.reg r) → At i c'
  oneByte : ∀ {i c}, At i c → i < n → At (i + 1) (byte.foldl exec c)
  oneWord : ∀ {i c}, At i c → i + 4 ≤ n → c.flag df = false → At (i + 4) (string c)
  byteKeeps : ∀ c, (byte.foldl exec c).reg .ecx = c.reg .ecx ∧
    (byte.foldl exec c).reg .edx = c.reg .edx
  wordKeeps : ∀ c, (string c).reg .edx = c.reg .edx ∧ (string c).flag df = c.flag df

section Text

variable {byte : List Op} {op : Op} {string : Cpu → Cpu} {n : Nat} {At : Nat → Cpu → Prop}

/-- A machine at the end of its text, with all the work done. -/
def WorkDone (n : Nat) (At : Nat → Cpu → Prop) (t : Config BlockLabel Empty) : Prop :=
  t.code = [] ∧ At n t.cpu

/-- A state at a label, with so many bytes to go, which a counter says. -/
structure ToGo (byte : List Op) (op : Op) (n : Nat) (At : Nat → Cpu → Prop) (label : BlockLabel)
    (counter : Reg) (k : Nat) (s : Config BlockLabel Empty) : Prop where
  code : s.code = codeAt (blockText byte op) label
  counter : (s.cpu.reg counter).toNat = k
  le : k ≤ n
  work : At (n - k) s.cpu

/-- Counting down by one. -/
theorem subl_one_toNat {c : Cpu} {r : Reg} {k : Nat} (count : (c.reg r).toNat = k + 1) :
    ((exec c (.subl (.imm 1) r)).reg r).toNat = k := by
  have hreg : (exec c (.subl (.imm 1) r)).reg r = c.reg r - 1 := c.set_self r _
  have hone : (1 : Word).toNat = 1 := rfl
  rw [hreg, BitVec.toNat_sub]
  omega

/-- A byte moved on at a loop's counter. -/
theorem BlockWork.turn (W : BlockWork byte string n At) {c : Cpu} {r : Reg} {k : Nat}
    (hr : r = .ecx ∨ r = .edx) (count : (c.reg r).toNat = k + 1) (le : k + 1 ≤ n)
    (work : At (n - (k + 1)) c) :
    (((byte ++ [Op.subl (.imm 1) r]).foldl exec c).reg r).toNat = k ∧
      At (n - k) ((byte ++ [Op.subl (.imm 1) r]).foldl exec c) := by
  rw [List.foldl_append]
  have hcount : ((byte.foldl exec c).reg r).toNat = k + 1 := by
    obtain ⟨hecx, hedx⟩ := W.byteKeeps c
    rcases hr with rfl | rfl
    · rw [hecx, count]
    · rw [hedx, count]
  refine ⟨subl_one_toNat hcount, ?_⟩
  have hdone := W.oneByte work (by omega)
  have hsucc : n - (k + 1) + 1 = n - k := by omega
  rw [hsucc] at hdone
  refine W.congr hdone rfl fun r' hecx hedx => ?_
  refine Cpu.set_of_ne _ _ ?_
  rcases hr with rfl | rfl
  · exact hecx
  · exact hedx

/-- The string instruction, repeated: it carries the work on by its words. -/
theorem BlockWork.iterate (W : BlockWork byte string n At) {i : Nat} {c : Cpu} (work : At i c)
    (forward : c.flag df = false) (j : Nat) (room : i + 4 * j ≤ n) :
    At (i + 4 * j) (string^[j] c) ∧ (string^[j] c).reg .edx = c.reg .edx ∧
      (string^[j] c).flag df = false := by
  induction j with
  | zero => exact ⟨work, rfl, forward⟩
  | succ j ih =>
    obtain ⟨hwork, hedx, hforward⟩ := ih (by omega)
    obtain ⟨hedx', hforward'⟩ := W.wordKeeps (string^[j] c)
    rw [Function.iterate_succ_apply']
    exact ⟨W.oneWord hwork (by omega) hforward, hedx'.trans hedx, hforward'.trans hforward⟩

/-- `testl` of a counter with itself says whether it has come to zero. -/
theorem testl_self (c : Cpu) (r : Reg) :
    (exec c (.testl (.reg r) r)).meets .z = decide ((c.reg r).toNat = 0) := by
  rw [testl_z, Bool.eq_iff_iff, beq_iff_eq, decide_eq_true_eq, ← BitVec.toNat_inj]
  show (c.reg r &&& c.reg r).toNat = 0 ↔ _
  rw [BitVec.and_self]

/-- The test of a counter at the head of a loop. -/
theorem ToGo.tested (W : BlockWork byte string n At) {label : BlockLabel} {r : Reg} {k : Nat}
    {s : Config BlockLabel Empty} (G : ToGo byte op n At label r k s) :
    At (n - k) (exec s.cpu (.testl (.reg r) r)) ∧
      (exec s.cpu (.testl (.reg r) r)).meets .z = decide (k = 0) := by
  refine ⟨W.congr G.work rfl fun _ _ _ => rfl, ?_⟩
  rw [← G.counter]
  exact testl_self s.cpu r

/-- What comes before the string instruction. -/
def splitsCount : List Op :=
  [.movwOf .ds .edx, .movwTo .edx .es, .movl (.reg .ecx) .edx, .shrl 2 .ecx, .andl (.imm 3) .edx,
    .cld]

section Split

variable (c : Cpu)

theorem splitsCount_reg {r : Reg} (hecx : r ≠ .ecx) (hedx : r ≠ .edx) :
    (splitsCount.foldl exec c).reg r = c.reg r := by
  simp [splitsCount, exec, Function.update_of_ne, hecx, hedx]

theorem splitsCount_ecx :
    ((splitsCount.foldl exec c).reg .ecx).toNat = (c.reg .ecx).toNat / 4 := by
  have hecx : (splitsCount.foldl exec c).reg .ecx = c.reg .ecx >>> 2 := by
    simp [splitsCount, exec, Function.update]
  rw [hecx, BitVec.toNat_ushiftRight, Nat.shiftRight_eq_div_pow]

theorem splitsCount_edx :
    ((splitsCount.foldl exec c).reg .edx).toNat = (c.reg .ecx).toNat % 4 := by
  have hedx : (splitsCount.foldl exec c).reg .edx = c.reg .ecx &&& 3 := by
    simp [splitsCount, exec, Function.update, Cpu.value]
  rw [hedx, BitVec.toNat_and]
  exact Nat.and_two_pow_sub_one_eq_mod _ 2

theorem splitsCount_df : (splitsCount.foldl exec c).flag df = false := by
  have hcld : ∀ c : Cpu, (exec c .cld).flag df = false := fun c =>
    getLsbD_setFlag df df (by decide) false c.eflags
  exact hcld _

end Split

theorem blockText_bottom :
    codeAt (blockText byte op) .bottom =
      [.ops [.testl (.reg .edx) .edx], .jcc .z .done, .ops (byte ++ [.subl (.imm 1) .edx]),
        .jmp .bottom] := rfl

theorem blockText_aligned :
    codeAt (blockText byte op) .aligned =
      .ops (splitsCount ++ [op]) :: codeAt (blockText byte op) .bottom := rfl

theorem blockText_top :
    codeAt (blockText byte op) .top =
      .ops [.testl (.reg .ecx) .ecx] :: .jcc .z .done :: .ops [.testl (.imm 3) .edi] ::
        .jcc .z .aligned :: .ops (byte ++ [.subl (.imm 1) .ecx]) :: .jmp .top ::
        codeAt (blockText byte op) .aligned := rfl

/-- The bytes left over, moved one by one. -/
theorem ToGo.bottom (W : BlockWork byte string n At) {k : Nat} {s : Config BlockLabel Empty}
    (G : ToGo byte op n At .bottom .edx k s) :
    ∃ t, Reaches (blockEnv (blockText byte op)) s t ∧ WorkDone n At t := by
  have hturn : ∀ k s, ToGo byte op n At .bottom .edx k s →
      (∃ t, Reaches (blockEnv (blockText byte op)) s t ∧ WorkDone n At t) ∨
        ∃ m < k, ∃ t, Reaches (blockEnv (blockText byte op)) s t ∧
          ToGo byte op n At .bottom .edx m t := by
    intro k s G
    obtain ⟨htested, hz⟩ := G.tested W
    obtain ⟨c, code, calls⟩ := s
    obtain ⟨hcode, hcounter, hle, -⟩ := G
    dsimp only at hcode hcounter htested hz
    let tested := exec c (.testl (.reg .edx) .edx)
    rw [hcode, blockText_bottom]
    cases k with
    | zero => exact .inl ⟨⟨tested, [], calls⟩, (Reaches.refl.taken hz).ops, rfl, htested⟩
    | succ k =>
      have hleft : (tested.reg .edx).toNat = k + 1 := hcounter
      obtain ⟨hcount, hdone⟩ := W.turn (.inr rfl) hleft hle htested
      exact .inr ⟨k, Nat.lt_succ_self k, ⟨_, codeAt (blockText byte op) .bottom, calls⟩,
        (Reaches.refl.jmp.ops.passed hz).ops, rfl, hcount, by omega, hdone⟩
  exact Reaches.loop hturn G

/-- The double words, and then the bytes left over. -/
theorem ToGo.aligned (W : BlockWork byte string n At) (repeats : ∀ c, exec c op = c.rep string)
    {k : Nat} {s : Config BlockLabel Empty} (G : ToGo byte op n At .aligned .ecx k s) :
    ∃ t, Reaches (blockEnv (blockText byte op)) s t ∧ WorkDone n At t := by
  obtain ⟨c, code, calls⟩ := s
  obtain ⟨hcode, hcounter, hle, hwork⟩ := G
  dsimp only at hcode hcounter hwork
  let counted := splitsCount.foldl exec c
  have hcounted : At (n - k) counted :=
    W.congr hwork rfl fun r hecx hedx => splitsCount_reg c hecx hedx
  have hecx : (counted.reg .ecx).toNat = k / 4 := by
    rw [← hcounter]
    exact splitsCount_ecx c
  have hedx : (counted.reg .edx).toNat = k % 4 := by
    rw [← hcounter]
    exact splitsCount_edx c
  obtain ⟨hdone, hkept, -⟩ := W.iterate hcounted (splitsCount_df c) (k / 4) (by omega)
  have hleft : n - k + 4 * (k / 4) = n - k % 4 := by omega
  rw [hleft] at hdone
  let moved := counted.rep string
  have hrep : moved = (string^[k / 4] counted).set .ecx 0 := by
    show (string^[(counted.reg .ecx).toNat] counted).set .ecx 0 = _
    rw [hecx]
  have hmoved : ToGo byte op n At .bottom .edx (k % 4)
      ⟨moved, codeAt (blockText byte op) .bottom, calls⟩ := by
    refine ⟨rfl, ?_, by omega, ?_⟩
    · show (moved.reg .edx).toNat = k % 4
      rw [hrep, Cpu.set_of_ne _ _ (by decide), hkept, hedx]
    · show At _ moved
      rw [hrep]
      exact W.congr hdone rfl fun r hecx _ => Cpu.set_of_ne _ _ hecx
  obtain ⟨t, hrest, ht⟩ := hmoved.bottom W
  refine ⟨t, ?_, ht⟩
  rw [hcode, blockText_aligned]
  apply Reaches.ops
  rw [List.foldl_append, List.foldl_cons, List.foldl_nil, repeats]
  exact hrest

/-- The bytes up to an aligned destination, and then the rest. -/
theorem ToGo.top (W : BlockWork byte string n At) (repeats : ∀ c, exec c op = c.rep string)
    {k : Nat} {s : Config BlockLabel Empty} (G : ToGo byte op n At .top .ecx k s) :
    ∃ t, Reaches (blockEnv (blockText byte op)) s t ∧ WorkDone n At t := by
  have hturn : ∀ k s, ToGo byte op n At .top .ecx k s →
      (∃ t, Reaches (blockEnv (blockText byte op)) s t ∧ WorkDone n At t) ∨
        ∃ m < k, ∃ t, Reaches (blockEnv (blockText byte op)) s t ∧
          ToGo byte op n At .top .ecx m t := by
    intro k s G
    obtain ⟨htested, hz⟩ := G.tested W
    obtain ⟨c, code, calls⟩ := s
    obtain ⟨hcode, hcounter, hle, -⟩ := G
    dsimp only at hcode hcounter htested hz
    let tested := exec c (.testl (.reg .ecx) .ecx)
    let probed := exec tested (.testl (.imm 3) .edi)
    have hprobed : At (n - k) probed := W.congr htested rfl fun _ _ _ => rfl
    have hleft : (probed.reg .ecx).toNat = k := hcounter
    rw [hcode, blockText_top]
    cases k with
    | zero => exact .inl ⟨⟨tested, [], calls⟩, (Reaches.refl.taken hz).ops, rfl, htested⟩
    | succ k =>
      cases haligned : probed.meets .z with
      | true =>
        have hnext : ToGo byte op n At .aligned .ecx (k + 1)
            ⟨probed, codeAt (blockText byte op) .aligned, calls⟩ := ⟨rfl, hleft, hle, hprobed⟩
        obtain ⟨t, hrest, ht⟩ := hnext.aligned W repeats
        exact .inl ⟨t, ((hrest.taken haligned).ops.passed hz).ops, ht⟩
      | false =>
        obtain ⟨hcount, hdone⟩ := W.turn (.inl rfl) hleft hle hprobed
        exact .inr ⟨k, Nat.lt_succ_self k, ⟨_, codeAt (blockText byte op) .top, calls⟩,
          ((Reaches.refl.jmp.ops.passed haligned).ops.passed hz).ops, rfl, hcount, by omega,
          hdone⟩
  exact Reaches.loop hturn G

/-- A text run from its beginning, with the byte count in `ecx`, ends with the work done. -/
theorem BlockWork.run (W : BlockWork byte string n At) (repeats : ∀ c, exec c op = c.rep string)
    {c : Cpu} (count : (c.reg .ecx).toNat = n) (start : At 0 c) :
    ∃ t, Reaches (blockEnv (blockText byte op)) ⟨c, codeAt (blockText byte op) .top, []⟩ t ∧
      WorkDone n At t := by
  have hstart : ToGo byte op n At .top .ecx n ⟨c, codeAt (blockText byte op) .top, []⟩ := by
    refine ⟨rfl, count, le_refl n, ?_⟩
    rw [Nat.sub_self]
    exact start
  exact hstart.top W repeats

end Text

/-! ## `memset` -/

/-- So many bytes of a range are filled with the bytes of a word. -/
structure MemsetAt (m : Memory) (s w : Word) (i : Nat) (c : Cpu) : Prop where
  mem : c.mem = overlay m s i fun _ => byteOf w 0
  edi : c.reg .edi = s + BitVec.ofNat 32 i
  eax : c.reg .eax = w

/-- A pointer moved on by a byte. -/
theorem addl_one_reg {c : Cpu} {r : Reg} {a : Word} {i : Nat}
    (pointer : c.reg r = a + BitVec.ofNat 32 i) :
    (exec c (.addl (.imm 1) r)).reg r = a + BitVec.ofNat 32 (i + 1) := by
  rw [addl_reg, Cpu.set_self]
  show c.reg r + 1 = _
  rw [pointer]
  exact offset_add a i 1

/-- A pointer moved on by a string instruction. -/
theorem stride_reg {c : Cpu} {r : Reg} {a : Word} {i : Nat}
    (pointer : c.reg r = a + BitVec.ofNat 32 i) (forward : c.flag df = false) :
    c.reg r + c.stride = a + BitVec.ofNat 32 (i + 4) := by
  rw [pointer, c.stride_forward forward]
  exact offset_add a i 4

theorem lowByte_getLsbD (c : Word) (i : Nat) :
    (c &&& 0xFF).getLsbD i = (c.getLsbD i && decide (i < 8)) := by
  have hmask : (0xFF : Word) = BitVec.setWidth 32 (BitVec.allOnes 8) := by decide
  rw [BitVec.getLsbD_and, hmask, BitVec.getLsbD_setWidth, BitVec.getLsbD_allOnes]
  by_cases h : i < 8
  · have hword : i < 32 := by omega
    simp [h, hword]
  · simp [h]

/-- Every byte of the word `memset` fills with is the low byte of its argument. -/
theorem byteOf_memsetWord (c : Word) {j : Nat} (hj : j < 4) :
    byteOf (memsetWord c) j = byteOf c 0 := by
  apply BitVec.eq_of_getLsbD_eq
  intro i hi
  unfold byteOf memsetWord
  simp only [BitVec.getLsbD_extractLsb', BitVec.getLsbD_or, BitVec.getLsbD_shiftLeft,
    lowByte_getLsbD]
  interval_cases j <;> grind

section Memset

variable {m : Memory} {s w : Word} {n : Nat}

/-- Storing a byte and moving on. -/
theorem MemsetAt.blockWork (splat : ∀ j < 4, byteOf w j = byteOf w 0) (small : n ≤ 4294967296) :
    BlockWork [.movbTo .eax .edi, .addl (.imm 1) .edi] Cpu.stosl n (MemsetAt m s w) where
  congr := by
    intro i c c' F mem reg
    exact ⟨mem.trans F.mem, (reg .edi (by decide) (by decide)).trans F.edi,
      (reg .eax (by decide) (by decide)).trans F.eax⟩
  oneByte := by
    intro i c F hi
    let stored := exec c (.movbTo .eax .edi)
    have hmem : stored.mem = overlay m s (i + 1) fun _ => byteOf w 0 := by
      show store8 c.mem (c.reg .edi) (byteOf (c.reg .eax) 0) = _
      rw [F.mem, F.edi, F.eax]
      exact store8_overlay (by omega)
    have hedi : (exec stored (.addl (.imm 1) .edi)).reg .edi = s + BitVec.ofNat 32 (i + 1) :=
      addl_one_reg F.edi
    have heax : (exec stored (.addl (.imm 1) .edi)).reg .eax = w := by
      rw [addl_reg, Cpu.set_of_ne _ _ (by decide)]
      exact F.eax
    exact ⟨hmem, hedi, heax⟩
  oneWord := by
    intro i c F hi forward
    have hmem : c.stosl.mem = overlay m s (i + 4) fun _ => byteOf w 0 := by
      show store32 c.mem (c.reg .edi) (c.reg .eax) = _
      rw [F.mem, F.edi, F.eax]
      exact store32_overlay (by omega) splat
    have hedi : c.stosl.reg .edi = s + BitVec.ofNat 32 (i + 4) :=
      (c.set_self .edi _).trans (stride_reg F.edi forward)
    exact ⟨hmem, hedi, F.eax⟩
  byteKeeps := fun c => ⟨rfl, rfl⟩
  wordKeeps := fun c => ⟨rfl, rfl⟩

end Memset

/-- `memset` ends, with the low byte of its argument throughout the range. -/
theorem memset_fills (s c n : Word) (cpu : Cpu) (room : s.toNat + n.toNat ≤ 4294967296) :
    ∃ t, Reaches (blockEnv memsetText) (memset s c n cpu) t ∧ t.code = [] ∧
      Written cpu.mem t.cpu.mem s n.toNat fun _ => BitVec.ofNat 8 c.toNat := by
  have hsplat : ∀ j < 4, byteOf (memsetWord c) j = byteOf (memsetWord c) 0 := by
    intro j hj
    rw [byteOf_memsetWord c hj, byteOf_memsetWord c (by decide)]
  have hstart : MemsetAt cpu.mem s (memsetWord c) 0 (memset s c n cpu).cpu :=
    ⟨(overlay_zero ..).symm, (BitVec.add_zero s).symm, rfl⟩
  have hrepeats : ∀ c, exec c .repStosl = c.rep Cpu.stosl := fun _ => rfl
  obtain ⟨t, hreach, hcode, hmem, -, -⟩ :=
    (MemsetAt.blockWork hsplat (by omega)).run hrepeats rfl hstart
  refine ⟨t, hreach, hcode, ?_⟩
  rw [hmem, byteOf_memsetWord c (by decide), byteOf_zero]
  exact overlay_written cpu.mem _ room

/-! ## `memcpy` -/

/-- So many bytes of a range are copied from another one. -/
structure MemcpyAt (m : Memory) (dest src : Word) (i : Nat) (c : Cpu) : Prop where
  mem : c.mem = overlay m dest i fun j => m (src + BitVec.ofNat 32 j)
  edi : c.reg .edi = dest + BitVec.ofNat 32 i
  esi : c.reg .esi = src + BitVec.ofNat 32 i

section Memcpy

variable {m : Memory} {dest src : Word} {n : Nat}

/-- Storing a byte or a word that was loaded from the source, and moving on. The source stays as
it was, since the two ranges are apart. -/
theorem MemcpyAt.blockWork (apart : ∀ i < n, n ≤ (src + BitVec.ofNat 32 i - dest).toNat)
    (small : n ≤ 4294967296) :
    BlockWork [.movbFrom .esi .eax, .movbTo .eax .edi, .addl (.imm 1) .edi, .addl (.imm 1) .esi]
      Cpu.movsl n (MemcpyAt m dest src) where
  congr := by
    intro i c c' F mem reg
    exact ⟨mem.trans F.mem, (reg .edi (by decide) (by decide)).trans F.edi,
      (reg .esi (by decide) (by decide)).trans F.esi⟩
  oneByte := by
    intro i c F hi
    let loaded := exec c (.movbFrom .esi .eax)
    let stored := exec loaded (.movbTo .eax .edi)
    let counted := exec stored (.addl (.imm 1) .edi)
    have hbyte : byteOf (loaded.reg .eax) 0 = m (src + BitVec.ofNat 32 i) := by
      have heax : loaded.reg .eax = (c.reg .eax).extractLsb' 8 24 ++ c.mem (c.reg .esi) :=
        c.set_self .eax _
      rw [heax, byteOf_append, F.mem, F.esi]
      exact overlay_of_le (le_trans (by omega) (apart i hi))
    have hmem : stored.mem = overlay m dest (i + 1) fun j => m (src + BitVec.ofNat 32 j) := by
      have hedi : loaded.reg .edi = c.reg .edi := c.set_of_ne _ (by decide)
      show store8 c.mem (loaded.reg .edi) (byteOf (loaded.reg .eax) 0) = _
      rw [hbyte, hedi, F.mem, F.edi]
      exact @store8_overlay m dest i (fun j => m (src + BitVec.ofNat 32 j)) (by omega)
    have hedi : (exec counted (.addl (.imm 1) .esi)).reg .edi = dest + BitVec.ofNat 32 (i + 1) := by
      rw [addl_reg, Cpu.set_of_ne _ _ (by decide)]
      exact addl_one_reg F.edi
    have hesi : (exec counted (.addl (.imm 1) .esi)).reg .esi = src + BitVec.ofNat 32 (i + 1) :=
      addl_one_reg F.esi
    exact ⟨hmem, hedi, hesi⟩
  oneWord := by
    intro i c F hi forward
    have hword : load32 c.mem (c.reg .esi) = load32 m (src + BitVec.ofNat 32 i) := by
      rw [F.mem, F.esi]
      apply load32_congr
      intro j hj
      rw [offset_add]
      exact overlay_of_le (le_trans (by omega) (apart (i + j) (by omega)))
    have hmem : c.movsl.mem = overlay m dest (i + 4) fun j => m (src + BitVec.ofNat 32 j) := by
      show store32 c.mem (c.reg .edi) (load32 c.mem (c.reg .esi)) = _
      rw [hword, F.mem, F.edi]
      apply store32_overlay (by omega)
      intro j hj
      rw [byteOf_load32 _ _ hj, offset_add]
    have hedi : c.movsl.reg .edi = dest + BitVec.ofNat 32 (i + 4) := by
      have hne : Reg.edi ≠ .esi := by decide
      have hset : c.movsl.reg .edi = c.reg .edi + c.stride :=
        (Cpu.set_of_ne (c.set .edi (c.reg .edi + c.stride)) (c.reg .esi + c.stride) hne).trans
          (c.set_self .edi _)
      exact hset.trans (stride_reg F.edi forward)
    have hesi : c.movsl.reg .esi = src + BitVec.ofNat 32 (i + 4) := by
      have hset : c.movsl.reg .esi = c.reg .esi + c.stride :=
        (c.set .edi (c.reg .edi + c.stride)).set_self .esi _
      exact hset.trans (stride_reg F.esi forward)
    exact ⟨hmem, hedi, hesi⟩
  byteKeeps := fun c => ⟨rfl, rfl⟩
  wordKeeps := fun c => ⟨rfl, rfl⟩

end Memcpy

/-- `memcpy` ends, with the source's bytes in the destination. -/
theorem memcpy_copies {dest src n : Word} (cpu : Cpu)
    (destRoom : dest.toNat + n.toNat ≤ 4294967296) (srcRoom : src.toNat + n.toNat ≤ 4294967296)
    (apart : dest.toNat + n.toNat ≤ src.toNat ∨ src.toNat + n.toNat ≤ dest.toNat) :
    ∃ t, Reaches (blockEnv memcpyText) (memcpy dest src n cpu) t ∧ t.code = [] ∧
      Written cpu.mem t.cpu.mem dest n.toNat fun i => cpu.mem (src + BitVec.ofNat 32 i) := by
  have hapart : ∀ i < n.toNat, n.toNat ≤ (src + BitVec.ofNat 32 i - dest).toNat := by
    intro i hi
    rw [BitVec.toNat_sub, BitVec.toNat_add, BitVec.toNat_ofNat]
    have hdest := dest.isLt
    omega
  have hstart : MemcpyAt cpu.mem dest src 0 (memcpy dest src n cpu).cpu :=
    ⟨(overlay_zero ..).symm, (BitVec.add_zero dest).symm, (BitVec.add_zero src).symm⟩
  have hrepeats : ∀ c, exec c .repMovsl = c.rep Cpu.movsl := fun _ => rfl
  obtain ⟨t, hreach, hcode, hmem, -, -⟩ :=
    (MemcpyAt.blockWork hapart (by omega)).run hrepeats rfl hstart
  refine ⟨t, hreach, hcode, ?_⟩
  rw [hmem]
  exact overlay_written cpu.mem _ destRoom

/-- `memcpy` and `memset` end, whatever the alignment and the length, and leave what a byte loop
would: the source's bytes as they were, or the fill value modulo 256, in the destination, and
every other byte as it was. -/
theorem blockMoves_exact (dest src c n : Word) (cpu : Cpu)
    (destRoom : dest.toNat + n.toNat ≤ 4294967296) :
    (src.toNat + n.toNat ≤ 4294967296 →
      dest.toNat + n.toNat ≤ src.toNat ∨ src.toNat + n.toNat ≤ dest.toNat →
      ∃ t, Reaches (blockEnv memcpyText) (memcpy dest src n cpu) t ∧ t.code = [] ∧
        Written cpu.mem t.cpu.mem dest n.toNat fun i => cpu.mem (src + BitVec.ofNat 32 i)) ∧
    ∃ t, Reaches (blockEnv memsetText) (memset dest c n cpu) t ∧ t.code = [] ∧
      Written cpu.mem t.cpu.mem dest n.toNat fun _ => BitVec.ofNat 8 c.toNat :=
  ⟨fun srcRoom apart => memcpy_copies cpu destRoom srcRoom apart,
    memset_fills dest c n cpu destRoom⟩

/-- Memory whose bytes number themselves. -/
def numbered : Cpu where
  reg := fun _ => 0
  seg := fun _ => 0x18
  eflags := 0x2
  mem := fun a => byteOf a 0

/-- Eleven bytes to an odd address. -/
theorem blockMoves_exact_odd :
    ∃ t, Reaches (blockEnv memcpyText) (memcpy 0x1001 0x2000 11 numbered) t ∧
      t.cpu.mem 0x1006 = 5 := by
  obtain ⟨hcopy, -⟩ := blockMoves_exact 0x1001 0x2000 0 11 numbered (by decide)
  obtain ⟨t, hreach, -, hwritten⟩ := hcopy (by decide) (by decide)
  exact ⟨t, hreach, hwritten.range 5 (by decide)⟩

end Mp3Kernel
