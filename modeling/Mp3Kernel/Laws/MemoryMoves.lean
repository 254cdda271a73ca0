import Mp3Kernel.Laws.MemoryBlocks

/-!
# What `memmove` moves

`memmove` moves upward unless the source is below the destination, so it never reads a byte that
it has written over. Moving downward it sets the direction flag, and nothing clears it again:
a C function is entered with the flag clear, and this one may return with it set.
-/

namespace Mp3Kernel

open X86

/-- Where the string instruction begins, upward. -/
def memmoveStart (dest src n : Word) (cpu : Cpu) : Cpu :=
  [Op.movwOf .ds .edx, .movwTo .edx .es, .cld, .cmpl (.reg .edi) .esi].foldl exec
    (((cpu.set .edi dest).set .esi src).set .ecx n)

section Start

variable (dest src n : Word) (cpu : Cpu)

theorem memmoveStart_df : (memmoveStart dest src n cpu).flag df = false := by
  have hclear : ∀ c : Cpu, (exec c .cld).flag df = false := fun c => by
    simp [exec, Cpu.flag, getLsbD_setFlag _ _ (show df < 32 by decide)]
  exact (Cpu.status_flag _ _ _ (by decide)).trans (hclear _)

theorem memmove_up (h : dest ≤ src) :
    memmove dest src n cpu = (Cpu.movsb^[n.toNat] (memmoveStart dest src n cpu)).set .ecx 0 := by
  show (if dest ≤ src then memmoveStart dest src n cpu else _).rep Cpu.movsb = _
  rw [if_pos h]
  rfl

/-- Where it begins, downward. -/
def memmoveStartDown (dest src n : Word) (cpu : Cpu) : Cpu :=
  (((memmoveStart dest src n cpu).set .esi (src + n - 1)).set .edi (dest + n - 1)).std

theorem memmove_down (h : ¬ dest ≤ src) :
    memmove dest src n cpu =
      (Cpu.movsb^[n.toNat] (memmoveStartDown dest src n cpu)).set .ecx 0 := by
  show (if dest ≤ src then _ else memmoveStartDown dest src n cpu).rep Cpu.movsb = _
  rw [if_neg h]
  rfl

end Start

/-- `memmove` puts the bytes that the source held in the destination, however the two overlap,
and leaves every other byte as it was. It returns with the direction flag set just when the
source is below the destination. -/
theorem memmove_moves (dest src n : Word) (cpu : Cpu)
    (destRoom : dest.toNat + n.toNat ≤ 4294967296) (srcRoom : src.toNat + n.toNat ≤ 4294967296) :
    Written cpu.mem (memmove dest src n cpu).mem dest n.toNat
        (fun i => cpu.mem (src + BitVec.ofNat 32 i)) ∧
      ((memmove dest src n cpu).flag df = true ↔ src < dest) := by
  have hdest := dest.isLt
  have hsrc := src.isLt
  by_cases h : dest ≤ src
  · have hle : dest.toNat ≤ src.toNat := h
    have hstart : MovedUp cpu.mem dest src 0 (memmoveStart dest src n cpu) :=
      ⟨(overlay_zero ..).symm, (BitVec.add_zero dest).symm, (BitVec.add_zero src).symm,
        memmoveStart_df dest src n cpu⟩
    have hmoved := hstart.iterate (n := n.toNat) (by omega) fun i hi => by
      rw [BitVec.toNat_sub, BitVec.toNat_add, BitVec.toNat_ofNat]
      omega
    rw [memmove_up dest src n cpu h]
    refine ⟨?_, iff_of_false ?_ (Nat.not_lt.mpr hle)⟩
    · show Written cpu.mem (Cpu.movsb^[n.toNat] (memmoveStart dest src n cpu)).mem _ _ _
      rw [hmoved.mem]
      exact overlay_written cpu.mem _ destRoom
    · rw [Bool.not_eq_true]
      exact hmoved.upward
  · have hlt : src.toNat < dest.toNat := Nat.not_le.mp h
    have hcount : BitVec.ofNat 32 n.toNat = n := by
      rw [BitVec.ofNat_toNat, BitVec.setWidth_eq]
    have hstart : MovedDown cpu.mem dest src n.toNat n.toNat (memmoveStartDown dest src n cpu) := by
      refine ⟨?_, ?_, ?_, Cpu.std_df _⟩
      · rw [Nat.sub_self, overlay_zero]
        rfl
      · rw [hcount]
        rfl
      · rw [hcount]
        rfl
    have hmoved := hstart.iterate (Nat.le_refl _) fun r hr => by
      rw [BitVec.toNat_sub, BitVec.toNat_add, BitVec.toNat_add, BitVec.toNat_ofNat,
        BitVec.toNat_ofNat]
      omega
    rw [Nat.sub_self] at hmoved
    rw [memmove_down dest src n cpu h]
    refine ⟨?_, iff_of_true hmoved.downward hlt⟩
    show Written cpu.mem (Cpu.movsb^[n.toNat] (memmoveStartDown dest src n cpu)).mem _ _ _
    have hmem := hmoved.mem
    simp only [BitVec.add_zero, Nat.sub_zero, Nat.zero_add] at hmem
    rw [hmem]
    exact overlay_written cpu.mem _ destRoom

/-- Four bytes moved up by two. -/
theorem memmove_moves_overlapping :
    (memmove 0x1002 0x1000 4 numbered).mem 0x1005 = 3 ∧
      (memmove 0x1002 0x1000 4 numbered).flag df = true := by
  obtain ⟨hwritten, hflag⟩ := memmove_moves 0x1002 0x1000 4 numbered (by decide) (by decide)
  exact ⟨hwritten.range 3 (by decide), hflag.mpr (by decide)⟩

end Mp3Kernel
