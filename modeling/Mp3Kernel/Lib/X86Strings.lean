import Mp3Kernel.Lib.X86

/-!
# Moving bytes up and down

The string instruction that moves single bytes, repeated in either direction. Upward, the byte
to be read next has not been written over where the source is not below the destination;
downward, where it is below. So a range is moved whole, however it overlaps where it came from.
-/

namespace X86

namespace Cpu

def std (c : Cpu) : Cpu := { c with eflags := setFlag df true c.eflags }

/-- What the string instructions on bytes add to their index registers. -/
def byteStride (c : Cpu) : Word := if c.flag df then -1 else 1

def movsb (c : Cpu) : Cpu :=
  { (c.set .edi (c.reg .edi + c.byteStride)).set .esi (c.reg .esi + c.byteStride) with
    mem := store8 c.mem (c.reg .edi) (c.mem (c.reg .esi)) }

section Movsb

variable (c : Cpu)

theorem std_df : c.std.flag df = true := by
  simp [std, flag, getLsbD_setFlag _ _ (show df < 32 by decide)]

theorem movsb_edi : c.movsb.reg .edi = c.reg .edi + c.byteStride := by
  have hne : Reg.edi ≠ .esi := by decide
  exact (Cpu.set_of_ne (c.set .edi (c.reg .edi + c.byteStride)) (c.reg .esi + c.byteStride)
    hne).trans (c.set_self .edi _)

theorem movsb_esi : c.movsb.reg .esi = c.reg .esi + c.byteStride :=
  (c.set .edi (c.reg .edi + c.byteStride)).set_self .esi _

end Movsb

end Cpu

section Moves

variable {m : Memory} {d dest src : Word} {n : Nat} {v : Nat → BitVec 8} {c : Cpu}

/-- A byte stored in front of a range that has been written. -/
theorem store8_overlay_front :
    store8 (overlay m (d + 1) n fun j => v (j + 1)) d (v 0) = overlay m d (n + 1) v := by
  funext a
  unfold store8
  by_cases h : a = d
  · subst h
    have hzero : (a - a).toNat = 0 := by simp
    rw [Function.update_self, overlay, hzero, if_pos (Nat.succ_pos n)]
  · rw [Function.update_of_ne h]
    have hoffset := @sub_add_toNat a d 1 (by decide)
    have hpositive : 1 ≤ (a - d).toNat := by
      by_contra hzero
      have hsub : a - d = 0#32 := BitVec.eq_of_toNat_eq (by simpa using hzero)
      exact h (by rw [← BitVec.sub_add_cancel a d, hsub, BitVec.zero_add])
    rw [if_pos hpositive] at hoffset
    have hone : d + BitVec.ofNat 32 1 = d + 1 := rfl
    rw [hone] at hoffset
    unfold overlay
    rw [hoffset]
    by_cases hin : (a - d).toNat < n + 1
    · rw [if_pos (by omega), if_pos hin]
      exact congrArg v (Nat.sub_add_cancel hpositive)
    · rw [if_neg (by omega), if_neg hin]

/-- Upward: so many bytes have been moved. -/
structure MovedUp (m : Memory) (dest src : Word) (i : Nat) (c : Cpu) : Prop where
  mem : c.mem = overlay m dest i fun j => m (src + BitVec.ofNat 32 j)
  edi : c.reg .edi = dest + BitVec.ofNat 32 i
  esi : c.reg .esi = src + BitVec.ofNat 32 i
  upward : c.flag df = false

theorem MovedUp.step {i : Nat} (M : MovedUp m dest src i c) (small : i < 4294967296)
    (unread : i ≤ (src + BitVec.ofNat 32 i - dest).toNat) :
    MovedUp m dest src (i + 1) c.movsb := by
  have hstride : c.byteStride = BitVec.ofNat 32 1 := by
    unfold Cpu.byteStride
    rw [M.upward]
    rfl
  refine ⟨?_, ?_, ?_, M.upward⟩
  · show store8 c.mem (c.reg .edi) (c.mem (c.reg .esi)) = _
    rw [M.mem, M.edi, M.esi, overlay_of_le unread]
    exact @store8_overlay m dest i (fun j => m (src + BitVec.ofNat 32 j)) small
  · rw [c.movsb_edi, hstride, M.edi, offset_add]
  · rw [c.movsb_esi, hstride, M.esi, offset_add]

theorem MovedUp.iterate (M : MovedUp m dest src 0 c) (small : n ≤ 4294967296)
    (unread : ∀ i < n, i ≤ (src + BitVec.ofNat 32 i - dest).toNat) :
    MovedUp m dest src n (Cpu.movsb^[n] c) := by
  induction n with
  | zero => exact M
  | succ n ih =>
    rw [Function.iterate_succ_apply']
    exact (ih (by omega) fun i hi => unread i (by omega)).step (by omega)
      (unread n (Nat.lt_succ_self n))

/-- Downward: all but so many of `n` bytes have been moved. -/
structure MovedDown (m : Memory) (dest src : Word) (n r : Nat) (c : Cpu) : Prop where
  mem : c.mem =
    overlay m (dest + BitVec.ofNat 32 r) (n - r) fun j => m (src + BitVec.ofNat 32 (r + j))
  edi : c.reg .edi = dest + BitVec.ofNat 32 r - 1
  esi : c.reg .esi = src + BitVec.ofNat 32 r - 1
  downward : c.flag df = true

/-- The place before one that has been counted. -/
theorem offset_pred (a : Word) (r : Nat) :
    a + BitVec.ofNat 32 (r + 1) - 1 = a + BitVec.ofNat 32 r := by
  have hone : a + BitVec.ofNat 32 (r + 1) = a + BitVec.ofNat 32 r + 1 := (offset_add a r 1).symm
  rw [hone, BitVec.add_sub_cancel]

theorem MovedDown.step {r : Nat} (M : MovedDown m dest src n (r + 1) c) (hr : r < n)
    (unread : n - (r + 1) ≤ (src + BitVec.ofNat 32 r - (dest + BitVec.ofNat 32 (r + 1))).toNat) :
    MovedDown m dest src n r c.movsb := by
  have hstride : c.byteStride = -1 := by
    unfold Cpu.byteStride
    rw [M.downward]
    rfl
  refine ⟨?_, ?_, ?_, M.downward⟩
  · show store8 c.mem (c.reg .edi) (c.mem (c.reg .esi)) = _
    have hcount : n - r = (n - (r + 1)) + 1 := by omega
    have hbehind : dest + BitVec.ofNat 32 (r + 1) = dest + BitVec.ofNat 32 r + 1 :=
      (offset_add dest r 1).symm
    have hbytes : (fun j => m (src + BitVec.ofNat 32 (r + 1 + j))) =
        fun j => m (src + BitVec.ofNat 32 (r + (j + 1))) := by
      funext j
      rw [Nat.add_assoc, Nat.add_comm 1 j]
    rw [M.edi, M.esi, offset_pred, offset_pred, M.mem, overlay_of_le unread, hcount, hbehind,
      hbytes]
    exact @store8_overlay_front m (dest + BitVec.ofNat 32 r) (n - (r + 1))
      (fun j => m (src + BitVec.ofNat 32 (r + j)))
  · rw [c.movsb_edi, hstride, M.edi, offset_pred]
    exact (BitVec.sub_eq_add_neg _ _).symm
  · rw [c.movsb_esi, hstride, M.esi, offset_pred]
    exact (BitVec.sub_eq_add_neg _ _).symm

theorem MovedDown.iterate {j : Nat} (M : MovedDown m dest src n n c) (hj : j ≤ n)
    (unread : ∀ r < n,
      n - (r + 1) ≤ (src + BitVec.ofNat 32 r - (dest + BitVec.ofNat 32 (r + 1))).toNat) :
    MovedDown m dest src n (n - j) (Cpu.movsb^[j] c) := by
  induction j with
  | zero => exact M
  | succ j ih =>
    have hleft : n - j = n - (j + 1) + 1 := by omega
    have hmoved := ih (by omega)
    rw [hleft] at hmoved
    rw [Function.iterate_succ_apply']
    exact hmoved.step (by omega) (unread _ (by omega))

end Moves

end X86
