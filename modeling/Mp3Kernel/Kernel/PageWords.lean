import Mp3Kernel.Kernel.Paging
import Mp3Kernel.Lib.BitFields

/-!
# Page tables as words (`x86_desc.h`)

A directory or table entry is one word of bit-fields, and a table is the words of one page of
memory. The processor knows nothing of the structures: it finds the directory where `cr3` says,
and walks by bit positions. `Mmu.UserReaches` is what the kernel's own view of the tables makes
of such a walk.
-/

namespace Mp3Kernel

open BitFields

/-- `pt_entry`, packed. -/
def PtEntry.word (e : PtEntry) : Nat :=
  pack [⟨1, e.present⟩, ⟨1, e.rW⟩, ⟨1, e.uS⟩, ⟨1, e.pwt⟩, ⟨1, e.pcd⟩, ⟨1, e.accessed⟩, ⟨1, e.dirty⟩,
    ⟨1, e.pat⟩, ⟨1, e.globalBit⟩, ⟨3, e.avail⟩, ⟨20, e.pageBaseAddr⟩]

/-- `pd_entry`, packed. -/
def PdEntry.word (e : PdEntry) : Nat :=
  pack [⟨1, e.present⟩, ⟨1, e.rW⟩, ⟨1, e.uS⟩, ⟨1, e.pwt⟩, ⟨1, e.pcd⟩, ⟨1, e.accessed⟩, ⟨1, e.dirty⟩,
    ⟨1, e.pageSize⟩, ⟨1, e.globalBit⟩, ⟨3, e.avail⟩, ⟨20, e.ptAddr⟩]

/-- Physical memory, a word of a page at a time: the directory lies in the page that `cr3` has,
the two tables lie in theirs, and anything in the others. -/
def Mmu.tableWord (m : Mmu) (cr3 : Nat) (others : Nat → Nat → Nat) (page i : Nat) : Nat :=
  if page = cr3 then (m.pageDirectory i).word
  else if page = m.pageTableFrame then (m.pageTable i).word
  else if page = m.pageTableVidmapFrame then (m.pageTableVidmap i).word
  else others page i

/-- The processor's walk for an access from user mode: where it goes to, if not to a page fault. -/
def userWalk (word : Nat → Nat → Nat) (cr3 va : Nat) : Option Nat :=
  let pde := word cr3 (bits va 22 10)
  if bits pde 0 1 = 1 ∧ bits pde 2 1 = 1 then
    if bits pde 7 1 = 1 then some (2 ^ 22 * bits pde 22 10 + bits va 0 22)
    else
      let pte := word (bits pde 12 20) (bits va 12 10)
      if bits pte 0 1 = 1 ∧ bits pte 2 1 = 1 then some (2 ^ 12 * bits pte 12 20 + bits va 0 12)
      else none
  else none

end Mp3Kernel
