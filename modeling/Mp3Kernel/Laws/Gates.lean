import Mp3Kernel.Kernel.Gates

/-!
# What the descriptor tables say

A packed descriptor is read back field by field, so what the processor makes of a word is a
matter of the fields assigned. The entries of `idt_init` have different vectors, and so no
`SET_IDT_ENTRY` undoes another.
-/

namespace Mp3Kernel

open BitFields X86

/-! ## Interrupt gates -/

/-- The offset that the two halves of a descriptor make up. -/
def IdtDesc.offset (d : IdtDesc) : Nat := d.offset1500 % 65536 + 65536 * (d.offset3116 % 65536)

/-- A packed descriptor as the processor takes it, in terms of what was assigned. -/
theorem gateOf_word (d : IdtDesc) (software : Option Nat) :
    gateOf d.word software =
      if d.present % 2 = 1 ∧ d.reserved0 % 2 = 0 ∧
          pack [⟨1, d.reserved3⟩, ⟨1, d.reserved2⟩, ⟨1, d.reserved1⟩, ⟨1, d.size⟩] = 14 ∧
          ∀ cpl ∈ software, cpl ≤ d.dpl % 4 then
        some ⟨BitVec.ofNat 32 (d.segSelector % 65536), BitVec.ofNat 32 d.offset⟩
      else none := by
  let low : List BitField := [⟨16, d.offset1500⟩, ⟨16, d.segSelector⟩, ⟨8, d.reserved4⟩]
  let type : List BitField :=
    [⟨1, d.reserved3⟩, ⟨1, d.reserved2⟩, ⟨1, d.reserved1⟩, ⟨1, d.size⟩]
  let high : List BitField :=
    [⟨1, d.reserved0⟩, ⟨2, d.dpl⟩, ⟨1, d.present⟩, ⟨16, d.offset3116⟩]
  have hlow : bits d.word 0 16 = d.offset1500 % 65536 := bits_field [] ⟨16, d.offset1500⟩ _
  have hselector : bits d.word 16 16 = d.segSelector % 65536 :=
    bits_field (low.take 1) ⟨16, d.segSelector⟩ _
  have htype : bits d.word 40 4 = pack type := bits_fields low type high
  have hstorage : bits d.word 44 1 = d.reserved0 % 2 :=
    bits_field (low ++ type) ⟨1, d.reserved0⟩ _
  have hdpl : bits d.word 45 2 = d.dpl % 4 :=
    bits_field (low ++ type ++ high.take 1) ⟨2, d.dpl⟩ _
  have hpresent : bits d.word 47 1 = d.present % 2 :=
    bits_field (low ++ type ++ high.take 2) ⟨1, d.present⟩ _
  have hhigh : bits d.word 48 16 = d.offset3116 % 65536 :=
    bits_field (low ++ type ++ high.take 3) ⟨16, d.offset3116⟩ []
  unfold gateOf
  rw [hlow, hselector, htype, hstorage, hdpl, hpresent, hhigh]
  rfl

/-- `SET_IDT_ENTRY` puts the whole address of a routine into the descriptor. -/
theorem IdtDesc.setIdtEntry_offset (handler : Word) (d : IdtDesc) :
    (d.setIdtEntry handler.toNat).offset = handler.toNat := by
  have hlt : handler.toNat < 4294967296 := handler.isLt
  have hhigh : (handler.toNat &&& 0xFFFF0000) >>> 16 = handler.toNat / 65536 % 65536 := by
    rw [Nat.shiftRight_and_distrib, Nat.shiftRight_eq_div_pow]
    exact Nat.and_two_pow_sub_one_eq_mod _ 16
  have hlow : handler.toNat &&& 0xFFFF = handler.toNat % 65536 :=
    Nat.and_two_pow_sub_one_eq_mod _ 16
  unfold IdtDesc.offset IdtDesc.setIdtEntry
  dsimp only
  rw [hhigh, hlow]
  omega

section Table

variable (address : Routine → Word)

/-- Entries that do not have a vector leave its descriptor alone. -/
theorem setEntries_of_not_mem (entries : List (Nat × Routine)) (idt : Nat → IdtDesc) {v : Nat}
    (unwired : v ∉ entries.map Prod.fst) :
    entries.foldl (setEntry address) idt v = idt v := by
  induction entries generalizing idt with
  | nil => rfl
  | cons entry entries ih =>
    rw [List.map_cons, List.mem_cons, not_or] at unwired
    exact (ih _ unwired.2).trans (Function.update_of_ne unwired.1 _ _)

theorem setEntries_of_mem {entries : List (Nat × Routine)}
    (nodup : (entries.map Prod.fst).Nodup) (idt : Nat → IdtDesc) {v : Nat} {r : Routine}
    (wired : (v, r) ∈ entries) :
    entries.foldl (setEntry address) idt v = (idt v).setIdtEntry (address r).toNat := by
  induction entries generalizing idt with
  | nil => cases wired
  | cons entry entries ih =>
    rw [List.map_cons, List.nodup_cons] at nodup
    rcases List.mem_cons.mp wired with rfl | later
    · exact (setEntries_of_not_mem address entries _ nodup.1).trans (Function.update_self ..)
    · have hne : v ≠ entry.1 := by
        rintro rfl
        exact nodup.1 (List.mem_map.mpr ⟨_, later, rfl⟩)
      have hrest := ih nodup.2 (setEntry address idt entry) later
      rw [List.foldl_cons, hrest, setEntry, Function.update_of_ne hne]

theorem wired_nodup : (wired.map Prod.fst).Nodup := by decide

/-- Where an interrupt goes: to the routine of its vector, or on to the offset that the table held
before. -/
def target (idt : Nat → IdtDesc) (v : Nat) : Word :=
  match wired.lookup v with
  | some r => address r
  | none => BitVec.ofNat 32 (idt v).offset

/-- An entry has the fields of the loop, and the offset it is to have. -/
theorem idtInit_entry (idt : Nat → IdtDesc) {v : Nat} (hv : v < 256) :
    ∃ d : IdtDesc, idtInit address idt v = d.initEntry v ∧
      BitVec.ofNat 32 d.offset = target address idt v := by
  unfold idtInit target
  cases hlookup : wired.lookup v with
  | some r =>
    have hmem : (v, r) ∈ wired := by
      obtain ⟨before, after, hsplit, -⟩ := List.lookup_eq_some_iff.mp hlookup
      rw [hsplit]
      exact List.mem_append_right before List.mem_cons_self
    refine ⟨(idt v).setIdtEntry (address r).toNat, ?_, ?_⟩
    · rw [setEntries_of_mem address wired_nodup _ hmem, if_pos hv]
      rfl
    · rw [IdtDesc.setIdtEntry_offset]
      exact BitVec.ofNat_toNat ..
  | none =>
    have hwired : v ∉ wired.map Prod.fst := by
      rw [List.lookup_eq_none_iff] at hlookup
      intro hmem
      obtain ⟨entry, hentry, rfl⟩ := List.mem_map.mp hmem
      exact absurd (hlookup entry hentry) (by simp)
    exact ⟨idt v, (setEntries_of_not_mem address wired _ hwired).trans (if_pos hv), rfl⟩

/-- An entry of the loop, as the processor takes it. -/
theorem gateOf_initEntry (d : IdtDesc) (v : Nat) (software : Option Nat) :
    gateOf (d.initEntry v).word software =
      if ∀ cpl ∈ software, cpl ≤ if v = systemCallVector then 3 else 0 then
        some ⟨BitVec.ofNat 32 kernelCs, BitVec.ofNat 32 d.offset⟩
      else none := by
  have hdpl : (d.initEntry v).dpl % 4 = if v = systemCallVector then 3 else 0 := by
    unfold IdtDesc.initEntry
    dsimp only
    split <;> rfl
  rw [gateOf_word, hdpl]
  refine if_congr ?_ rfl rfl
  exact ⟨fun h => h.2.2.2, fun h => ⟨rfl, rfl, rfl, h⟩⟩

/-- After `idt_init`, whatever the table held and wherever the routines lie, every vector leads
into the kernel's code segment, to its routine if it has one; an `int` instruction outside the
kernel gets through for `SYSTEM_CALL` alone. -/
theorem idtInit_gates (idt : Nat → IdtDesc) (v : Fin 256) (software : Option (Fin 4)) :
    gateOf (idtInit address idt v).word (software.map Fin.val) =
      if v.val = systemCallVector ∨ ∀ cpl ∈ software, cpl = 0 then
        some ⟨BitVec.ofNat 32 kernelCs, target address idt v⟩
      else none := by
  obtain ⟨d, hentry, hoffset⟩ := idtInit_entry address idt v.isLt
  rw [hentry, gateOf_initEntry, hoffset]
  refine if_congr ?_ rfl rfl
  cases software with
  | none => simp
  | some cpl =>
    have hcpl : cpl.val < 4 := cpl.isLt
    have hzero : (∀ c ∈ some cpl, c = 0) ↔ cpl.val = 0 := by simp
    rw [hzero, Option.map_some]
    simp only [Option.mem_some_iff, forall_eq']
    by_cases h : v.val = systemCallVector
    · rw [if_pos h]
      exact ⟨fun _ => Or.inl h, fun _ => by omega⟩
    · rw [if_neg h]
      exact ⟨fun hle => Or.inr (Nat.le_zero.mp hle),
        fun hor => Nat.le_of_eq (hor.resolve_left h)⟩

end Table

/-! ## Segments -/

section Segments

variable (d : SegDesc) (addr : Word) (lim : Nat)

theorem setParams_base : segmentBase (d.setParams addr.toNat lim).word = addr.toNat := by
  have hlt : addr.toNat < 4294967296 := addr.isLt
  let e := d.setParams addr.toNat lim
  let low : List BitField := [⟨16, e.segLim1500⟩]
  let base : List BitField := [⟨16, e.base1500⟩, ⟨8, e.base2316⟩]
  let high : List BitField :=
    [⟨4, e.type⟩, ⟨1, e.sys⟩, ⟨2, e.dpl⟩, ⟨1, e.present⟩, ⟨4, e.segLim1916⟩, ⟨1, e.avail⟩,
      ⟨1, e.reserved⟩, ⟨1, e.opsize⟩, ⟨1, e.granularity⟩]
  have hbase : bits e.word 16 24 = pack base := bits_fields low base _
  have htop : bits e.word 56 8 = e.base3124 % 256 :=
    bits_field (low ++ base ++ high) ⟨8, e.base3124⟩ []
  have h1500 : e.base1500 = addr.toNat % 65536 := Nat.and_two_pow_sub_one_eq_mod _ 16
  have h2316 : e.base2316 = addr.toNat / 65536 % 256 := by
    show (addr.toNat &&& 0x00FF0000) >>> 16 = _
    rw [Nat.shiftRight_and_distrib, Nat.shiftRight_eq_div_pow]
    exact Nat.and_two_pow_sub_one_eq_mod _ 8
  have h3124 : e.base3124 = addr.toNat / 16777216 % 256 := by
    show (addr.toNat &&& 0xFF000000) >>> 24 = _
    rw [Nat.shiftRight_and_distrib, Nat.shiftRight_eq_div_pow]
    exact Nat.and_two_pow_sub_one_eq_mod _ 8
  have hpack : pack base = e.base1500 % 65536 + 65536 * (e.base2316 % 256) := by
    show e.base1500 % 65536 + 65536 * (e.base2316 % 256 + 256 * 0) = _
    rw [Nat.mul_zero, Nat.add_zero]
  unfold segmentBase
  rw [hbase, htop, hpack, h1500, h2316, h3124]
  omega

/-- A limit that is counted in bytes. -/
theorem setParams_limit (bytewise : d.granularity % 2 = 0) :
    segmentLimit (d.setParams addr.toNat lim).word = lim % 1048576 := by
  let e := d.setParams addr.toNat lim
  let low : List BitField :=
    [⟨16, e.segLim1500⟩, ⟨16, e.base1500⟩, ⟨8, e.base2316⟩, ⟨4, e.type⟩, ⟨1, e.sys⟩, ⟨2, e.dpl⟩,
      ⟨1, e.present⟩]
  let high : List BitField :=
    [⟨4, e.segLim1916⟩, ⟨1, e.avail⟩, ⟨1, e.reserved⟩, ⟨1, e.opsize⟩]
  have hlow : bits e.word 0 16 = e.segLim1500 % 65536 := bits_field [] ⟨16, e.segLim1500⟩ _
  have hhigh : bits e.word 48 4 = e.segLim1916 % 16 := bits_field low ⟨4, e.segLim1916⟩ _
  have hgranularity : bits e.word 55 1 = d.granularity % 2 :=
    bits_field (low ++ high) ⟨1, e.granularity⟩ _
  have h1500 : e.segLim1500 = lim % 65536 := Nat.and_two_pow_sub_one_eq_mod _ 16
  have h1916 : e.segLim1916 = lim / 65536 % 16 := by
    show (lim &&& 0x000F0000) >>> 16 = _
    rw [Nat.shiftRight_and_distrib, Nat.shiftRight_eq_div_pow]
    exact Nat.and_two_pow_sub_one_eq_mod _ 4
  unfold segmentLimit
  dsimp only
  rw [hlow, hhigh, hgranularity, bytewise, if_neg (by decide), h1500, h1916]
  omega

theorem setParams_systemType :
    systemType (d.setParams addr.toNat lim).word =
      if d.sys % 2 = 0 ∧ d.present % 2 = 1 then some (d.type % 16) else none := by
  let e := d.setParams addr.toNat lim
  let low : List BitField := [⟨16, e.segLim1500⟩, ⟨16, e.base1500⟩, ⟨8, e.base2316⟩]
  let access : List BitField := [⟨4, e.type⟩, ⟨1, e.sys⟩, ⟨2, e.dpl⟩, ⟨1, e.present⟩]
  let high : List BitField :=
    [⟨4, e.segLim1916⟩, ⟨1, e.avail⟩, ⟨1, e.reserved⟩, ⟨1, e.opsize⟩, ⟨1, e.granularity⟩,
      ⟨8, e.base3124⟩]
  have htype : bits e.word 40 4 = e.type % 16 :=
    bits_field low ⟨4, e.type⟩ (access.tail ++ high)
  have hsys : bits e.word 44 1 = e.sys % 2 :=
    bits_field (low ++ access.take 1) ⟨1, e.sys⟩ (access.drop 2 ++ high)
  have hpresent : bits e.word 47 1 = e.present % 2 :=
    bits_field (low ++ access.take 3) ⟨1, e.present⟩ high
  unfold systemType
  rw [htype, hsys, hpresent]
  rfl

end Segments

/-- What `entry` puts at `tss_desc_ptr` and `ldt_desc_ptr`, wherever the two segments lie and
whatever lay on the stack where the descriptors are built: an available 32-bit TSS and an LDT,
each with its base, and its limit in bytes. -/
theorem entry_segments (junk : SegDesc) (tss ldt : Word) (tssLimit ldtLimit : Nat) :
    (systemType (theTssDesc junk tss.toNat tssLimit).word = some 9 ∧
      segmentBase (theTssDesc junk tss.toNat tssLimit).word = tss.toNat ∧
      segmentLimit (theTssDesc junk tss.toNat tssLimit).word = tssLimit % 1048576) ∧
    systemType (theLdtDesc junk ldt.toNat ldtLimit).word = some 2 ∧
      segmentBase (theLdtDesc junk ldt.toNat ldtLimit).word = ldt.toNat ∧
      segmentLimit (theLdtDesc junk ldt.toNat ldtLimit).word = ldtLimit % 1048576 := by
  unfold theTssDesc theLdtDesc
  refine ⟨⟨?_, setParams_base .., setParams_limit _ _ _ rfl⟩, ?_, setParams_base ..,
    setParams_limit _ _ _ rfl⟩
  · exact (setParams_systemType ..).trans (if_pos ⟨rfl, rfl⟩)
  · exact (setParams_systemType ..).trans (if_pos ⟨rfl, rfl⟩)

/-- The other four cover all addresses. -/
example : ∀ word ∈ flatSegments, segmentBase word = 0 ∧ segmentLimit word = 4294967295 := by
  decide +kernel

end Mp3Kernel
