import Mp3Kernel.Laws.CommandParsing

/-!
# Stores through a caller's pointer

`getargs` fills a buffer of the caller's and `vidmap` stores one pointer where the caller
says. Each tests what it was given before it stores: `getargs` refuses a negative size and not
zero, for which it stores one byte all the same, and `vidmap` tests the first of the four
bytes it stores, against a bound one byte past the page.
-/

namespace Mp3Kernel

/-! ## `getargs` -/

section Getargs

variable (buf : Buf) (nbytes : Int) (k : Kernel)

/-- The accesses are those of the handler's model. -/
theorem getargsAccess_refines :
    getargsHandler (some buf) nbytes k =
      (some (getargsAccess buf nbytes k).1.out.cells, (getargsAccess buf nbytes k).2) := by
  unfold getargsHandler getargsAccess
  dsimp only
  split
  next => rfl
  next =>
    refine Prod.ext (congrArg some ?_) rfl
    have hloop : copyArg k.currentPcb.executeArg (nbytes - 1).toNat 0 buf =
        (copyLoop k.currentPcb.executeArg (fun i => i < 255) (nbytes - 1).toNat 0
          ⟨.start buf, [0]⟩).out.cells := by
      funext i
      rw [copyArg_eq, copyLoop_cells]
      refine if_congr Iff.rfl ?_ rfl
      exact if_congr decide_eq_true_iff.symm rfl rfl
    dsimp only
    rw [hloop]
    rfl

/-- What `getargs` owes its caller: it stores inside the buffer and loads inside
`execute_arg`, a success leaves a string, and a failure stores nothing. -/
structure RespectsBuffer : Prop where
  stores : ∀ i ∈ (getargsAccess buf nbytes k).1.out.stores, (i : Int) < nbytes
  loads : ∀ i ∈ (getargsAccess buf nbytes k).1.loads, i < 255
  ends : (getargsAccess buf nbytes k).2 = 0 →
    ∃ i : Nat, (i : Int) < nbytes ∧ (getargsAccess buf nbytes k).1.out.cells i = 0
  refused : (getargsAccess buf nbytes k).2 = -1 →
    (getargsAccess buf nbytes k).1.out.stores = []

variable {buf nbytes k}

theorem getargsAccess_refused (h : k.currentPcb.executeArg 0 = 0 ∨ nbytes < 0) :
    getargsAccess buf nbytes k = (⟨.start buf, [0]⟩, -1) := by
  unfold getargsAccess
  exact if_pos h

/-- A request that is served stores at each index up to the last turn's, and a zero there. -/
theorem getargsAccess_served (h : ¬ (k.currentPcb.executeArg 0 = 0 ∨ nbytes < 0)) :
    (getargsAccess buf nbytes k).2 = 0 ∧
      (getargsAccess buf nbytes k).1.out.stores = List.range ((nbytes - 1).toNat + 1) ∧
      (getargsAccess buf nbytes k).1.out.cells (nbytes - 1).toNat = 0 := by
  unfold getargsAccess
  dsimp only
  rw [if_neg h]
  refine ⟨rfl, ?_, Function.update_self _ _ _⟩
  show (copyLoop _ _ _ 0 _).out.stores ++ [(nbytes - 1).toNat] = _
  rw [copyLoop_stores, ← List.range_eq_range', List.range_succ]
  rfl

theorem getargsAccess_loads (buf : Buf) (nbytes : Int) (k : Kernel) :
    ∀ i ∈ (getargsAccess buf nbytes k).1.loads, i < 255 := by
  have hfirst : ∀ i ∈ [0], i < 255 := fun i hi => by
    rw [List.mem_singleton.mp hi]
    decide
  unfold getargsAccess
  dsimp only
  split
  next => exact hfirst
  next =>
    show ∀ i ∈ (copyLoop _ _ _ 0 _).loads, i < 255
    rw [copyLoop_loads]
    intro i hi
    rcases List.mem_append.mp hi with hi | hi
    · exact hfirst i hi
    · exact of_decide_eq_true (List.mem_filter.mp hi).2

/-- `getargs` respects every buffer but an empty one, and that too when there is no argument. -/
theorem getargs_respects_iff (buf : Buf) (nbytes : Int) (k : Kernel) :
    RespectsBuffer buf nbytes k ↔ nbytes ≠ 0 ∨ k.currentPcb.executeArg 0 = 0 := by
  by_cases hrefused : k.currentPcb.executeArg 0 = 0 ∨ nbytes < 0
  · refine iff_of_true ⟨?_, getargsAccess_loads buf nbytes k, ?_, ?_⟩ ?_
    · rw [getargsAccess_refused hrefused]
      exact fun i hi => absurd hi List.not_mem_nil
    · rw [getargsAccess_refused hrefused]
      exact fun h => absurd (show (-1 : Int) = 0 from h) (by decide)
    · rw [getargsAccess_refused hrefused]
      exact fun _ => rfl
    · rcases hrefused with hempty | hneg
      · exact .inr hempty
      · exact .inl (by omega)
  · obtain ⟨hresult, hstores, hend⟩ := @getargsAccess_served buf nbytes k hrefused
    obtain ⟨hargument, hnonneg⟩ := not_or.mp hrefused
    constructor
    · rintro ⟨-, -, ends, -⟩
      obtain ⟨i, hi, -⟩ := ends hresult
      exact .inl (by omega)
    · intro h
      have hpos : nbytes ≠ 0 := h.resolve_right hargument
      refine ⟨?_, getargsAccess_loads buf nbytes k, fun _ => ?_, fun h => ?_⟩
      · rw [hstores]
        intro i hi
        have := List.mem_range.mp hi
        omega
      · exact ⟨(nbytes - 1).toNat, by omega, hend⟩
      · rw [hresult] at h
        exact absurd h (by decide)

/-- A process started with the argument "x". -/
def withArgument : Kernel :=
  { coldBoot with
    proc :=
      { coldBoot.proc with
        pcbAt := fun _ => { zeroFrame.childPcb with executeArg := cstr (bytes "x") } } }

/-- For a buffer of no bytes its first byte is stored to. -/
theorem getargs_empty_buffer :
    (getargsAccess (fun _ => 1) 0 withArgument).1.out.stores = [0] ∧
      ¬ RespectsBuffer (fun _ => 1) 0 withArgument := by
  have hserved : ¬ (withArgument.currentPcb.executeArg 0 = 0 ∨ (0 : Int) < 0) := by
    rintro (h | h)
    · exact absurd h (by decide +kernel)
    · exact absurd h (by decide)
  obtain ⟨-, hstores, -⟩ := @getargsAccess_served (fun _ => 1) 0 withArgument hserved
  refine ⟨hstores, fun h => ?_⟩
  exact absurd (h.stores 0 (hstores ▸ List.mem_singleton_self 0)) (by decide)

end Getargs

/-! ## `vidmap` -/

/-- The bytes `*screen_start = ...` stores to. -/
def pointerBytes (screenStart : Nat) : List Nat := List.range' screenStart 4

/-- `vidmap` refuses and changes nothing, or stores inside the user page: its four bytes lie
there, and no other memory changes. -/
def StoresInPage (screenStart : Nat) (k : Kernel) : Prop :=
  vidmapHandler screenStart k = some (k, -1) ∨
    (∀ a ∈ pointerBytes screenStart, 0x08000000 ≤ a ∧ a < 0x08400000) ∧
      ∀ k' eax, vidmapHandler screenStart k = some (k', eax) → ∀ p, k'.mem p ≠ k.mem p →
        ∃ a ∈ pointerBytes screenStart, p = k.mmu.userBase + (a - 0x08000000)

section Vidmap

variable {screenStart : Nat} {k k' : Kernel} {eax : Int}

theorem pointerBytes_in_page :
    (∀ a ∈ pointerBytes screenStart, 0x08000000 ≤ a ∧ a < 0x08400000) ↔
      0x08000000 ≤ screenStart ∧ screenStart + 4 ≤ 0x08400000 := by
  unfold pointerBytes
  constructor
  · intro h
    have hfirst := h screenStart (List.mem_range'_1.mpr (by omega))
    have hlast := h (screenStart + 3) (List.mem_range'_1.mpr (by omega))
    omega
  · intro h a ha
    have := List.mem_range'_1.mp ha
    omega

/-- A 32-bit store changes its four bytes at most. -/
theorem storeUser32_mem {addr value : Nat} (lo : 0x08000000 ≤ addr)
    (h : storeUser32 addr value k = some k') {p : Nat} (hp : k'.mem p ≠ k.mem p) :
    ∃ a ∈ pointerBytes addr, p = k.mmu.userBase + (a - 0x08000000) := by
  unfold storeUser32 at h
  split at h
  next =>
    obtain rfl := Option.some.inj h
    dsimp only at hp
    split at hp
    next hin =>
      refine ⟨addr + (p - (k.mmu.userBase + (addr - 0x08000000))), ?_, by omega⟩
      exact List.mem_range'_1.mpr (by omega)
    next => exact absurd rfl hp
  next => cases h

theorem vidmapHandler_refused (h : screenStart < 0x08000000 ∨ screenStart > 0x08400000) :
    vidmapHandler screenStart k = some (k, -1) := by
  unfold vidmapHandler
  by_cases hnull : screenStart = 0
  · rw [if_pos hnull]
  · rw [if_neg hnull, if_pos h]

/-- A pointer that passes the test is stored, or the machine does not survive it. -/
theorem vidmapHandler_stores (lo : 0x08000000 ≤ screenStart) (hi : screenStart ≤ 0x08400000)
    (h : vidmapHandler screenStart k = some (k', eax)) :
    screenStart + 4 ≤ 0x08400000 ∧ eax = 0 ∧ ∀ p, k'.mem p ≠ k.mem p →
      ∃ a ∈ pointerBytes screenStart, p = k.mmu.userBase + (a - 0x08000000) := by
  unfold vidmapHandler at h
  rw [if_neg (by omega), if_neg (by omega)] at h
  dsimp only at h
  split at h
  next => cases h
  next k₁ hstore =>
    have hfits : screenStart + 4 ≤ 0x08400000 := by
      unfold storeUser32 at hstore
      split at hstore
      next hfits => exact hfits
      next => cases hstore
    split at h
    next => cases h
    next =>
      obtain ⟨rfl, rfl⟩ := Prod.mk.inj (Option.some.inj h)
      exact ⟨hfits, rfl, fun p hp => storeUser32_mem lo hstore hp⟩

/-- `vidmap` keeps to the user page for every pointer but the last three bytes of the page and
the byte after them. -/
theorem vidmap_storesInPage_iff (screenStart : Nat) (k : Kernel) :
    StoresInPage screenStart k ↔ ¬ (0x083FFFFD ≤ screenStart ∧ screenStart ≤ 0x08400000) := by
  unfold StoresInPage
  rw [pointerBytes_in_page]
  constructor
  · rintro (hrefused | ⟨hpage, -⟩) ⟨hlo, hhi⟩
    · obtain ⟨-, hzero, -⟩ := vidmapHandler_stores (by omega) hhi hrefused
      exact absurd hzero (by decide)
    · omega
  · intro h
    by_cases hrange : 0x08000000 ≤ screenStart ∧ screenStart ≤ 0x08400000
    · refine .inr ⟨by omega, fun k' eax hcall => ?_⟩
      exact (vidmapHandler_stores hrange.1 hrange.2 hcall).2.2
    · exact .inl (vidmapHandler_refused (by omega))

/-- The address just past the page is accepted: the call does not refuse it, and its bytes are
outside. -/
theorem vidmap_past_page : ¬ StoresInPage 0x08400000 backgroundShell := by
  rintro (hrefused | ⟨hpage, -⟩)
  · obtain ⟨-, hzero, -⟩ := vidmapHandler_stores (by decide) (by decide) hrefused
    exact absurd hzero (by decide)
  · exact absurd (pointerBytes_in_page.mp hpage).2 (by decide)

end Vidmap

end Mp3Kernel
