import Mathlib.Data.List.Basic
import Mathlib.Tactic.IntervalCases

/-!
# A pair of 8259 interrupt controllers

A master and a slave, the slave's output wired to line 2 of the master, in the mode that PCs use
them in: fully nested, edge-triggered, an end of interrupt for each interrupt. A controller
takes its initialisation as a sequence of bytes at two ports; after that one port is its mask.

Interrupts are numbered as a PC does, the slave's from 8. `Serving` says that the interrupts in
service are those on a stack, the innermost first: an end of interrupt that does not say which
one it is for is then for the innermost.
-/

namespace Pic8259

abbrev Byte := BitVec 8

def setBit (i : Nat) (b : Byte) : Byte := b ||| BitVec.twoPow 8 i

def clearBit (i : Nat) (b : Byte) : Byte := b &&& ~~~(BitVec.twoPow 8 i)

/-- The lowest bit that is set, which is the line of the highest priority. -/
def lowest (bits : Nat → Bool) : Option Nat := (List.range 8).find? bits

section Bits

variable {i j : Nat} {b : Byte} {bits : Nat → Bool}

theorem getLsbD_setBit (hi : i < 8) : (setBit i b).getLsbD j = (b.getLsbD j || decide (j = i)) := by
  unfold setBit
  rw [BitVec.getLsbD_or, BitVec.getLsbD_twoPow]
  by_cases h : j = i
  · subst h
    simp [hi]
  · simp [h, Ne.symm h]

theorem getLsbD_clearBit (hj : j < 8) :
    (clearBit i b).getLsbD j = (b.getLsbD j && decide (j ≠ i)) := by
  unfold clearBit
  rw [BitVec.getLsbD_and, BitVec.getLsbD_not, BitVec.getLsbD_twoPow]
  by_cases h : j = i
  · subst h
    simp [hj]
  · simp [hj, h, Ne.symm h]

theorem lowest_eq_some : lowest bits = some i ↔ bits i = true ∧ i < 8 ∧ ∀ j < i, bits j = false := by
  unfold lowest
  rw [List.find?_range_eq_some]
  simp

theorem lowest_isSome (hi : i < 8) (h : bits i = true) : (lowest bits).isSome := by
  unfold lowest
  rw [List.find?_isSome]
  exact ⟨i, List.mem_range.mpr hi, h⟩

end Bits

/-! ## A controller -/

/-- Which byte of the initialisation a controller expects next, if any. -/
inductive Phase
  | ready
  | icw2
  | icw3
  | icw4
  deriving DecidableEq

structure Pic where
  phase : Phase
  /-- ICW1, which says whether the third and the fourth byte follow. -/
  icw1 : Byte
  icw2 : Byte
  icw3 : Byte
  icw4 : Byte
  imr : Byte
  irr : Byte
  isr : Byte

namespace Pic

/-- A byte at the command port: ICW1, which starts the initialisation, or the end of interrupt that
does not say for which. Other commands leave a controller as it was here. -/
def command (v : Byte) (p : Pic) : Pic :=
  if v.getLsbD 4 then
    { p with
      phase := .icw2, icw1 := v, imr := 0, irr := 0
      icw4 := if v.getLsbD 0 then p.icw4 else 0 }
  else if v = 0x20 then
    match lowest p.isr.getLsbD with
    | some i => { p with isr := clearBit i p.isr }
    | none => p
  else p

/-- A byte at the data port. -/
def data (v : Byte) (p : Pic) : Pic :=
  let last (p : Pic) : Pic := { p with phase := if p.icw1.getLsbD 0 then .icw4 else .ready }
  match p.phase with
  | .ready => { p with imr := v }
  | .icw2 =>
    let p := { p with icw2 := v }
    if p.icw1.getLsbD 1 then last p else { p with phase := .icw3 }
  | .icw3 => last { p with icw3 := v }
  | .icw4 => { p with icw4 := v, phase := .ready }

/-- A device asks for a line. -/
def request (i : Nat) (p : Pic) : Pic := { p with irr := setBit i p.irr }

/-- The line to be served next: the one of the highest priority among those asked for that are not
masked, if none of that priority or a higher one is in service. -/
def next (requested : Nat → Bool) (p : Pic) : Option Nat :=
  match lowest fun i => requested i && !p.imr.getLsbD i with
  | some i => if ∃ j ≤ i, p.isr.getLsbD j = true then none else some i
  | none => none

/-- A line's interrupt is taken: it is in service until its end. -/
def serve (i : Nat) (p : Pic) : Pic :=
  { p with irr := clearBit i p.irr, isr := if p.icw4.getLsbD 1 then p.isr else setBit i p.isr }

/-- The vector of a line. -/
def vector (i : Nat) (p : Pic) : Nat := p.icw2.toNat / 8 * 8 + i

/-- A controller with another mask. -/
def withMask (v : Byte) (p : Pic) : Pic := { p with imr := v }

theorem data_ready {p : Pic} (ready : p.phase = .ready) (v : Byte) : p.data v = p.withMask v := by
  obtain ⟨phase, icw1, icw2, icw3, icw4, imr, irr, isr⟩ := p
  obtain rfl : phase = .ready := ready
  rfl

/-- The whole initialisation, whatever the controller expected before: a mask, the four bytes and a
mask again. -/
theorem initialised (p : Pic) (v v2 v3 v' : Byte) :
    (((((((p.data v).command 0x11).data v2).data v3).data 0x01)).data v') =
      ⟨.ready, 0x11, v2, v3, 0x01, v', 0, p.isr⟩ := by
  have hisr : (p.data v).isr = p.isr := by
    unfold data
    dsimp only
    split
    · rfl
    · split <;> rfl
    · rfl
    · rfl
  rw [← hisr]
  have hcommand : ∀ q : Pic, q.command 0x11 =
      { q with phase := .icw2, icw1 := 0x11, imr := 0, irr := 0 } := by
    intro q
    unfold command
    rw [if_pos (by decide), if_pos (by decide)]
  rw [hcommand]
  simp [data]

theorem next_some {requested : Nat → Bool} {p : Pic} {i : Nat} (h : p.next requested = some i) :
    i < 8 ∧ requested i = true ∧ p.imr.getLsbD i = false ∧ ∀ j ≤ i, p.isr.getLsbD j = false := by
  unfold next at h
  split at h
  next i' hlowest =>
    split at h
    next => cases h
    next hfree =>
      obtain rfl := Option.some.inj h
      obtain ⟨hbit, hi, -⟩ := lowest_eq_some.mp hlowest
      rw [Bool.and_eq_true, Bool.not_eq_true'] at hbit
      refine ⟨hi, hbit.1, hbit.2, fun j hj => ?_⟩
      rw [← Bool.not_eq_true]
      exact fun hset => hfree ⟨j, hj, hset⟩
  next => cases h

/-- With nothing in service, a line that is asked for and not masked lets one be served. -/
theorem next_isSome {requested : Nat → Bool} {p : Pic} {i : Nat} (hi : i < 8)
    (asked : requested i = true) (unmasked : p.imr.getLsbD i = false)
    (idle : ∀ j < 8, p.isr.getLsbD j = false) : (p.next requested).isSome := by
  have hbit : (requested i && !p.imr.getLsbD i) = true := by simp [asked, unmasked]
  obtain ⟨i', hlowest⟩ := Option.isSome_iff_exists.mp
    (@lowest_isSome i (fun i => requested i && !p.imr.getLsbD i) hi hbit)
  obtain ⟨-, hi', -⟩ := lowest_eq_some.mp hlowest
  have hfree : ¬ ∃ j ≤ i', p.isr.getLsbD j = true := by
    rintro ⟨j, hj, hset⟩
    rw [idle j (by omega)] at hset
    cases hset
  unfold next
  rw [hlowest]
  dsimp only
  rw [if_neg hfree, Option.isSome_some]

end Pic

/-! ## The pair -/

structure Pair where
  master : Pic
  slave : Pic

/-- The line of the master that an interrupt comes on. -/
def line (n : Nat) : Nat := if n < 8 then n else 2

/-- The interrupts that devices have: line 2 of the master is the slave's. -/
def Irq (n : Nat) : Prop := n < 16 ∧ n ≠ 2

namespace Pair

/-- A device asks for an interrupt. -/
def ask (n : Nat) (p : Pair) : Pair :=
  if n < 8 then { p with master := p.master.request n }
  else { p with slave := p.slave.request (n - 8) }

def Asked (p : Pair) (n : Nat) : Prop :=
  if n < 8 then p.master.irr.getLsbD n = true else p.slave.irr.getLsbD (n - 8) = true

def Masked (p : Pair) (n : Nat) : Prop :=
  if n < 8 then p.master.imr.getLsbD n = true else p.slave.imr.getLsbD (n - 8) = true

/-- An interrupt is masked, or not any more. -/
def setMask (masked : Bool) (n : Nat) (p : Pair) : Pair :=
  let set (bit : Nat) (v : Byte) : Byte := if masked then setBit bit v else clearBit bit v
  if n < 8 then { p with master := p.master.withMask (set n p.master.imr) }
  else { p with slave := p.slave.withMask (set (n - 8) p.slave.imr) }

/-- The processor takes an interrupt: the vector that it gets. A line that the master's third byte
marks is left to the slave that has its number. -/
def deliver (p : Pair) : Option (Nat × Pair) :=
  let fromSlave := p.slave.next p.slave.irr.getLsbD
  match p.master.next fun i => if i = 2 then fromSlave.isSome else p.master.irr.getLsbD i with
  | none => none
  | some i =>
    if p.master.icw3.getLsbD i then
      if p.slave.icw3.toNat % 8 = i then
        fromSlave.map fun j => (p.slave.vector j, ⟨p.master.serve i, p.slave.serve j⟩)
      else none
    else some (p.master.vector i, { p with master := p.master.serve i })

/-- An interrupt taken: what it leaves of the pair. -/
def taken (n : Nat) (p : Pair) : Pair :=
  if n < 8 then { p with master := p.master.serve n }
  else ⟨p.master.serve 2, p.slave.serve (n - 8)⟩

/-- The ends of interrupt for one of the slave's are two. -/
def eoi (n : Nat) (p : Pair) : Pair :=
  if n < 8 then { p with master := p.master.command 0x20 }
  else ⟨p.master.command 0x20, p.slave.command 0x20⟩

/-- Both controllers are initialised as they are wired, and the vectors are consecutive. -/
structure Cascaded (p : Pair) (base : Nat) : Prop where
  ready : p.master.phase = .ready ∧ p.slave.phase = .ready
  wired : p.master.icw3 = 4 ∧ p.slave.icw3.toNat % 8 = 2
  normal : p.master.icw4.getLsbD 1 = false ∧ p.slave.icw4.getLsbD 1 = false
  vectors : p.master.icw2.toNat / 8 * 8 = base ∧ p.slave.icw2.toNat / 8 * 8 = base + 8

/-- The interrupts in service are those on a stack, which has the innermost first; each broke into
one of a lower priority. -/
structure Serving (p : Pair) (st : List Nat) : Prop where
  irqs : ∀ n ∈ st, Irq n
  nested : (st.map line).Pairwise (· < ·)
  master : ∀ i < 8, p.master.isr.getLsbD i = true ↔ i ∈ st.map line
  slave : ∀ j < 8, p.slave.isr.getLsbD j = true ↔ j + 8 ∈ st

section Steps

variable {p p' : Pair} {base v n : Nat} {st : List Nat}

theorem Cascaded.slaveLine (C : p.Cascaded base) {i : Nat} (hi : i < 8) :
    p.master.icw3.getLsbD i = true ↔ i = 2 := by
  rw [C.wired.1]
  interval_cases i <;> decide

theorem line_lt {n : Nat} : line n < 8 := by
  unfold line
  split <;> omega

theorem getLsbD_serve {q : Pic} (normal : q.icw4.getLsbD 1 = false) {i j : Nat} (hi : i < 8) :
    (q.serve i).isr.getLsbD j = true ↔ j = i ∨ q.isr.getLsbD j = true := by
  unfold Pic.serve
  dsimp only
  rw [normal, if_neg Bool.false_ne_true, getLsbD_setBit hi, Bool.or_eq_true, decide_eq_true_eq,
    or_comm]

/-- What taking an interrupt does: the interrupt was asked for and not masked, and none on its line
or before it is in service. -/
theorem deliver_some (C : p.Cascaded base) (h : p.deliver = some (v, p')) :
    ∃ n, v = base + n ∧ Irq n ∧ p.Asked n ∧ ¬ p.Masked n ∧
      (∀ j ≤ line n, p.master.isr.getLsbD j = false) ∧ p' = p.taken n := by
  have hoff : ∀ {b : Bool}, b = false → ¬ b = true := by simp
  unfold Pair.deliver at h
  dsimp only at h
  split at h
  next => cases h
  next i hnext =>
    obtain ⟨hi, hasked, hunmasked, hfree⟩ := Pic.next_some hnext
    by_cases h2 : i = 2
    · subst h2
      rw [if_pos ((C.slaveLine hi).mpr rfl), if_pos C.wired.2] at h
      obtain ⟨j, hj, hv⟩ := Option.map_eq_some_iff.mp h
      obtain ⟨rfl, rfl⟩ := Prod.mk.inj hv
      obtain ⟨hj8, hjasked, hjunmasked, -⟩ := Pic.next_some hj
      have hnot : ¬ j + 8 < 8 := by omega
      refine ⟨j + 8, ?_, ⟨by omega, by omega⟩, ?_, ?_, ?_, ?_⟩
      · rw [Pic.vector, C.vectors.2]
        omega
      · rw [Asked, if_neg hnot]
        exact hjasked
      · rw [Masked, if_neg hnot]
        exact hoff hjunmasked
      · rw [line, if_neg hnot]
        exact hfree
      · rw [taken, if_neg hnot]
        rfl
    · rw [if_neg ((C.slaveLine hi).not.mpr h2)] at h
      obtain ⟨rfl, rfl⟩ := Prod.mk.inj (Option.some.inj h)
      rw [if_neg h2] at hasked
      refine ⟨i, ?_, ⟨by omega, h2⟩, ?_, ?_, ?_, ?_⟩
      · rw [Pic.vector, C.vectors.1]
      · rw [Asked, if_pos hi]
        exact hasked
      · rw [Masked, if_pos hi]
        exact hoff hunmasked
      · rw [line, if_pos hi]
        exact hfree
      · rw [taken, if_pos hi]

theorem Cascaded.taken (C : p.Cascaded base) (n : Nat) : (p.taken n).Cascaded base := by
  unfold Pair.taken
  split <;> exact ⟨C.ready, C.wired, C.normal, C.vectors⟩

/-- The request of an interrupt that is taken is gone, and the others are as they were. -/
theorem asked_taken (n : Nat) {m : Nat} (irq : Irq m) :
    (p.taken n).Asked m ↔ p.Asked m ∧ m ≠ n := by
  have hclear : ∀ (q : Pic) (i : Nat) {j : Nat}, j < 8 →
      ((q.serve i).irr.getLsbD j = true ↔ q.irr.getLsbD j = true ∧ j ≠ i) := by
    intro q i j hj
    unfold Pic.serve
    dsimp only
    rw [getLsbD_clearBit hj, Bool.and_eq_true, decide_eq_true_eq]
  obtain ⟨hm, h2⟩ := irq
  unfold Pair.taken Asked
  by_cases hn : n < 8
  · rw [if_pos hn]
    by_cases hm8 : m < 8
    · rw [if_pos hm8, if_pos hm8]
      exact hclear p.master n hm8
    · rw [if_neg hm8, if_neg hm8]
      exact (and_iff_left (by omega)).symm
  · rw [if_neg hn]
    by_cases hm8 : m < 8
    · rw [if_pos hm8, if_pos hm8, hclear p.master 2 hm8, and_iff_left h2]
      exact (and_iff_left (by omega)).symm
    · rw [if_neg hm8, if_neg hm8, hclear p.slave (n - 8) (by omega)]
      exact and_congr_right fun _ => by omega

/-- An interrupt that is taken is on top of those in service, all of which it outranks. -/
theorem Serving.taken (S : p.Serving st) (C : p.Cascaded base) {n : Nat} (irq : Irq n)
    (free : ∀ j ≤ line n, p.master.isr.getLsbD j = false) :
    (∀ m ∈ st, line n < line m) ∧ (p.taken n).Serving (n :: st) := by
  have hout : ∀ m ∈ st, line n < line m := by
    intro m hm
    by_contra hle
    have hset := (S.master (line m) line_lt).mpr (List.mem_map_of_mem hm)
    rw [free (line m) (by omega)] at hset
    cases hset
  refine ⟨hout, ?_, ?_, ?_, ?_⟩
  · intro m hm
    rcases List.mem_cons.mp hm with rfl | hm
    · exact irq
    · exact S.irqs m hm
  · rw [List.map_cons, List.pairwise_cons]
    refine ⟨fun l hl => ?_, S.nested⟩
    obtain ⟨m, hm, rfl⟩ := List.mem_map.mp hl
    exact hout m hm
  · intro i hi
    have hmaster : (p.taken n).master = p.master.serve (line n) := by
      unfold Pair.taken line
      split <;> rfl
    rw [hmaster, getLsbD_serve C.normal.1 line_lt, S.master i hi, List.map_cons, List.mem_cons]
  · intro j hj
    unfold Pair.taken
    split
    next hn =>
      rw [S.slave j hj, List.mem_cons]
      exact (or_iff_right (by omega)).symm
    next hn =>
      rw [getLsbD_serve C.normal.2 (by have := irq.1; omega), S.slave j hj, List.mem_cons]
      exact or_congr_left (by omega)

/-- What the end of interrupt does to the line of the highest priority in service. -/
theorem getLsbD_eoi {q : Pic} {i j : Nat} (top : lowest q.isr.getLsbD = some i) (hj : j < 8) :
    (q.command 0x20).isr.getLsbD j = true ↔ q.isr.getLsbD j = true ∧ j ≠ i := by
  have hcommand : q.command 0x20 = { q with isr := clearBit i q.isr } := by
    have hbit : (0x20 : Byte).getLsbD 4 = false := rfl
    unfold Pic.command
    rw [hbit, if_neg Bool.false_ne_true, if_pos rfl, top]
  rw [hcommand, getLsbD_clearBit hj, Bool.and_eq_true, decide_eq_true_eq]

theorem command_eoi (q : Pic) : ∃ isr, q.command 0x20 = { q with isr := isr } := by
  have hbit : (0x20 : Byte).getLsbD 4 = false := rfl
  unfold Pic.command
  rw [hbit, if_neg Bool.false_ne_true, if_pos rfl]
  split
  · exact ⟨_, rfl⟩
  · exact ⟨q.isr, rfl⟩

theorem Cascaded.eoi (C : p.Cascaded base) (n : Nat) : (p.eoi n).Cascaded base := by
  obtain ⟨isr, hmaster⟩ := command_eoi p.master
  obtain ⟨isr', hslave⟩ := command_eoi p.slave
  unfold Pair.eoi
  rw [hmaster, hslave]
  split <;> exact ⟨C.ready, C.wired, C.normal, C.vectors⟩

/-- Neither requests nor masks are affected. -/
theorem asked_masked_eoi (n m : Nat) :
    ((p.eoi n).Asked m ↔ p.Asked m) ∧ ((p.eoi n).Masked m ↔ p.Masked m) := by
  obtain ⟨isr, hmaster⟩ := command_eoi p.master
  obtain ⟨isr', hslave⟩ := command_eoi p.slave
  unfold Pair.eoi
  rw [hmaster, hslave]
  split <;> exact ⟨Iff.rfl, Iff.rfl⟩

/-- The ends of interrupt that the innermost interrupt in service sends are for itself. -/
theorem Serving.eoi (S : p.Serving (n :: st)) : (p.eoi n).Serving st := by
  have hnested := List.pairwise_cons.mp (List.map_cons ▸ S.nested)
  have hirq := S.irqs n List.mem_cons_self
  have hrest : ∀ m ∈ st, line n < line m := fun m hm => hnested.1 _ (List.mem_map_of_mem hm)
  have htop : lowest p.master.isr.getLsbD = some (line n) := by
    refine lowest_eq_some.mpr ⟨?_, line_lt, fun j hj => ?_⟩
    · exact (S.master _ line_lt).mpr (by simp)
    · rw [← Bool.not_eq_true, S.master j (Nat.lt_trans hj line_lt)]
      intro hmem
      rcases List.mem_cons.mp (List.map_cons ▸ hmem) with rfl | hmem
      · exact Nat.lt_irrefl _ hj
      · exact Nat.lt_asymm hj (hnested.1 _ hmem)
  have hmaster : ∀ i < 8, (p.master.command 0x20).isr.getLsbD i = true ↔ i ∈ st.map line := by
    intro i hi
    rw [getLsbD_eoi htop hi, S.master i hi, List.map_cons, List.mem_cons]
    constructor
    · exact fun h => h.1.resolve_left h.2
    · exact fun h => ⟨.inr h, fun heq => Nat.lt_irrefl _ (heq ▸ hnested.1 i h)⟩
  have hmem : ∀ m ∈ st, Irq m := fun m hm => S.irqs m (List.mem_cons_of_mem _ hm)
  unfold Pair.eoi
  split
  next hn =>
    refine ⟨hmem, hnested.2, hmaster, fun j hj => ?_⟩
    rw [S.slave j hj, List.mem_cons]
    exact or_iff_right (by omega)
  next hn =>
    -- no other interrupt in service is the slave's
    have hline : line n = 2 := if_neg hn
    have halone : ∀ j, j + 8 ∈ st → False := by
      intro j hj
      have hlt := hrest _ hj
      rw [hline, line, if_neg (by omega)] at hlt
      exact Nat.lt_irrefl _ hlt
    have hslave : lowest p.slave.isr.getLsbD = some (n - 8) := by
      refine lowest_eq_some.mpr ⟨?_, by have := hirq.1; omega, fun j hj => ?_⟩
      · rw [S.slave _ (by have := hirq.1; omega), Nat.sub_add_cancel (by omega)]
        exact List.mem_cons_self
      · rw [← Bool.not_eq_true, S.slave j (by have := hirq.1; omega)]
        intro hset
        rcases List.mem_cons.mp hset with heq | hset
        · omega
        · exact halone j hset
    refine ⟨hmem, hnested.2, hmaster, fun j hj => ?_⟩
    rw [getLsbD_eoi hslave hj, S.slave j hj, List.mem_cons]
    constructor
    · exact fun h => (h.1.resolve_left fun heq => h.2 (by omega))
    · exact fun h => (halone j h).elim

theorem Serving.ask (S : p.Serving st) (n : Nat) : (p.ask n).Serving st := by
  unfold Pair.ask
  split <;> exact ⟨S.irqs, S.nested, S.master, S.slave⟩

theorem Cascaded.ask (C : p.Cascaded base) (n : Nat) : (p.ask n).Cascaded base := by
  unfold Pair.ask
  split <;> exact ⟨C.ready, C.wired, C.normal, C.vectors⟩

theorem Serving.setMask (S : p.Serving st) (masked : Bool) (n : Nat) :
    (p.setMask masked n).Serving st := by
  unfold Pair.setMask
  dsimp only
  split <;> exact ⟨S.irqs, S.nested, S.master, S.slave⟩

theorem Cascaded.setMask (C : p.Cascaded base) (masked : Bool) (n : Nat) :
    (p.setMask masked n).Cascaded base := by
  unfold Pair.setMask
  dsimp only
  split <;> exact ⟨C.ready, C.wired, C.normal, C.vectors⟩

theorem setMask_masks (p : Pair) (masked : Bool) (n : Nat) :
    ∃ v v', p.setMask masked n = ⟨p.master.withMask v, p.slave.withMask v'⟩ := by
  unfold Pair.setMask
  dsimp only
  split
  · exact ⟨_, p.slave.imr, rfl⟩
  · exact ⟨p.master.imr, _, rfl⟩

theorem masked_setMask (masked : Bool) {m : Nat} (hm : m < 16) :
    (p.setMask masked n).Masked m ↔ if m = n then masked = true else p.Masked m := by
  have hset : ∀ (bit j : Nat) (v : Byte), j < 8 →
      ((if masked then setBit bit v else clearBit bit v).getLsbD j = true ↔
        if j = bit then masked = true else v.getLsbD j = true) := by
    intro bit j v hj
    cases masked
    · rw [if_neg Bool.false_ne_true, getLsbD_clearBit hj]
      by_cases h : j = bit <;> simp [h]
    · rw [if_pos rfl]
      by_cases h : j = bit
      · rw [h, getLsbD_setBit (h ▸ hj)]
        simp
      · by_cases hbit : bit < 8
        · rw [getLsbD_setBit hbit]
          simp [h]
        · have hzero : (BitVec.twoPow 8 bit).getLsbD j = false := by
            rw [BitVec.getLsbD_twoPow, decide_eq_false (by omega), Bool.false_and]
          rw [setBit, BitVec.getLsbD_or, hzero, Bool.or_false, if_neg h]
  unfold Pair.setMask Masked
  by_cases hn : n < 8
  · rw [if_pos hn]
    by_cases hm8 : m < 8
    · rw [if_pos hm8, if_pos hm8]
      exact hset n m _ hm8
    · rw [if_neg hm8, if_neg hm8, if_neg (by omega)]
  · rw [if_neg hn]
    by_cases hm8 : m < 8
    · rw [if_pos hm8, if_pos hm8, if_neg (by omega)]
    · rw [if_neg hm8, if_neg hm8]
      refine (hset (n - 8) (m - 8) _ (by omega)).trans ?_
      exact Iff.of_eq (if_congr (by omega) rfl rfl)

theorem asked_setMask (masked : Bool) (n m : Nat) :
    (p.setMask masked n).Asked m ↔ p.Asked m := by
  unfold Pair.setMask
  dsimp only
  split <;> exact Iff.rfl

theorem asked_ask (hn : n < 16) {m : Nat} (hm : m < 16) :
    (p.ask n).Asked m ↔ m = n ∨ p.Asked m := by
  have hset : ∀ {i j : Nat} (q : Pic), i < 8 →
      ((q.request i).irr.getLsbD j = true ↔ j = i ∨ q.irr.getLsbD j = true) := by
    intro i j q hi
    unfold Pic.request
    dsimp only
    rw [getLsbD_setBit hi, Bool.or_eq_true, decide_eq_true_eq, or_comm]
  unfold Pair.ask Asked
  by_cases hn8 : n < 8
  · rw [if_pos hn8]
    by_cases hm8 : m < 8
    · rw [if_pos hm8, if_pos hm8]
      exact hset p.master hn8
    · rw [if_neg hm8, if_neg hm8]
      exact (or_iff_right (by omega)).symm
  · rw [if_neg hn8]
    by_cases hm8 : m < 8
    · rw [if_pos hm8, if_pos hm8]
      exact (or_iff_right (by omega)).symm
    · rw [if_neg hm8, if_neg hm8, hset p.slave (by omega)]
      exact or_congr_left (by omega)

theorem masked_ask (n m : Nat) : (p.ask n).Masked m ↔ p.Masked m := by
  unfold Pair.ask
  split <;> exact Iff.rfl

theorem masked_taken (n m : Nat) : (p.taken n).Masked m ↔ p.Masked m := by
  unfold Pair.taken
  split <;> exact Iff.rfl

/-- With nothing in service, an interrupt that is asked for and that nothing masks makes the
processor take one. -/
theorem Serving.deliver_isSome (S : p.Serving []) (C : p.Cascaded base) (irq : Irq n)
    (asked : p.Asked n) (unmasked : ¬ p.Masked n)
    (cascade : 8 ≤ n → p.master.imr.getLsbD 2 = false) : p.deliver.isSome := by
  have hidle : ∀ j < 8, p.master.isr.getLsbD j = false := by
    intro j hj
    rw [← Bool.not_eq_true, S.master j hj]
    exact List.not_mem_nil
  have hslaveIdle : ∀ j < 8, p.slave.isr.getLsbD j = false := by
    intro j hj
    rw [← Bool.not_eq_true, S.slave j hj]
    exact List.not_mem_nil
  let fromSlave := p.slave.next p.slave.irr.getLsbD
  have hnext : (p.master.next fun i =>
      if i = 2 then fromSlave.isSome else p.master.irr.getLsbD i).isSome := by
    by_cases hn : n < 8
    · rw [Asked, if_pos hn] at asked
      rw [Masked, if_pos hn, Bool.not_eq_true] at unmasked
      exact Pic.next_isSome hn (by rw [if_neg irq.2]; exact asked) unmasked hidle
    · rw [Asked, if_neg hn] at asked
      rw [Masked, if_neg hn, Bool.not_eq_true] at unmasked
      have hslave : fromSlave.isSome :=
        Pic.next_isSome (by have := irq.1; omega) asked unmasked hslaveIdle
      exact Pic.next_isSome (by decide) (by rw [if_pos rfl]; exact hslave)
        (cascade (by omega)) hidle
  obtain ⟨i, hi⟩ := Option.isSome_iff_exists.mp hnext
  obtain ⟨hi8, hrequested, -, -⟩ := Pic.next_some hi
  unfold Pair.deliver
  dsimp only
  rw [hi]
  dsimp only
  by_cases h2 : i = 2
  · subst h2
    rw [if_pos ((C.slaveLine hi8).mpr rfl), if_pos C.wired.2, Option.isSome_map]
    exact hrequested
  · rw [if_neg ((C.slaveLine hi8).not.mpr h2), Option.isSome_some]

end Steps

end Pair

end Pic8259
