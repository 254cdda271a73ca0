import Mp3Kernel.Kernel.InterruptController
import Mp3Kernel.Laws.Wrappers
import Mp3Kernel.Lib.Run
import Mathlib.Data.List.Induction

/-!
# Interrupts from the device to the handler's end

`i8259_init` leaves the controllers as they are wired, from whatever state they were in. From
there on an end of interrupt is always for the handler that sends it: the controllers let an
interrupt break into those in service only if it outranks them all, and the handlers nest.
-/

namespace Mp3Kernel

open Pic8259

/-! ## Masks -/

section Masks

variable {p : Ports} {irqNum n : Nat}

/-- Both controllers take a byte at their data ports as their mask. -/
def Ports.Ready (p : Ports) : Prop := p.pics.master.phase = .ready ∧ p.pics.slave.phase = .ready

/-- The two functions that change a mask. -/
def maskIrq (masked : Bool) : Nat → Ports → Ports := if masked then disableIrq else enableIrq

theorem outb_mask (R : p.Ready) (v : Byte) :
    outb v pic1Data p =
        { p with pics := { p.pics with master := p.pics.master.withMask v } } ∧
      outb v pic2Data p =
        { p with pics := { p.pics with slave := p.pics.slave.withMask v } } := by
  rw [← Pic.data_ready R.1, ← Pic.data_ready R.2]
  exact ⟨rfl, rfl⟩

/-- The interrupt that a call of either is about: for numbers below 40 the one with that number, of
which there are sixteen, and from there on the count of the shift starts over. -/
def aboutIrq (irqNum : Nat) : Nat :=
  if irqNum < irqPerPic then irqNum else irqPerPic + (irqNum - irqPerPic) % 32

theorem aboutIrq_eq (small : irqNum < 40) : aboutIrq irqNum = irqNum := by
  unfold aboutIrq irqPerPic
  split <;> omega

theorem maskIrq_eq (R : p.Ready) (masked : Bool) (irqNum : Nat) :
    maskIrq masked irqNum p = { p with pics := p.pics.setMask masked (aboutIrq irqNum) } := by
  have hsent : maskIrq masked irqNum p =
      outb (if masked then setBit (maskOf irqNum).2 (inb (maskOf irqNum).1 p)
        else clearBit (maskOf irqNum).2 (inb (maskOf irqNum).1 p)) (maskOf irqNum).1 p := by
    cases masked <;> rfl
  rw [hsent]
  unfold Pair.setMask aboutIrq
  by_cases h : irqNum < irqPerPic
  · have hmaster : irqNum < 8 := h
    rw [show maskOf irqNum = (pic1Data, irqNum) from if_pos h, (outb_mask R _).1, if_pos h,
      if_pos hmaster]
    rfl
  · have hslave : ¬ irqPerPic + (irqNum - irqPerPic) % 32 < 8 :=
      Nat.not_lt.mpr (Nat.le_add_right _ _)
    have hbit : irqPerPic + (irqNum - irqPerPic) % 32 - 8 = (irqNum - irqPerPic) % 32 :=
      Nat.add_sub_cancel_left ..
    rw [show maskOf irqNum = (pic2Data, (irqNum - irqPerPic) % 32) from if_neg h,
      (outb_mask R _).2, if_neg h, if_neg hslave, hbit]
    rfl

theorem Ports.Ready.maskIrq (R : p.Ready) (masked : Bool) (irqNum : Nat) :
    (maskIrq masked irqNum p).Ready := by
  rw [maskIrq_eq R]
  unfold Ports.Ready Pair.setMask
  dsimp only
  split <;> exact R

theorem enableIrq_eq (R : p.Ready) (small : irqNum < 40) :
    enableIrq irqNum p = { p with pics := p.pics.setMask false irqNum } := by
  have hsent := maskIrq_eq R false irqNum
  rwa [aboutIrq_eq small] at hsent

/-- A run of calls, each of which says whether it masks its interrupt. -/
def maskCalls (calls : List (Bool × Nat)) (p : Ports) : Ports :=
  calls.foldl (fun p call => maskIrq call.1 call.2 p) p

/-- After any calls of `enable_irq` and `disable_irq`, with any numbers, an interrupt is masked as
the last call about it said, and as it was before if there was none; nothing else of the
controllers has changed, and the calls about an interrupt that there is not have changed
nothing. -/
theorem maskCalls_masked (R : p.Ready) (calls : List (Bool × Nat)) :
    (∀ n < 16, (maskCalls calls p).pics.Masked n ↔
      match calls.reverse.find? (aboutIrq ·.2 = n) with
      | some call => call.1 = true
      | none => p.pics.Masked n) ∧
      ∃ masks : Byte × Byte, maskCalls calls p =
        { p with pics :=
          ⟨p.pics.master.withMask masks.1, p.pics.slave.withMask masks.2⟩ } := by
  have hready : ∀ calls, (maskCalls calls p).Ready := by
    intro calls
    induction calls using List.reverseRecOn with
    | nil => exact R
    | append_singleton calls call ih =>
      rw [maskCalls, List.foldl_append]
      exact ih.maskIrq call.1 call.2
  induction calls using List.reverseRecOn with
  | nil => exact ⟨fun n _ => Iff.rfl, (p.pics.master.imr, p.pics.slave.imr), rfl⟩
  | append_singleton calls call ih =>
    obtain ⟨hmasked, masks, hrest⟩ := ih
    have hlast : maskCalls (calls ++ [call]) p =
        { maskCalls calls p with
          pics := (maskCalls calls p).pics.setMask call.1 (aboutIrq call.2) } := by
      rw [← maskIrq_eq (hready calls), maskCalls, List.foldl_append]
      rfl
    refine ⟨fun n hn => ?_, ?_⟩
    · rw [hlast, Pair.masked_setMask call.1 hn, List.reverse_append, List.reverse_singleton,
        List.singleton_append, List.find?_cons]
      by_cases h : aboutIrq call.2 = n
      · simp only [h, decide_true, if_pos]
      · simp only [h, Ne.symm h, decide_false, if_false]
        exact hmasked n hn
    · obtain ⟨v, v', hset⟩ := Pair.setMask_masks (maskCalls calls p).pics call.1
        (aboutIrq call.2)
      rw [hlast, hset, hrest]
      exact ⟨(v, v'), rfl⟩

/-- Controllers as the firmware may leave them. -/
def firmwarePorts : Ports where
  pics :=
    ⟨⟨.ready, 0x11, 0x08, 0x04, 0x01, 0xB8, 0, 0⟩, ⟨.ready, 0x11, 0x70, 0x02, 0x01, 0x8E, 0, 0⟩⟩
  rtcSelected := 0
  rtcRegister _ := 0

/-- The RTC's interrupt is masked for a while, the keyboard's for good. -/
theorem maskCalls_masked_rtc :
    ¬ (maskCalls [(true, 8), (true, 1), (false, 8)] firmwarePorts).pics.Masked 8 ∧
      (maskCalls [(true, 8), (true, 1), (false, 8)] firmwarePorts).pics.Masked 1 := by
  have hmasked := (maskCalls_masked (p := firmwarePorts) ⟨rfl, rfl⟩
    [(true, 8), (true, 1), (false, 8)]).1
  exact ⟨fun h => Bool.false_ne_true ((hmasked 8 (by decide)).mp h),
    (hmasked 1 (by decide)).mpr rfl⟩

end Masks

/-! ## After `entry` -/

/-- The controllers after the bytes of `i8259_init`: what was in service still is. -/
def initPics (pics : Pair) : Pair :=
  ⟨⟨.ready, 0x11, 0x20, 0x04, 0x01, maskAll, 0, pics.master.isr⟩,
    ⟨.ready, 0x11, 0x28, 0x02, 0x01, maskAll, 0, pics.slave.isr⟩⟩

theorem initPics_cascaded (pics : Pair) : (initPics pics).Cascaded 0x20 :=
  ⟨⟨rfl, rfl⟩, ⟨rfl, show (0x02 : Byte).toNat % 8 = 2 by decide⟩,
    ⟨show (0x01 : Byte).getLsbD 1 = false by decide, show (0x01 : Byte).getLsbD 1 = false by decide⟩,
    show (0x20 : Byte).toNat / 8 * 8 = 0x20 by decide,
    show (0x28 : Byte).toNat / 8 * 8 = 0x20 + 8 by decide⟩

theorem initBytes_pics (p : Ports) :
    initBytes.foldl (fun p b => outb b.1 b.2 p) p = { p with pics := initPics p.pics } := by
  unfold initPics
  rw [← Pic.initialised p.pics.master maskAll 0x20 0x04 maskAll,
    ← Pic.initialised p.pics.slave maskAll 0x28 0x02 maskAll]
  rfl

theorem outb_rtc (v : Byte) (p : Ports) : outb v rtcPort p = { p with rtcSelected := v } := rfl

theorem outb_cmos (v : Byte) (p : Ports) :
    outb v cmosPort p =
      { p with rtcRegister := Function.update p.rtcRegister (p.rtcSelected.toNat % 128) v } :=
  rfl

/-- Both functions of the devices unmask an interrupt, and `RTC_init` sets two registers. -/
theorem rtcInit_eq {p : Ports} (R : p.Ready) :
    rtcInit p = ⟨p.pics.setMask false rtcIrqNum, 0x8D,
      Function.update (Function.update p.rtcRegister 0x0B 0x40) 0x0A 0x08⟩ := by
  let registers := Function.update (Function.update p.rtcRegister ((0x8B : Byte).toNat % 128) 0x40)
    ((0x8A : Byte).toNat % 128) 0x08
  have hmask : enableIrq rtcIrqNum ⟨p.pics, 0x8A, registers⟩ =
      ⟨p.pics.setMask false rtcIrqNum, 0x8A, registers⟩ :=
    @enableIrq_eq ⟨p.pics, 0x8A, registers⟩ rtcIrqNum R (by decide)
  have hindex : (0x8B : Byte).toNat % 128 = 0x0B ∧ (0x8A : Byte).toNat % 128 = 0x0A := by decide
  unfold rtcInit
  simp only [outb_rtc, outb_cmos]
  rw [hmask]
  simp only [registers, hindex.1, hindex.2]

/-- `entry` does three calls of `enable_irq` on the controllers that `i8259_init` has set up. -/
theorem entryPorts_eq (p : Ports) :
    entryPorts p =
      ⟨(((initPics p.pics).setMask false 2).setMask false keybdIrq).setMask false rtcIrqNum, 0x8D,
        Function.update (Function.update p.rtcRegister 0x0B 0x40) 0x0A 0x08⟩ := by
  have hinit : i8259Init p = { p with pics := (initPics p.pics).setMask false 2 } := by
    unfold i8259Init
    rw [initBytes_pics, enableIrq_eq (p := { p with pics := initPics p.pics })
      (initPics_cascaded p.pics).ready (by decide)]
  have hslave := (initPics_cascaded p.pics).setMask false 2
  have hkeyboard : keyboardInitPorts (i8259Init p) =
      { p with pics := ((initPics p.pics).setMask false 2).setMask false keybdIrq } := by
    unfold keyboardInitPorts
    rw [hinit, enableIrq_eq (p := { p with pics := (initPics p.pics).setMask false 2 })
      hslave.ready (by decide)]
  have hboth := hslave.setMask false keybdIrq
  unfold entryPorts
  rw [hkeyboard]
  exact @rtcInit_eq { p with pics := ((initPics p.pics).setMask false 2).setMask false keybdIrq }
    hboth.ready

/-- From whatever state the controllers and the RTC were in, `entry` leaves the controllers, before
it calls `PIT_init`, as they are wired, with the vectors from 0x20 on, no request and the
interrupts of the keyboard, the slave and the RTC unmasked; what was in service still is. The RTC
has its periodic interrupt on, at 256 Hz, and nothing else changed. -/
theorem entryPorts_controllers (p : Ports) :
    (entryPorts p).pics.Cascaded 0x20 ∧
      (∀ n < 16, ¬ (entryPorts p).pics.Masked n ↔ n = keybdIrq ∨ n = 2 ∨ n = rtcIrqNum) ∧
      (∀ n < 16, ¬ (entryPorts p).pics.Asked n) ∧
      (entryPorts p).pics.master.isr = p.pics.master.isr ∧
      (entryPorts p).pics.slave.isr = p.pics.slave.isr ∧
      (entryPorts p).rtcRegister =
        Function.update (Function.update p.rtcRegister 0x0B 0x40) 0x0A 0x08 := by
  have hall : ∀ n < 16, (initPics p.pics).Masked n := by
    have hset : ∀ i < 8, maskAll.getLsbD i = true := by decide
    intro n hn
    unfold Pair.Masked
    split
    · exact hset n ‹_›
    · exact hset (n - 8) (by omega)
  have hnone : ∀ n, ¬ (initPics p.pics).Asked n := by
    have hclear : ∀ i, ¬ (0 : Byte).getLsbD i = true := by simp
    intro n
    unfold Pair.Asked
    split
    · exact hclear n
    · exact hclear (n - 8)
  rw [entryPorts_eq]
  refine ⟨?_, fun n hn => ?_, fun n _ => ?_, rfl, rfl, rfl⟩
  · exact (((initPics_cascaded p.pics).setMask false 2).setMask false keybdIrq).setMask false rtcIrqNum
  · rw [Pair.masked_setMask false hn, Pair.masked_setMask false hn, Pair.masked_setMask false hn]
    simp only [hall n hn, keybdIrq, rtcIrqNum]
    grind
  · rw [Pair.asked_setMask, Pair.asked_setMask, Pair.asked_setMask]
    exact hnone n

/-! ## Runs -/

/-- The ports, and the vectors of the handlers that run and have not ended their interrupts, the
innermost first. -/
structure IrqState where
  ports : Ports
  running : List Nat

/-- What happens to interrupts: a device asks for one, the processor takes one, the innermost
handler ends its own, or one is masked or not any more. -/
inductive IrqEvent
  | ask (irqNum : Nat)
  | take
  | finish
  | mask (masked : Bool) (irqNum : Nat)

/-- The handler at the vector ends the interrupt that it ends. -/
def irqStep (pitIrqNum : Nat) : IrqEvent → IrqState → Option IrqState
  | .ask n, s =>
    if n < 16 ∧ n ≠ 2 then some { s with ports := { s.ports with pics := s.ports.pics.ask n } }
    else none
  | .take, s => s.ports.pics.deliver.map fun d => ⟨{ s.ports with pics := d.2 }, d.1 :: s.running⟩
  | .finish, s =>
    match s.running with
    | [] => none
    | v :: vs =>
      ((irqs.lookup v).bind fun r => ends pitIrqNum r.2).map fun n => ⟨sendEoi n s.ports, vs⟩
  | .mask masked n, s => some { s with ports := maskIrq masked n s.ports }

/-- Which interrupts have been asked for since they were last taken, and how often each has been
asked for and taken. -/
structure Tally where
  waiting : Nat → Bool
  asks : Nat → Nat
  takes : Nat → Nat

namespace Tally

def ask (n : Nat) (h : Tally) : Tally :=
  { h with waiting := Function.update h.waiting n true
           asks := Function.update h.asks n (h.asks n + 1) }

def take (n : Nat) (h : Tally) : Tally :=
  { h with waiting := Function.update h.waiting n false
           takes := Function.update h.takes n (h.takes n + 1) }

/-- No interrupt is taken more often than it was asked for, and one that waits is still to be
taken. -/
def Counted (h : Tally) : Prop := ∀ n, h.takes n + (h.waiting n).toNat ≤ h.asks n

variable {h : Tally}

theorem Counted.ask (C : h.Counted) (n : Nat) : (h.ask n).Counted := by
  intro m
  unfold Tally.ask
  dsimp only
  by_cases hmn : m = n
  · subst hmn
    have hbefore := C m
    simp only [Function.update_self, Bool.toNat_true]
    omega
  · rw [Function.update_of_ne hmn, Function.update_of_ne hmn]
    exact C m

theorem Counted.take (C : h.Counted) {n : Nat} (waiting : h.waiting n = true) :
    (h.take n).Counted := by
  intro m
  have hbefore := C m
  unfold Tally.take
  dsimp only
  by_cases hmn : m = n
  · subst hmn
    rw [waiting] at hbefore
    simp only [Function.update_self, Bool.toNat_false]
    exact hbefore
  · rw [Function.update_of_ne hmn, Function.update_of_ne hmn]
    exact hbefore

end Tally

def noteIrq (e : IrqEvent) (_ t : IrqState) (h : Tally) : Tally :=
  match e with
  | .ask n => h.ask n
  | .take => h.take (t.running.head?.getD 0 - 0x20)
  | _ => h

/-- The interrupts that have a handler. -/
def handledIrqs : List Nat := [0, keybdIrq, rtcIrqNum]

/-- The kernel unmasks or masks those only. -/
def MasksHandled (_ : IrqState × Tally) : IrqEvent → Prop
  | .mask _ n => n ∈ handledIrqs
  | _ => True

/-- What holds in every state: the interrupts in service are those of the handlers that run. -/
structure IrqInv (s : IrqState × Tally) : Prop where
  cascaded : s.1.ports.pics.Cascaded 0x20
  serving : ∃ st, s.1.running = st.map (0x20 + ·) ∧ s.1.ports.pics.Serving st ∧
    ∀ n ∈ st, n ∈ handledIrqs
  masked : ∀ n < 16, n ≠ 2 → n ∉ handledIrqs → s.1.ports.pics.Masked n
  slaveLine : ¬ s.1.ports.pics.Masked 2
  asked : ∀ n, Irq n → (s.1.ports.pics.Asked n ↔ s.2.waiting n = true)
  counted : s.2.Counted

section Steps

variable {pitIrqNum : Nat} {e : IrqEvent} {s t : IrqState × Tally} {ports : Ports} {st : List Nat}
  {tally : Tally}

theorem sendEoi_eq (n : Nat) (p : Ports) : sendEoi n p = { p with pics := p.pics.eoi n } := by
  unfold sendEoi Pair.eoi
  by_cases h : n < 8
  · rw [if_neg (show ¬ irqPerPic ≤ n from Nat.not_le.mpr h), if_pos h]
    rfl
  · rw [if_pos (show irqPerPic ≤ n from Nat.not_lt.mp h), if_neg h]
    rfl

/-- The handler at an interrupt's vector ends one of the same controller. -/
theorem handled_ends (pit : pitIrqNum < irqPerPic) {n : Nat} (handled : n ∈ handledIrqs) :
    ∃ r m, irqs.lookup (0x20 + n) = some r ∧ ends pitIrqNum r.2 = some m ∧
      ∀ p : Pair, p.eoi m = p.eoi n := by
  simp only [handledIrqs, List.mem_cons, List.not_mem_nil, or_false] at handled
  obtain rfl | rfl | rfl := handled
  · refine ⟨(.pitIrq, .pitHandler), pitIrqNum, by decide, rfl, fun p => ?_⟩
    exact if_pos pit
  · exact ⟨(.keyboardIrq, .keyboardHandler), keybdIrq, by decide, rfl, fun _ => rfl⟩
  · exact ⟨(.rtcIrq, .rtcHandler), rtcIrqNum, by decide, rfl, fun _ => rfl⟩

/-- The innermost handler can end its interrupt. -/
theorem irqStep_finish (pit : pitIrqNum < irqPerPic) {n : Nat} (handled : n ∈ handledIrqs) :
    irqStep pitIrqNum .finish ⟨ports, (n :: st).map (0x20 + ·)⟩ =
      some ⟨{ ports with pics := ports.pics.eoi n }, st.map (0x20 + ·)⟩ := by
  obtain ⟨r, m, hlookup, hends, heoi⟩ := handled_ends pit handled
  unfold irqStep
  rw [List.map_cons]
  dsimp only
  rw [hlookup, Option.bind_some, hends, Option.map_some, sendEoi_eq, heoi]

theorem IrqInv.ask {running : List Nat} (I : IrqInv (⟨ports, running⟩, tally)) {n : Nat}
    (hn : n < 16) :
    IrqInv (⟨{ ports with pics := ports.pics.ask n }, running⟩, tally.ask n) := by
  obtain ⟨st, hrunning, hserving, hhandled⟩ := I.serving
  refine ⟨I.cascaded.ask n, ⟨st, hrunning, hserving.ask n, hhandled⟩, ?_, ?_, ?_, I.counted.ask n⟩
  · exact fun m hm h2 hnot => (Pair.masked_ask n m).mpr (I.masked m hm h2 hnot)
  · exact fun hmask => I.slaveLine ((Pair.masked_ask n 2).mp hmask)
  · intro m hm
    refine (Pair.asked_ask hn hm.1).trans ?_
    unfold Tally.ask
    dsimp only
    by_cases hmn : m = n
    · subst hmn
      simp
    · rw [Function.update_of_ne hmn, or_iff_right hmn]
      exact I.asked m hm

theorem IrqInv.take (I : IrqInv (⟨ports, st.map (0x20 + ·)⟩, tally)) {v : Nat} {pics : Pair}
    (h : ports.pics.deliver = some (v, pics)) :
    ∃ n, v = 0x20 + n ∧
      IrqInv (⟨{ ports with pics := pics }, (n :: st).map (0x20 + ·)⟩, tally.take n) := by
  obtain ⟨st', hrunning, hserving, hhandled⟩ := I.serving
  obtain rfl : st = st' := List.map_injective_iff.mpr (fun _ _ => Nat.add_left_cancel) hrunning
  obtain ⟨n, rfl, hirq, hasked, hunmasked, hfree, rfl⟩ := Pair.deliver_some I.cascaded h
  have hn : n ∈ handledIrqs := by
    by_contra hnot
    exact hunmasked (I.masked n hirq.1 hirq.2 hnot)
  have hwaiting := (I.asked n hirq).mp hasked
  have hserving' := (hserving.taken I.cascaded hirq hfree).2
  refine ⟨n, rfl, I.cascaded.taken n, ⟨n :: st, rfl, hserving', ?_⟩, ?_, ?_, ?_,
    I.counted.take hwaiting⟩
  · intro m hm
    rcases List.mem_cons.mp hm with rfl | hm
    · exact hn
    · exact hhandled m hm
  · exact fun m hm h2 hnot => (Pair.masked_taken n m).mpr (I.masked m hm h2 hnot)
  · exact fun hmask => I.slaveLine ((Pair.masked_taken n 2).mp hmask)
  · intro m hm
    refine (Pair.asked_taken n hm).trans ?_
    unfold Tally.take
    dsimp only
    by_cases hmn : m = n
    · subst hmn
      simp
    · rw [Function.update_of_ne hmn, and_iff_left hmn]
      exact I.asked m hm

theorem IrqInv.finish {n : Nat} (I : IrqInv (⟨ports, (n :: st).map (0x20 + ·)⟩, tally)) :
    n ∈ handledIrqs ∧
      IrqInv (⟨{ ports with pics := ports.pics.eoi n }, st.map (0x20 + ·)⟩, tally) := by
  obtain ⟨st', hrunning, hserving, hhandled⟩ := I.serving
  obtain rfl : n :: st = st' :=
    List.map_injective_iff.mpr (fun _ _ => Nat.add_left_cancel) hrunning
  refine ⟨hhandled n List.mem_cons_self, I.cascaded.eoi n,
    ⟨st, rfl, hserving.eoi, fun m hm => hhandled m (List.mem_cons_of_mem _ hm)⟩, ?_, ?_, ?_,
    I.counted⟩
  · exact fun m hm h2 hnot => (Pair.asked_masked_eoi n m).2.mpr (I.masked m hm h2 hnot)
  · exact fun hmask => I.slaveLine ((Pair.asked_masked_eoi n 2).2.mp hmask)
  · exact fun m hm => (Pair.asked_masked_eoi n m).1.trans (I.asked m hm)

theorem IrqInv.mask {running : List Nat} (I : IrqInv (⟨ports, running⟩, tally)) (masked : Bool)
    {n : Nat} (handled : n ∈ handledIrqs) :
    IrqInv (⟨maskIrq masked n ports, running⟩, tally) := by
  have hready : ports.Ready := I.cascaded.ready
  have hn2 : 2 ≠ n := by
    rintro rfl
    exact absurd handled (by decide)
  have hsmall : n < 40 := by
    have hall : ∀ n ∈ handledIrqs, n < 40 := by decide
    exact hall n handled
  obtain ⟨st, hrunning, hserving, hhandled⟩ := I.serving
  rw [maskIrq_eq hready, aboutIrq_eq hsmall]
  refine ⟨I.cascaded.setMask masked n, ⟨st, hrunning, hserving.setMask masked n, hhandled⟩, ?_, ?_,
    ?_, I.counted⟩
  · intro m hm h2 hnot
    refine (Pair.masked_setMask masked hm).mpr ?_
    rw [if_neg (by rintro rfl; exact hnot handled)]
    exact I.masked m hm h2 hnot
  · intro hmask
    have hbefore := (Pair.masked_setMask masked (by decide)).mp hmask
    rw [if_neg hn2] at hbefore
    exact I.slaveLine hbefore
  · exact fun m hm => (Pair.asked_setMask masked n m).trans (I.asked m hm)

/-- Every step keeps the invariant. -/
theorem IrqInv.step (pit : pitIrqNum < irqPerPic) (I : IrqInv s) (ok : MasksHandled s e)
    (h : Runs.withHistory (irqStep pitIrqNum) noteIrq e s = some t) : IrqInv t := by
  obtain ⟨⟨ports, running⟩, tally⟩ := s
  obtain ⟨t, tally'⟩ := t
  obtain ⟨hstep, hnote⟩ := Runs.withHistory_some h
  dsimp only at hstep hnote
  subst hnote
  obtain ⟨st, rfl, -, -⟩ := I.serving
  cases e with
  | ask n =>
    unfold irqStep at hstep
    dsimp only at hstep
    split at hstep
    next hn =>
      obtain rfl := Option.some.inj hstep
      exact I.ask hn.1
    next => cases hstep
  | take =>
    obtain ⟨⟨v, pics⟩, hdeliver, rfl⟩ := Option.map_eq_some_iff.mp hstep
    obtain ⟨n, rfl, hinv⟩ := I.take hdeliver
    have hnoted : noteIrq .take ⟨ports, st.map (0x20 + ·)⟩
        ⟨{ ports with pics := pics }, (0x20 + n) :: st.map (0x20 + ·)⟩ tally = tally.take n :=
      congrArg tally.take (Nat.add_sub_cancel_left 0x20 n)
    rw [hnoted]
    exact hinv
  | finish =>
    cases st with
    | nil => cases hstep
    | cons n st =>
      obtain ⟨hn, hinv⟩ := I.finish
      rw [irqStep_finish pit hn] at hstep
      obtain rfl := Option.some.inj hstep
      exact hinv
  | mask masked n =>
    obtain rfl := Option.some.inj hstep
    exact I.mask masked ok

/-- As `entry` leaves them before `PIT_init`, no handler runs. -/
def bootIrqs (p : Ports) : IrqState × Tally :=
  (⟨entryPorts p, []⟩, ⟨fun _ => false, fun _ => 0, fun _ => 0⟩)

theorem bootIrqs_inv {p : Ports} (idle : p.pics.master.isr = 0 ∧ p.pics.slave.isr = 0) :
    IrqInv (bootIrqs p) := by
  obtain ⟨hcascaded, hmasked, hasked, hmaster, hslave, -⟩ := entryPorts_controllers p
  have hclear : ∀ i, (0 : Byte).getLsbD i = false := fun i => BitVec.getLsbD_zero
  refine ⟨hcascaded, ⟨[], rfl, ⟨?_, List.Pairwise.nil, fun i _ => ?_, fun j _ => ?_⟩, ?_⟩, ?_, ?_,
    ?_, fun n => Nat.le_refl 0⟩
  · exact fun n hn => absurd hn List.not_mem_nil
  · show (entryPorts p).pics.master.isr.getLsbD i = true ↔ _
    rw [hmaster, idle.1, hclear]
    simp
  · show (entryPorts p).pics.slave.isr.getLsbD j = true ↔ _
    rw [hslave, idle.2, hclear]
    simp
  · exact fun n hn => absurd hn List.not_mem_nil
  · intro n hn h2 hnot
    by_contra hunmasked
    have hone := (hmasked n hn).mp hunmasked
    simp only [handledIrqs, List.mem_cons, List.not_mem_nil, or_false] at hnot
    omega
  · exact (hmasked 2 (by decide)).mpr (.inr (.inl rfl))
  · exact fun n hn => iff_of_false (hasked n hn.1) Bool.false_ne_true

/-- However devices ask for interrupts, the processor takes them, handlers end them and the
kernel masks and unmasks those it has handlers for, from `entry` on: the interrupts in service are
those of the handlers that run, each of which broke into one of a lower priority, and each vector
leads to a handler; the innermost one can end its interrupt, and if none runs then an
interrupt that was asked for and is not masked makes the processor take one. An interrupt stays
asked for until it is taken, and is taken at most as often as it was asked for. That is so if
nothing is in service when `entry` starts, and `PIT_handler` ends an interrupt of the master. -/
theorem irqs_served (pit : pitIrqNum < irqPerPic) {p : Ports}
    (idle : p.pics.master.isr = 0 ∧ p.pics.slave.isr = 0)
    (run : Runs.Reach (Runs.withHistory (irqStep pitIrqNum) noteIrq) MasksHandled (bootIrqs p) s) :
    s.1.ports.pics.Serving (s.1.running.map (· - 0x20)) ∧
      (∀ v ∈ s.1.running, ∃ r h, (v, r, h) ∈ irqs) ∧
      (s.1.running ≠ [] → ∃ t, irqStep pitIrqNum .finish s.1 = some t) ∧
      (s.1.running = [] → ∀ n, Irq n → s.1.ports.pics.Asked n → ¬ s.1.ports.pics.Masked n →
        ∃ t, irqStep pitIrqNum .take s.1 = some t) ∧
      (∀ n, Irq n → (s.1.ports.pics.Asked n ↔ s.2.waiting n = true)) ∧
      ∀ n, s.2.takes n + (s.2.waiting n).toNat ≤ s.2.asks n := by
  have I : IrqInv s :=
    run.invariant IrqInv (bootIrqs_inv idle) fun _ _ _ I ok h => I.step pit ok h
  obtain ⟨⟨ports, running⟩, tally⟩ := s
  obtain ⟨st, hrunning, hserving, hhandled⟩ := I.serving
  dsimp only at hrunning hserving
  subst hrunning
  refine ⟨?_, ?_, ?_, ?_, I.asked, I.counted⟩
  · have hirqs : (st.map (0x20 + ·)).map (· - 0x20) = st := by
      simp [Function.comp_def]
    dsimp only
    rw [hirqs]
    exact hserving
  · intro v hv
    obtain ⟨n, hn, rfl⟩ := List.mem_map.mp hv
    have hall : ∀ n ∈ handledIrqs, ∃ e ∈ irqs, e.1 = 0x20 + n := by decide
    obtain ⟨⟨v, r, h⟩, hmem, rfl⟩ := hall n (hhandled n hn)
    exact ⟨r, h, hmem⟩
  · intro hsome
    cases st with
    | nil => exact absurd rfl hsome
    | cons n st => exact ⟨_, irqStep_finish pit (hhandled n List.mem_cons_self)⟩
  · intro hnone n irq hasked hunmasked
    obtain rfl := List.map_eq_nil_iff.mp hnone
    have hline : 8 ≤ n → ports.pics.master.imr.getLsbD 2 = false :=
      fun _ => Bool.not_eq_true _ ▸ I.slaveLine
    obtain ⟨d, hd⟩ := Option.isSome_iff_exists.mp
      (hserving.deliver_isSome I.cascaded irq hasked hunmasked hline)
    exact ⟨_, congrArg (Option.map _) hd⟩

/-- A key is pressed while the interrupt of the RTC is in service, and breaks into it. -/
theorem irqs_served_key :
    ∃ s : IrqState × Tally,
      Runs.Reach (Runs.withHistory (irqStep 0) noteIrq) MasksHandled (bootIrqs firmwarePorts) s ∧
      s.1.running = [0x21, 0x28] ∧ s.1.ports.pics.Serving [1, 8] := by
  let events : List IrqEvent := [.ask rtcIrqNum, .take, .ask keybdIrq, .take]
  have hrun : (events.foldlM (fun s e => Runs.withHistory (irqStep 0) noteIrq e s)
      (bootIrqs firmwarePorts)).map (·.1.running) = some [0x21, 0x28] := by
    decide +kernel
  obtain ⟨s, hs, hrunning⟩ := Option.map_eq_some_iff.mp hrun
  have hreach : Runs.Reach (Runs.withHistory (irqStep 0) noteIrq) MasksHandled
      (bootIrqs firmwarePorts) s := by
    refine Runs.Reach.of_events .refl (fun e he s => ?_) hs
    simp only [events, List.mem_cons, List.not_mem_nil, or_false] at he
    rcases he with rfl | rfl | rfl | rfl <;> trivial
  have hserved := (@irqs_served 0 s (by decide) firmwarePorts ⟨rfl, rfl⟩ hreach).1
  rw [hrunning] at hserved
  exact ⟨s, hreach, hrunning, hserved⟩

end Steps

end Mp3Kernel
