import Mp3Kernel.Laws.BlinkList
import Mp3Kernel.Lib.Run
import Mathlib.Logic.Function.Iterate

/-!
# What blinks on the screen

The screen shows each light as it is until one light is made to follow another that is on: the
light is then shown off. A light that ticks is on for its first length and off for its second one,
over and over; lengths count down as signed numbers, so that those from 0x8001 on, and zero, are
as long as one tick.
-/

namespace Mp3Kernel.Blink

open LinkedList

/-! ## Time -/

/-- How many ticks a length lasts. -/
def ticksOf (length : UInt16) : Nat :=
  if length.toNat = 0 ∨ 0x8000 < length.toNat then 1 else length.toNat

theorem ticksOf_pos (length : UInt16) : 0 < ticksOf length := by
  unfold ticksOf
  split <;> omega

namespace Light

variable {b : Light}

theorem due_iff : b.due = true ↔ ticksOf b.countdown = 1 := by
  have hsub : (b.countdown - 1).toNat = (65535 + b.countdown.toNat) % 65536 :=
    UInt16.toNat_sub ..
  have hlt := b.countdown.toNat_lt
  have hpositive : Fish.positive (b.countdown - 1) = true ↔
      (b.countdown - 1).toNat ≠ 0 ∧ (b.countdown - 1).toNat < 0x8000 := by
    unfold Fish.positive
    rw [Bool.and_eq_true, bne_iff_ne, decide_eq_true_eq, UInt16.lt_iff_toNat_lt, Ne,
      ← UInt16.toNat_inj]
    rfl
  unfold due ticksOf
  rw [Bool.not_eq_true', ← Bool.not_eq_true, hpositive]
  split <;> omega

theorem ticksOf_pred (running : b.due = false) :
    ticksOf (b.countdown - 1) + 1 = ticksOf b.countdown := by
  have hone : ticksOf b.countdown ≠ 1 := by
    rw [← Bool.not_eq_true, due_iff] at running
    exact running
  have hsub : (b.countdown - 1).toNat = (65535 + b.countdown.toNat) % 65536 :=
    UInt16.toNat_sub ..
  have hlt := b.countdown.toNat_lt
  unfold ticksOf at hone ⊢
  split at hone
  · exact absurd rfl hone
  · rw [if_neg (by omega), if_neg (by omega)]
    omega

/-- The bit of the status that says that a light is on changes. -/
theorem on_toggle (status : UInt16) :
    ((status ^^^ 0x01) &&& 0x01 != 0) = !(status &&& 0x01 != 0) := by
  have hbit : ∀ s : UInt16, (s &&& 0x01 != 0) = decide (s.toNat % 2 = 1) := by
    intro s
    have hand : (s &&& 0x01).toNat = s.toNat % 2 := by
      rw [UInt16.toNat_and]
      exact Nat.and_one_is_mod _
    rw [Bool.eq_iff_iff, bne_iff_ne, decide_eq_true_eq, Ne, ← UInt16.toNat_inj, hand]
    show ¬ s.toNat % 2 = 0 ↔ _
    omega
  have hone : (1 : UInt16).toNat % 2 = 1 := rfl
  rw [hbit, hbit, UInt16.toNat_xor, Bool.eq_iff_iff, Bool.not_eq_true', decide_eq_true_eq,
    decide_eq_false_iff_not, Nat.xor_mod_two_eq_one]
  exact not_congr (iff_true_right hone)

theorem on_tick (b : Light) : b.tick.on = (b.on != b.due) := by
  unfold tick
  cases b.due with
  | true => exact (on_toggle b.status).trans (by cases h : b.on <;> simp_all [on])
  | false => simp [on]

theorem left_tick (b : Light) :
    ticksOf b.tick.countdown =
      if b.due then ticksOf (if b.on then b.offLength else b.onLength)
      else ticksOf b.countdown - 1 := by
  unfold tick
  cases hdue : b.due with
  | true => rfl
  | false =>
    have hpred := ticksOf_pred hdue
    simp only [Bool.false_eq_true, if_false]
    omega

/-- Only the countdown and the status of a light change. -/
theorem tick_same (b : Light) :
    b.tick = { b with countdown := b.tick.countdown, status := b.tick.status } := by
  unfold tick
  split <;> rfl

/-- The light is at a place of its period, which it is on for at first and off for then. -/
structure At (b : Light) (place : Nat) : Prop where
  on : b.on = decide (place < ticksOf b.onLength)
  left : ticksOf b.countdown =
    if place < ticksOf b.onLength then ticksOf b.onLength - place
    else ticksOf b.onLength + ticksOf b.offLength - place

def period (b : Light) : Nat := ticksOf b.onLength + ticksOf b.offLength

theorem At.tick {place : Nat} (A : b.At place) (inside : place < b.period) :
    b.tick.At ((place + 1) % b.period) := by
  have hon := ticksOf_pos b.onLength
  have hoff := ticksOf_pos b.offLength
  have hlengths : b.tick.onLength = b.onLength ∧ b.tick.offLength = b.offLength := by
    rw [tick_same b]
    exact ⟨rfl, rfl⟩
  have hdue : b.due = decide (ticksOf b.countdown = 1) := by
    rw [Bool.eq_iff_iff, due_iff, decide_eq_true_eq]
  have hmod : (place + 1) % b.period = if place + 1 = b.period then 0 else place + 1 := by
    split
    next h => rw [h, Nat.mod_self]
    next h => exact Nat.mod_eq_of_lt (by omega)
  have hleft := A.left
  rw [hmod]
  unfold period at inside ⊢
  constructor
  · rw [on_tick, hlengths.1, A.on, hdue, hleft]
    grind
  · rw [left_tick, hlengths.1, hlengths.2, A.on, hdue, hleft]
    grind

theorem iterate_same (b : Light) (n : Nat) :
    Light.tick^[n] b =
      { b with countdown := (Light.tick^[n] b).countdown, status := (Light.tick^[n] b).status } := by
  induction n with
  | zero => rfl
  | succ n ih =>
    rw [Function.iterate_succ_apply', tick_same, ih]

theorem At.iterate {place : Nat} (A : b.At place) (inside : place < b.period) (n : Nat) :
    (Light.tick^[n] b).At ((place + n) % b.period) := by
  induction n with
  | zero => exact (Nat.mod_eq_of_lt inside).symm ▸ A
  | succ n ih =>
    have hperiod : (Light.tick^[n] b).period = b.period := by
      rw [iterate_same b n]
      rfl
    have hinside : (place + n) % b.period < (Light.tick^[n] b).period :=
      hperiod.symm ▸ Nat.mod_lt _ (Nat.zero_lt_of_lt inside)
    have hnext := ih.tick hinside
    rw [hperiod, Nat.mod_add_mod] at hnext
    rw [Function.iterate_succ_apply']
    exact hnext

theorem lit_at (b : Light) : b.lit.At 0 := by
  have hpos := ticksOf_pos b.onLength
  constructor
  · show ((1 : UInt16) &&& 0x01 != 0) = decide (0 < ticksOf b.onLength)
    rw [decide_eq_true hpos]
    rfl
  · show ticksOf b.onLength = if 0 < ticksOf b.onLength then ticksOf b.onLength - 0 else _
    rw [if_pos hpos, Nat.sub_zero]

/-- What the screen should show where the light is. -/
def char (b : Light) : UInt8 := if b.on then b.onChar else b.offChar

/-- A light that was added so many ticks ago. -/
theorem char_lit (b : Light) (n : Nat) :
    (Light.tick^[n] b.lit).char =
      if n % b.period < ticksOf b.onLength then b.onChar else b.offChar := by
  have hinside : 0 < b.lit.period := Nat.add_pos_left (ticksOf_pos b.onLength) _
  have hon := ((lit_at b).iterate hinside n).on
  rw [Nat.zero_add] at hon
  unfold char
  rw [hon, iterate_same]
  show (if decide (n % b.period < ticksOf b.onLength) = true then b.onChar else b.offChar) = _
  simp only [decide_eq_true_eq]

end Light

/-! ## The screen -/

section Screen

variable {L : Lights} {l : List Light} {b : Light} {v : Nat → UInt8}

theorem poke_of_ne {b' : Light} (h : b'.location ≠ b.location) (c : UInt8) :
    b'.poke c v (2 * b.location.toNat) = v (2 * b.location.toNat) := by
  refine Function.update_of_ne (fun heq => h ?_) ..
  exact (UInt16.toNat_inj.mp (Nat.eq_of_mul_eq_mul_left Nat.two_pos heq)).symm

/-- A light that is added is shown on. -/
theorem poke_lit (b : Light) (v : Nat → UInt8) :
    b.poke b.onChar v (2 * b.lit.location.toNat) = b.lit.char := by
  have hon : b.lit.on = true := show ((1 : UInt16) &&& 0x01 != 0) = true by decide
  unfold Light.char
  rw [hon, if_pos rfl]
  exact Function.update_self ..

/-- A tick of a light leaves it shown as it is then. -/
theorem shown_self (agrees : v (2 * b.location.toNat) = b.char) :
    b.shown v (2 * b.location.toNat) = b.tick.char := by
  have hchars : b.tick.onChar = b.onChar ∧ b.tick.offChar = b.offChar := by
    rw [Light.tick_same b]
    exact ⟨rfl, rfl⟩
  unfold Light.shown Light.char
  rw [Light.on_tick, hchars.1, hchars.2]
  cases b.due with
  | true => cases b.on <;> exact Function.update_self ..
  | false => cases h : b.on <;> simpa [Light.char, h] using agrees

theorem shown_of_ne {b' : Light} (h : b'.location ≠ b.location) :
    b'.shown v (2 * b.location.toNat) = v (2 * b.location.toNat) := by
  unfold Light.shown
  split
  · exact poke_of_ne h _
  · rfl

theorem foldl_shown_of_ne (h : ∀ b' ∈ l, b'.location ≠ b.location) :
    l.foldl (fun v b => b.shown v) v (2 * b.location.toNat) = v (2 * b.location.toNat) := by
  induction l generalizing v with
  | nil => rfl
  | cons b' l ih =>
    rw [List.foldl_cons, ih fun b'' hb => h b'' (List.mem_cons_of_mem b' hb)]
    exact shown_of_ne (h b' List.mem_cons_self)

/-- No two lights are at one location. -/
def Lights.Distinct (L : Lights) : Prop := (L.list.map Light.location).Nodup

/-- Every light is shown as it is. -/
def Lights.Agrees (L : Lights) : Prop := ∀ b ∈ L.list, L.vmem (2 * b.location.toNat) = b.char

theorem foldl_shown (distinct : (l.map Light.location).Nodup)
    (agrees : ∀ b ∈ l, v (2 * b.location.toNat) = b.char) :
    ∀ b ∈ l, l.foldl (fun v b => b.shown v) v (2 * b.location.toNat) = b.tick.char := by
  induction l generalizing v with
  | nil => exact fun b hb => absurd hb List.not_mem_nil
  | cons b' l ih =>
    rw [List.map_cons, List.nodup_cons] at distinct
    have hne : ∀ b ∈ l, b.location ≠ b'.location := by
      intro b hb heq
      exact distinct.1 (heq ▸ List.mem_map_of_mem hb)
    intro b hb
    rw [List.foldl_cons]
    rcases List.mem_cons.mp hb with rfl | hb
    · rw [foldl_shown_of_ne hne]
      exact shown_self (agrees b List.mem_cons_self)
    · refine ih distinct.2 (fun b hb => ?_) b hb
      rw [shown_of_ne (hne b hb).symm]
      exact agrees b (List.mem_cons_of_mem b' hb)

/-- The light that was added last, among lights that are elsewhere. -/
theorem ticks_first (n : Nat) (alone : ∀ b' ∈ l, b'.location ≠ b.location)
    (agrees : v (2 * b.location.toNat) = b.char) :
    (Lights.calls (List.replicate n .tasklet) ⟨b :: l, v⟩).1.vmem (2 * b.location.toNat) =
      (Light.tick^[n] b).char := by
  induction n generalizing b l v with
  | zero => exact agrees
  | succ n ih =>
    rw [Function.iterate_succ_apply, ← tick_location b]
    refine @ih (l.map Light.tick) b.tick _ (fun b' hb' => ?_) ?_
    · obtain ⟨b'', hb'', rfl⟩ := List.mem_map.mp hb'
      rw [tick_location, tick_location]
      exact alone b'' hb''
    · rw [tick_location, List.foldl_cons, foldl_shown_of_ne alone]
      exact shown_self agrees

/-- A light added where no other one is, at a location of the screen other than zero and to a list
that has room and that no light at location zero was added to, shows its two characters in turn,
from then on: over any number of ticks it is on for its first length and off for its second
one. -/
theorem light_blinks {s : Fish} {fuel : Nat} (enough : places < fuel) (S : s.Shows L)
    (room : L.list.length < places) {b : BlinkStruct} (nonzero : b.location ≠ 0)
    (location : b.location.toNat < places) (alone : ∀ b' ∈ L.list, b'.location ≠ b.location)
    (n : Nat) :
    ∃ s' rs, s.calls fuel (.add b :: List.replicate n .tasklet) = some (s', rs) ∧
      s'.vmem (2 * b.location.toNat) =
        if n % (ticksOf b.onLength + ticksOf b.offLength) < ticksOf b.onLength then b.onChar
        else b.offChar := by
  have hnonzero : ∀ c ∈ Call.add b :: List.replicate n .tasklet, c.Nonzero := by
    intro c hc
    rcases List.mem_cons.mp hc with rfl | hc
    · exact nonzero
    · rw [List.eq_of_mem_replicate hc]
      trivial
  obtain ⟨s', rs, hcalls, -, l, -, hshows⟩ := S.calls enough hnonzero
  refine ⟨s', rs, hcalls, ?_⟩
  have hadd : (L.call (.add b)).1 = ⟨b.toLight.lit :: L.list, b.poke b.onChar L.vmem⟩ := by
    unfold Lights.call
    dsimp only
    rw [if_pos ⟨location, room⟩]
  have hvmem : (Lights.calls (.add b :: List.replicate n .tasklet) L).1.vmem = s'.vmem :=
    congrArg Lights.vmem hshows
  rw [← hvmem]
  show (Lights.calls (List.replicate n .tasklet) (L.call (.add b)).1).1.vmem _ = _
  rw [hadd]
  have hpoke := poke_lit b.toLight L.vmem
  exact (@ticks_first L.list b.toLight.lit _ n alone hpoke).trans (Light.char_lit b.toLight n)

/-- The light that `main` adds is back on, after its period, for the second time. -/
theorem light_blinks_main :
    ∃ s rs, (Fish.start fun _ => 0).calls 2001
        (.add (mainLight 540) :: List.replicate 15 .tasklet) = some (s, rs) ∧
      s.vmem 1080 = 0x49 := by
  obtain ⟨s, rs, hcalls, hvmem⟩ := light_blinks (show places < 2001 by decide)
    (start_shows fun _ => 0) (show 0 < places by decide) (b := mainLight 540)
    (show (540 : UInt16) ≠ 0 by decide) (by decide) (fun b hb => absurd hb List.not_mem_nil) 15
  exact ⟨s, rs, hcalls, hvmem⟩

/-! ## Whole runs -/

/-- The two lights of a sync may go together: the screen will show the second one off. -/
def Lights.SafeSync (L : Lights) : Call → Prop
  | .sync arg => ∀ b' b, L.light (arg >>> 16).toUInt16 = some b' →
      L.light (arg &&& 0xFFFF).toUInt16 = some b → b'.on = true → b.onChar = b.offChar
  | _ => True

/-- A light is added where there is none. -/
def Lights.NewLocation (L : Lights) : Call → Prop
  | .add b => L.light b.location = none
  | _ => True

theorem light_none {location : UInt16} (h : L.light location = none) :
    ∀ b ∈ L.list, b.location ≠ location := by
  intro b hb
  simpa using List.find?_eq_none.mp h b hb

theorem light_some {location : UInt16} (h : L.light location = some b) :
    b ∈ L.list ∧ b.location = location :=
  ⟨List.mem_of_find?_eq_some h, by simpa using List.find?_some h⟩

theorem updateFirst_location {p : Light → Bool} {f : Light → Light}
    (keeps : ∀ b, (f b).location = b.location) (l : List Light) :
    (updateFirst p f l).map Light.location = l.map Light.location := by
  induction l with
  | nil => rfl
  | cons b l ih =>
    unfold updateFirst
    split
    · rw [List.map_cons, List.map_cons, keeps]
    · rw [List.map_cons, List.map_cons, ih]

/-- Where locations differ, the first light at one is the only one there. -/
theorem mem_updateFirst_distinct {f : Light → Light} (distinct : (l.map Light.location).Nodup)
    {location : UInt16} (found : l.find? (fun b => b.location == location) = some b)
    {b' : Light} :
    b' ∈ updateFirst (fun b => b.location == location) f l ↔
      b' = f b ∨ b' ∈ l ∧ b'.location ≠ location := by
  induction l with
  | nil => exact absurd found.symm (Option.some_ne_none _)
  | cons c l ih =>
    rw [List.map_cons, List.nodup_cons] at distinct
    rw [List.find?_cons] at found
    unfold updateFirst
    by_cases hc : c.location = location
    · rw [beq_iff_eq.mpr hc] at found ⊢
      obtain rfl := Option.some.inj found
      rw [if_pos rfl, List.mem_cons]
      have hne : b' ∈ l → b'.location ≠ location := by
        rintro hb' rfl
        exact distinct.1 (hc ▸ List.mem_map_of_mem hb')
      constructor
      · rintro (rfl | hb')
        · exact .inl rfl
        · exact .inr ⟨List.mem_cons_of_mem c hb', hne hb'⟩
      · rintro (rfl | ⟨hb', hlocation⟩)
        · exact .inl rfl
        · refine .inr (List.mem_of_ne_of_mem ?_ hb')
          rintro rfl
          exact hlocation hc
    · have hfalse : (c.location == location) = false := beq_false_of_ne hc
      rw [hfalse] at found ⊢
      rw [if_neg Bool.false_ne_true, List.mem_cons, ih distinct.2 found, List.mem_cons]
      constructor
      · rintro (rfl | rfl | ⟨hb', hlocation⟩)
        · exact .inr ⟨.inl rfl, hc⟩
        · exact .inl rfl
        · exact .inr ⟨.inr hb', hlocation⟩
      · rintro (rfl | ⟨rfl | hb', hlocation⟩)
        · exact .inr (.inl rfl)
        · exact .inl rfl
        · exact .inr (.inr ⟨hb', hlocation⟩)

/-- A call keeps the locations apart, and what is shown right. -/
theorem Lights.Agrees.call (distinct : L.Distinct) (agrees : L.Agrees) {c : Call}
    (new : L.NewLocation c) (safe : L.SafeSync c) :
    (L.call c).1.Distinct ∧ (L.call c).1.Agrees := by
  have hsame : L.Distinct ∧ L.Agrees := ⟨distinct, agrees⟩
  cases c with
  | add b =>
    unfold Lights.call
    dsimp only
    split
    next =>
      have hne := light_none new
      constructor
      · refine List.nodup_cons.mpr ⟨fun hmem => ?_, distinct⟩
        obtain ⟨b', hb', heq⟩ := List.mem_map.mp hmem
        exact hne b' hb' heq
      · intro b' hb'
        rcases List.mem_cons.mp hb' with rfl | hb'
        · exact poke_lit b.toLight L.vmem
        · exact (poke_of_ne (hne b' hb').symm _).trans (agrees b' hb')
    next => exact hsame
  | remove arg =>
    unfold Lights.call
    dsimp only
    split
    · exact hsame
    · refine ⟨?_, fun b hb => agrees b (List.mem_of_mem_eraseP hb)⟩
      exact distinct.sublist (List.eraseP_sublist.map _)
  | find location =>
    unfold Lights.call
    dsimp only
    split <;> exact hsame
  | sync arg =>
    unfold Lights.call
    dsimp only
    split
    next b' b hb' hb =>
      constructor
      · have hlocations := @updateFirst_location (fun b => b.location == (arg &&& 0xFFFF).toUInt16)
          b'.follow (fun _ => rfl) L.list
        unfold Lights.Distinct
        rw [hlocations]
        exact distinct
      · intro b'' hb''
        obtain ⟨hmem, hlocation⟩ := light_some hb
        rcases (mem_updateFirst_distinct (f := b'.follow) distinct hb).mp hb'' with rfl | ⟨h, hne⟩
        · have hpoke : b.poke b.offChar L.vmem (2 * b.location.toNat) = b.offChar :=
            Function.update_self ..
          refine hpoke.trans ?_
          show b.offChar = if b'.on then b.onChar else b.offChar
          cases hon : b'.on with
          | true => exact (safe b' b hb' hb hon).symm
          | false => rfl
        · refine (poke_of_ne ?_ _).trans (agrees b'' h)
          rw [hlocation]
          exact hne.symm
    next => exact hsame
  | tasklet =>
    constructor
    · have hlocations : Light.location ∘ Light.tick = Light.location := funext tick_location
      show ((L.list.map Light.tick).map Light.location).Nodup
      rw [List.map_map, hlocations]
      exact distinct
    · intro b hb
      obtain ⟨b', hb', rfl⟩ := List.mem_map.mp hb
      rw [tick_location]
      exact foldl_shown distinct agrees b' hb'

/-- A sync that leaves everything shown right was safe. -/
theorem Lights.SafeSync.needed (distinct : L.Distinct) {c : Call}
    (agrees : (L.call c).1.Agrees) : L.SafeSync c := by
  cases c with
  | sync arg =>
    intro b' b hb' hb hon
    unfold Lights.call at agrees
    dsimp only at agrees
    rw [hb', hb] at agrees
    have hmem := (@mem_updateFirst_distinct L.list b b'.follow distinct _ hb
      (b'.follow b)).mpr (.inl rfl)
    have hshown := agrees (b'.follow b) hmem
    have hpoke : b.poke b.offChar L.vmem (2 * b.location.toNat) = b.offChar :=
      Function.update_self ..
    have hchar : (b'.follow b).char = if b'.on then b.onChar else b.offChar := rfl
    rw [hchar, if_pos hon] at hshown
    exact hshown.symm.trans hpoke
  | _ => trivial

/-- A call as a step. -/
def fishStep (c : Call) (s : Fish) : Option Fish := (s.call (places + 1) c).map (·.1)

/-- Nothing is added at location zero, or where there is a light. -/
def AddsNew (s : Fish) : Call → Prop
  | .add b => b.location ≠ 0 ∧ s.mp1FindHelper (places + 1) b.location = some none
  | _ => True

/-- What the screen shows at the places of the structs that are linked. -/
def Fish.Agrees (s : Fish) : Prop :=
  ∀ l, Chain s.links.next s.listHead l → ∀ i ∈ l,
    s.vmem (2 * (s.blinkArray i).location.toNat) = (s.blinkArray i).char

/-- A sync takes the times of a light that is off, or shows the same character on and off. -/
def SyncsOff (s : Fish) : Call → Prop
  | .sync arg => ∀ esi edi,
      s.mp1FindHelper (places + 1) (arg >>> 16).toUInt16 = some (some esi) →
      s.mp1FindHelper (places + 1) (arg &&& 0xFFFF).toUInt16 = some (some edi) →
      (s.blinkArray esi).on = true → (s.blinkArray edi).onChar = (s.blinkArray edi).offChar
  | _ => True

theorem Fish.Shows.agrees_iff {s : Fish} (S : s.Shows L) : s.Agrees ↔ L.Agrees := by
  obtain ⟨l, K, rfl⟩ := S
  constructor
  · intro agrees b hb
    obtain ⟨i, hi, rfl⟩ := List.mem_map.mp hb
    exact agrees l K.chain i hi
  · intro agrees l' C i hi
    rw [C.unique K.chain] at hi
    exact agrees (s.blinkArray i).toLight (List.mem_map_of_mem hi)

theorem Fish.Shows.syncsOff_iff {s : Fish} (S : s.Shows L) (c : Call) :
    SyncsOff s c ↔ L.SafeSync c := by
  obtain ⟨l, K, rfl⟩ := S
  cases c with
  | sync arg =>
    unfold SyncsOff Lights.SafeSync
    simp only [K.find (Nat.lt_succ_self places), lights_light, Option.some.injEq,
      Option.map_eq_some_iff]
    constructor
    · rintro h _ _ ⟨esi, hesi, rfl⟩ ⟨edi, hedi, rfl⟩
      exact h esi edi hesi hedi
    · intro h esi edi hesi hedi
      exact h _ _ ⟨esi, hesi, rfl⟩ ⟨edi, hedi, rfl⟩
  | _ => exact Iff.rfl

theorem Fish.Shows.addsNew {s : Fish} (S : s.Shows L) {c : Call} (new : AddsNew s c) :
    c.Nonzero ∧ L.NewLocation c := by
  obtain ⟨l, K, rfl⟩ := S
  cases c with
  | add b =>
    refine ⟨new.1, ?_⟩
    have hfind := new.2
    rw [K.find (Nat.lt_succ_self places), Option.some.injEq] at hfind
    show (⟨s.lights l, s.vmem⟩ : Lights).light b.location = none
    rw [lights_light, hfind]
    rfl
  | _ => exact ⟨trivial, trivial⟩

theorem fishStep_shows {s t : Fish} (S : s.Shows L) {c : Call} (nonzero : c.Nonzero)
    (h : fishStep c s = some t) : t.Shows (L.call c).1 := by
  obtain ⟨s', r, hcall, -, hshows⟩ := S.call (Nat.lt_succ_self places) nonzero
  unfold fishStep at h
  rw [hcall] at h
  obtain rfl := Option.some.inj h
  exact hshows

/-- As long as lights are added where there are none, and not at location zero: in every run, the
screen shows each light as it is in every state just when each sync takes the times of a light
that is off, or is for one that looks the same on and off. -/
theorem screen_agrees_iff (vmem : Nat → UInt8) (cs : List Call) :
    Runs.Along fishStep AddsNew Fish.Agrees (Fish.start vmem) cs ↔
      Runs.Meets fishStep AddsNew SyncsOff (Fish.start vmem) cs := by
  let Inv (s : Fish) : Prop := ∃ L : Lights, s.Shows L ∧ L.Distinct ∧ L.Agrees
  have hstart : Inv (Fish.start vmem) :=
    ⟨⟨[], vmem⟩, start_shows vmem, List.nodup_nil, fun b hb => absurd hb List.not_mem_nil⟩
  refine Runs.along_iff_meets Inv ?_ ?_ ?_ hstart
  · rintro s c t ⟨L, S, hdistinct, -⟩ hnew hstep hagrees
    have hshows := fishStep_shows S (S.addsNew hnew).1 hstep
    exact (S.syncsOff_iff c).mpr (.needed hdistinct (hshows.agrees_iff.mp hagrees))
  · rintro s c t ⟨L, S, hdistinct, hagrees⟩ hnew hstep hsafe
    obtain ⟨hdistinct', hagrees'⟩ :=
      hagrees.call hdistinct (S.addsNew hnew).2 ((S.syncsOff_iff c).mp hsafe)
    exact ⟨_, fishStep_shows S (S.addsNew hnew).1 hstep, hdistinct', hagrees'⟩
  · rintro s ⟨L, S, -, hagrees⟩
    exact S.agrees_iff.mpr hagrees

end Screen

end Mp3Kernel.Blink
