import Mp3Kernel.User.Blink
import Mathlib.Data.List.Perm.Subperm

/-!
# The list of blinking characters

What `blink.S` keeps is a list of lights, the latest first: a place of the array is in use just
when its location is not zero, and the list links the places in use. A light at location zero
breaks this: its place looks free, and the next one to be added takes it and is linked to itself.
-/

namespace Mp3Kernel.Blink

open LinkedList

/-! ## Lights -/

/-- The lights, the latest first, and what the screen shows. -/
structure Lights where
  list : List Light
  vmem : Nat → UInt8

namespace Light

/-- A character is put where the light is. -/
def poke (b : Light) (c : UInt8) (vmem : Nat → UInt8) : Nat → UInt8 :=
  Function.update vmem (2 * b.location.toNat) c

/-- A light that is added is on, for its first time. -/
def lit (b : Light) : Light := { b with status := 1, countdown := b.onLength }

def on (b : Light) : Bool := b.status &&& 0x01 != 0

/-- Its time is over at the next tick. -/
def due (b : Light) : Bool := !Fish.positive (b.countdown - 1)

/-- A tick: a light whose time is over changes, for the time that it has then. -/
def tick (b : Light) : Light :=
  if b.due then
    { b with countdown := if b.on then b.offLength else b.onLength, status := b.status ^^^ 0x01 }
  else { b with countdown := b.countdown - 1 }

/-- What a tick shows. -/
def shown (b : Light) (vmem : Nat → UInt8) : Nat → UInt8 :=
  if b.due then b.poke (if b.on then b.offChar else b.onChar) vmem else vmem

/-- A light that goes with another from now on. -/
def follow (b' b : Light) : Light :=
  { b with
    onLength := b'.onLength, offLength := b'.offLength
    countdown := b'.countdown, status := b'.status }

end Light

/-- The first of a list that passes a test is changed. -/
def updateFirst {α : Type} (p : α → Bool) (f : α → α) : List α → List α
  | [] => []
  | a :: l => if p a then f a :: l else a :: updateFirst p f l

namespace Lights

/-- The light at a location: the latest of those there. -/
def light (L : Lights) (location : UInt16) : Option Light :=
  L.list.find? fun b => b.location == location

/-- The calls on lights: one more while there is a place for it and its location is on the screen,
one less, the light at a location, one that follows another, and a tick for all. A light that
follows another is shown off until it changes. -/
def call (L : Lights) : Call → Lights × Int × Option Light
  | .add b =>
    if b.location.toNat < places ∧ L.list.length < places then
      (⟨b.lit :: L.list, b.poke b.onChar L.vmem⟩, 0, none)
    else (L, -1, none)
  | .remove arg =>
    match L.light arg.toUInt16 with
    | none => (L, -1, none)
    | some _ => (⟨L.list.eraseP fun b => b.location == arg.toUInt16, L.vmem⟩, 0, none)
  | .find location =>
    match L.light location with
    | none => (L, -1, none)
    | some b => (L, 0, some b)
  | .sync arg =>
    match L.light (arg >>> 16).toUInt16, L.light (arg &&& 0xFFFF).toUInt16 with
    | some b', some b =>
      (⟨updateFirst (fun b => b.location == (arg &&& 0xFFFF).toUInt16) b'.follow L.list,
        b.poke b.offChar L.vmem⟩, 0, none)
    | _, _ => (L, -1, none)
  | .tasklet =>
    (⟨L.list.map Light.tick, L.list.foldl (fun v b => b.shown v) L.vmem⟩, 0, none)

def calls : List Call → Lights → Lights × List (Int × Option Light)
  | [], L => (L, [])
  | c :: cs, L =>
    let r := L.call c
    let rs := calls cs r.1
    (rs.1, r.2 :: rs.2)

end Lights

/-! ## The array -/

/-- The lights at some places. -/
def Fish.lights (s : Fish) (l : List Nat) : List Light := l.map fun i => (s.blinkArray i).toLight

/-- The list links the places that are in use. -/
structure Fish.Linked (s : Fish) (l : List Nat) : Prop where
  chain : Chain s.links.next s.listHead l
  inArray : ∀ i ∈ l, i < places
  used : ∀ i < places, (s.blinkArray i).location ≠ 0 ↔ i ∈ l

/-- What is in memory is a list of lights. -/
def Fish.Shows (s : Fish) (L : Lights) : Prop :=
  ∃ l, s.Linked l ∧ L = ⟨s.lights l, s.vmem⟩

section Steps

variable {s : Fish} {l : List Nat} {i fuel : Nat} {p : Light → Bool} {f : Light → Light}

theorem Fish.Linked.length_le (K : s.Linked l) : l.length ≤ places := by
  have hsub : l ⊆ List.range places := fun i hi => List.mem_range.mpr (K.inArray i hi)
  have hle := K.chain.nodup.length_le_of_subset hsub
  rwa [List.length_range] at hle

/-- `mp1_malloc` finds a place as long as there is one that no light is in. -/
theorem Fish.Linked.malloc (K : s.Linked l) :
    (l.length < places → ∃ i, s.mp1Malloc = some i ∧ i < places ∧ i ∉ l) ∧
      (¬ l.length < places → s.mp1Malloc = none) := by
  constructor
  · intro hlt
    cases hmalloc : s.mp1Malloc with
    | none =>
      have hall : ∀ i ∈ List.range places, i ∈ l := by
        intro i hi
        have htest := List.find?_eq_none.mp hmalloc i hi
        exact (K.used i (List.mem_range.mp hi)).mp (by simpa using htest)
      have hle := List.nodup_range.length_le_of_subset hall
      rw [List.length_range] at hle
      omega
    | some i =>
      have hfree := List.find?_some hmalloc
      have hi := List.mem_range.mp (List.mem_of_find?_eq_some hmalloc)
      refine ⟨i, rfl, hi, fun hmem => (K.used i hi).mpr hmem ?_⟩
      simpa using hfree
  · intro hfull
    have hlength : l.length = places := Nat.le_antisymm K.length_le (Nat.not_lt.mp hfull)
    refine List.find?_eq_none.mpr fun i hi => ?_
    have hi := List.mem_range.mp hi
    have hmem : i ∈ l := by
      by_contra hnot
      have hnodup : (i :: l).Nodup := List.nodup_cons.mpr ⟨hnot, K.chain.nodup⟩
      have hsub : i :: l ⊆ List.range places := by
        intro j hj
        rcases List.mem_cons.mp hj with rfl | hj
        · exact List.mem_range.mpr hi
        · exact List.mem_range.mpr (K.inArray j hj)
      have hle := hnodup.length_le_of_subset hsub
      rw [List.length_range, List.length_cons] at hle
      omega
    simpa using (K.used i hi).mpr hmem

theorem find?_lights (p : Light → Bool) :
    (s.lights l).find? p =
      (l.find? fun i => p (s.blinkArray i).toLight).map fun i => (s.blinkArray i).toLight := by
  unfold Fish.lights
  rw [List.find?_map]
  rfl

theorem Fish.Linked.find (K : s.Linked l) (enough : places < fuel) (location : UInt16) :
    s.mp1FindHelper fuel location = some (l.find? fun i => (s.blinkArray i).location == location) :=
  search_eq K.chain (Nat.lt_of_le_of_lt K.length_le enough)

theorem Fish.Linked.congr {s' : Fish} (K : s.Linked l) (head : s'.listHead = s.listHead)
    (next : ∀ i, (s'.blinkArray i).next = (s.blinkArray i).next)
    (location : ∀ i, (s'.blinkArray i).location = (s.blinkArray i).location) : s'.Linked l := by
  refine ⟨?_, K.inArray, fun i hi => ?_⟩
  · rw [head]
    exact K.chain.congr fun i _ => (next i).symm
  · rw [location]
    exact K.used i hi

/-- A struct is written over with one that is linked as it was, and at its location. -/
theorem Fish.Linked.store (K : s.Linked l) {b : BlinkStruct}
    (next : b.next = (s.blinkArray i).next) (location : b.location = (s.blinkArray i).location) :
    (s.store i b).Linked l := by
  refine K.congr rfl (fun j => ?_) fun j => ?_
  all_goals
    unfold Fish.store
    dsimp only
    by_cases h : j = i
    · subst h
      rw [Function.update_self]
      assumption
    · rw [Function.update_of_ne h]

theorem lights_store (b : BlinkStruct) :
    (s.store i b).lights l =
      l.map (Function.update (fun i => (s.blinkArray i).toLight) i b.toLight) := by
  refine List.map_congr_left fun j _ => ?_
  unfold Fish.store
  dsimp only
  by_cases h : j = i
  · subst h
    rw [Function.update_self, Function.update_self]
  · rw [Function.update_of_ne h, Function.update_of_ne h]

/-- A new struct, linked to what was first. -/
theorem Fish.Linked.push {s' : Fish} (K : s.Linked l) (hi : i < places) (new : i ∉ l)
    {b : BlinkStruct} (next : b.next = s.listHead) (nonzero : b.location ≠ 0)
    (head : s'.listHead = some i) (array : s'.blinkArray = Function.update s.blinkArray i b) :
    s'.Linked (i :: l) ∧ s'.lights (i :: l) = b.toLight :: s.lights l := by
  have hself : s'.blinkArray i = b := by
    rw [array, Function.update_self]
  have hother : ∀ j, j ≠ i → s'.blinkArray j = s.blinkArray j := by
    intro j hj
    rw [array, Function.update_of_ne hj]
  have hne : ∀ j ∈ l, j ≠ i := by
    rintro j hj rfl
    exact new hj
  refine ⟨⟨?_, ?_, ?_⟩, ?_⟩
  · rw [head]
    refine (K.chain.push new).congr fun j hj => ?_
    rcases List.mem_cons.mp hj with rfl | hj
    · rw [Function.update_self]
      exact (congrArg BlinkStruct.next hself).trans next |>.symm
    · rw [Function.update_of_ne (hne j hj)]
      exact congrArg BlinkStruct.next (hother j (hne j hj)).symm
  · intro j hj
    rcases List.mem_cons.mp hj with rfl | hj
    · exact hi
    · exact K.inArray j hj
  · intro j hj
    by_cases hji : j = i
    · subst hji
      rw [hself]
      exact iff_of_true nonzero List.mem_cons_self
    · rw [hother j hji, K.used j hj, List.mem_cons]
      exact (or_iff_right hji).symm
  · unfold Fish.lights
    rw [List.map_cons, hself]
    refine congrArg _ (List.map_congr_left fun j hj => ?_)
    rw [hother j (hne j hj)]

theorem Fish.Shows.add {L : Lights} (S : s.Shows L) {b : BlinkStruct} (nonzero : b.location ≠ 0) :
    ∃ s', s.call fuel (.add b) = some (s', (L.call (.add b)).2.1, none) ∧
      (L.call (.add b)).2.2 = none ∧ s'.Shows (L.call (.add b)).1 := by
  obtain ⟨l, K, rfl⟩ := S
  have hlength : (s.lights l).length = l.length := List.length_map ..
  unfold Fish.call Fish.mp1IoctlAdd Lights.call
  dsimp only
  rw [hlength]
  by_cases hlocation : b.location.toNat < places
  · rw [if_neg (Nat.not_le.mpr hlocation)]
    by_cases hroom : l.length < places
    · obtain ⟨i, hmalloc, hi, hnew⟩ := K.malloc.1 hroom
      rw [if_pos ⟨hlocation, hroom⟩, hmalloc]
      let started : BlinkStruct := { b with status := 1, countdown := b.onLength }
      let added : Fish := { (s.store i started).setLink s.listHead (some i) with listHead := some i }
      have harray : added.blinkArray =
          Function.update s.blinkArray i { started with next := s.listHead } := by
        simp only [added, Fish.setLink, Fish.store, Function.update_self, Function.update_idem]
      obtain ⟨hlinked, hlights⟩ : added.Linked (i :: l) ∧
          added.lights (i :: l) = b.toLight.lit :: s.lights l :=
        @Fish.Linked.push s l i added K hi hnew { started with next := s.listHead } rfl nonzero rfl
          harray
      refine ⟨added.mp1Poke b.onChar (2 * b.location.toNat), rfl, rfl, i :: l,
        hlinked.congr rfl (fun _ => rfl) fun _ => rfl, ?_⟩
      rw [← hlights]
      rfl
    · rw [if_neg fun h => hroom h.2, K.malloc.2 hroom]
      exact ⟨s, rfl, rfl, l, K, rfl⟩
  · rw [if_pos (Nat.not_lt.mp hlocation), if_neg fun h => hlocation h.1]
    exact ⟨s, rfl, rfl, l, K, rfl⟩

theorem lights_light (s : Fish) (l : List Nat) (location : UInt16) :
    (⟨s.lights l, s.vmem⟩ : Lights).light location =
      (l.find? fun i => (s.blinkArray i).location == location).map fun i =>
        (s.blinkArray i).toLight :=
  find?_lights fun b => b.location == location

/-- The node that is first to pass a test is taken out. -/
theorem map_erase {g : Nat → Light} (h : (l.find? fun i => p (g i)) = some i) :
    (l.erase i).map g = (l.map g).eraseP p := by
  induction l with
  | nil => exact absurd h.symm (Option.some_ne_none _)
  | cons j l ih =>
    rw [List.find?_cons] at h
    rw [List.map_cons, List.eraseP_cons]
    cases hp : p (g j) with
    | true =>
      rw [hp] at h
      obtain rfl := Option.some.inj h
      rw [List.erase_cons_head]
      rfl
    | false =>
      rw [hp] at h
      have hne : j ≠ i := by
        rintro rfl
        exact Bool.false_ne_true (hp.symm.trans (List.find?_some (p := fun i => p (g i)) h))
      rw [List.erase_cons_tail (by simpa using hne), List.map_cons, ih h]
      rfl

/-- The node that is first to pass a test is changed. -/
theorem map_update {g : Nat → Light} (hnodup : l.Nodup)
    (h : (l.find? fun i => p (g i)) = some i) :
    l.map (Function.update g i (f (g i))) = updateFirst p f (l.map g) := by
  induction l with
  | nil => exact absurd h.symm (Option.some_ne_none _)
  | cons j l ih =>
    obtain ⟨hnot, hnodup⟩ := List.nodup_cons.mp hnodup
    rw [List.find?_cons] at h
    rw [List.map_cons, List.map_cons, updateFirst]
    cases hp : p (g j) with
    | true =>
      rw [hp] at h
      obtain rfl := Option.some.inj h
      rw [Function.update_self, if_pos rfl]
      refine congrArg _ (List.map_congr_left fun k hk => Function.update_of_ne ?_ ..)
      rintro rfl
      exact hnot hk
    | false =>
      rw [hp] at h
      have hne : j ≠ i := by
        rintro rfl
        exact Bool.false_ne_true (hp.symm.trans (List.find?_some (p := fun i => p (g i)) h))
      rw [Function.update_of_ne hne, if_neg Bool.false_ne_true, ih hnodup h]

theorem links_setLink (v c : Option Nat) : (s.setLink v c).links = s.links.set v c := by
  cases c with
  | none => rfl
  | some i =>
    refine congrArg (Links.mk s.listHead) (funext fun j => ?_)
    unfold Fish.setLink Fish.store
    dsimp only
    by_cases h : j = i
    · subst h
      simp
    · simp [h, Fish.links]

theorem setLink_light (v c : Option Nat) (j : Nat) :
    ((s.setLink v c).blinkArray j).toLight = (s.blinkArray j).toLight := by
  cases c with
  | none => rfl
  | some i =>
    unfold Fish.setLink Fish.store
    dsimp only
    by_cases h : j = i
    · subst h
      simp
    · simp [h]

/-- A struct is taken out of the list, and its place given back. -/
theorem Fish.Linked.unlink (K : s.Linked l) (hmem : i ∈ l) (enough : l.length ≤ fuel) :
    ∃ prev, s.links.before i fuel none = some prev ∧
      ((s.setLink (s.blinkArray i).next prev).mp1Free i).Linked (l.erase i) ∧
      ((s.setLink (s.blinkArray i).next prev).mp1Free i).lights (l.erase i) =
        s.lights (l.erase i) := by
  obtain ⟨prev, hbefore, -, hchain⟩ := @Links.before_eq _ _ s.links i l none fuel K.chain
    (fun _ _ h => Option.some_ne_none _ h.symm) hmem enough
  have hnodup := K.chain.nodup
  let cut := s.setLink (s.blinkArray i).next prev
  have hcut : ∀ j, j ≠ i → (cut.mp1Free i).blinkArray j = cut.blinkArray j :=
    fun j hj => Function.update_of_ne hj ..
  have hne : ∀ j ∈ l.erase i, j ≠ i := by
    rintro j hj rfl
    exact hnodup.not_mem_erase hj
  refine ⟨prev, hbefore, ⟨?_, ?_, ?_⟩, ?_⟩
  · have hlinks : cut.links = s.links.set (s.links.next i) prev := links_setLink ..
    rw [← hlinks] at hchain
    refine (show Chain cut.links.next cut.listHead (l.erase i) from hchain).congr fun j hj => ?_
    exact congrArg BlinkStruct.next (hcut j (hne j hj)).symm
  · exact fun j hj => K.inArray j (List.mem_of_mem_erase hj)
  · intro j hj
    by_cases hji : j = i
    · subst hji
      have hzero : (cut.mp1Free j).blinkArray j = Fish.zeros := Function.update_self ..
      rw [hzero]
      exact iff_of_false (fun h => h rfl) hnodup.not_mem_erase
    · have hlocation : (cut.blinkArray j).location = (s.blinkArray j).location :=
        congrArg Light.location (setLink_light ..)
      rw [hcut j hji, hlocation, K.used j hj]
      exact (List.mem_erase_of_ne hji).symm
  · refine List.map_congr_left fun j hj => ?_
    rw [hcut j (hne j hj)]
    exact setLink_light ..

theorem Fish.Shows.remove {L : Lights} (S : s.Shows L) (enough : places < fuel) (arg : UInt32) :
    ∃ s', s.call fuel (.remove arg) = some (s', (L.call (.remove arg)).2.1, none) ∧
      (L.call (.remove arg)).2.2 = none ∧ s'.Shows (L.call (.remove arg)).1 := by
  obtain ⟨l, K, rfl⟩ := S
  unfold Fish.call Fish.mp1IoctlRemove Lights.call
  dsimp only
  rw [K.find enough, lights_light]
  cases hfind : l.find? fun i => (s.blinkArray i).location == arg.toUInt16 with
  | none => exact ⟨s, rfl, rfl, l, K, rfl⟩
  | some i =>
    have hroom := Nat.le_of_lt (Nat.lt_of_le_of_lt K.length_le enough)
    obtain ⟨prev, hbefore, hlinked, hlights⟩ :=
      K.unlink (List.mem_of_find?_eq_some hfind) hroom
    refine ⟨(s.setLink (s.blinkArray i).next prev).mp1Free i, ?_, rfl, l.erase i, hlinked, ?_⟩
    · simp [hbefore]
    · rw [hlights]
      have hprev : (s.setLink (s.blinkArray i).next prev).vmem = s.vmem := by
        cases prev <;> rfl
      refine congr (congrArg Lights.mk ?_) hprev.symm
      exact (map_erase (p := fun b => b.location == arg.toUInt16) hfind).symm

theorem Fish.Shows.find {L : Lights} (S : s.Shows L) (enough : places < fuel)
    (location : UInt16) :
    ∃ r, s.call fuel (.find location) = some (s, (L.call (.find location)).2.1, r) ∧
      (L.call (.find location)).2.2 = r.map BlinkStruct.toLight ∧
      (L.call (.find location)).1 = L := by
  obtain ⟨l, K, rfl⟩ := S
  unfold Fish.call Fish.mp1IoctlFind Lights.call
  dsimp only
  rw [K.find enough, lights_light]
  cases l.find? fun i => (s.blinkArray i).location == location with
  | none => exact ⟨none, rfl, rfl, rfl⟩
  | some i => exact ⟨some (s.blinkArray i), rfl, rfl, rfl⟩

/-- The `cmovl` of `mp1_ioctl_sync` never moves. -/
theorem never_less (status : UInt16) : ((status.toUInt8 &&& 0x01) &&& 0x80 != 0) = false := by
  have hzero : (status.toUInt8 &&& 0x01) &&& 0x80 = 0 := by
    rw [UInt8.and_assoc]
    exact UInt8.and_zero
  rw [hzero]
  rfl

theorem Fish.Shows.sync {L : Lights} (S : s.Shows L) (enough : places < fuel) (arg : UInt32) :
    ∃ s', s.call fuel (.sync arg) = some (s', (L.call (.sync arg)).2.1, none) ∧
      (L.call (.sync arg)).2.2 = none ∧ s'.Shows (L.call (.sync arg)).1 := by
  obtain ⟨l, K, rfl⟩ := S
  unfold Fish.call Fish.mp1IoctlSync Lights.call
  dsimp only
  rw [K.find enough, K.find enough, lights_light, lights_light]
  cases hesi : l.find? fun i => (s.blinkArray i).location == (arg >>> 16).toUInt16 with
  | none => exact ⟨s, rfl, rfl, l, K, rfl⟩
  | some esi =>
    cases hedi : l.find? fun i => (s.blinkArray i).location == (arg &&& 0xFFFF).toUInt16 with
    | none => exact ⟨s, rfl, rfl, l, K, rfl⟩
    | some edi =>
      let b : BlinkStruct := ⟨(s.blinkArray esi).toLight.follow (s.blinkArray edi).toLight,
        (s.blinkArray edi).next⟩
      have hlights : (s.store edi b).lights l =
          updateFirst (fun b => b.location == (arg &&& 0xFFFF).toUInt16)
            (s.blinkArray esi).toLight.follow (s.lights l) := by
        rw [lights_store]
        exact map_update (p := fun b => b.location == (arg &&& 0xFFFF).toUInt16)
          (f := (s.blinkArray esi).toLight.follow) K.chain.nodup hedi
      refine ⟨(s.store edi b).mp1Poke b.offChar (2 * b.location.toNat), ?_, rfl, l,
        (K.store (i := edi) (b := b) rfl rfl).congr rfl (fun _ => rfl) fun _ => rfl, ?_⟩
      · simp [never_less, b, Light.follow]
      · refine congr (congrArg Lights.mk ?_) rfl
        exact hlights.symm

/-- A turn of the tasklet is a tick of the light. -/
theorem taskletTurn_eq (i : Nat) (s : Fish) :
    Fish.taskletTurn i s =
      { s.store i ⟨(s.blinkArray i).toLight.tick, (s.blinkArray i).next⟩ with
        vmem := (s.blinkArray i).toLight.shown s.vmem } := by
  unfold Fish.taskletTurn Light.tick Light.shown Light.due Light.on
  dsimp only
  cases Fish.positive ((s.blinkArray i).countdown - 1) <;> rfl

theorem taskletTurn_next (i : Nat) (s : Fish) :
    (Fish.taskletTurn i s).links.next = s.links.next := by
  rw [taskletTurn_eq]
  refine funext fun j => ?_
  by_cases h : j = i
  · subst h
    simp [Fish.links, Fish.store]
  · simp [h, Fish.links, Fish.store]

/-- The turns for some places tick the lights there, and leave the links. -/
theorem foldl_taskletTurn {s : Fish} (hnodup : l.Nodup) :
    let t := l.foldl (fun s i => Fish.taskletTurn i s) s
    t.lights l = (s.lights l).map Light.tick ∧
      t.vmem = (s.lights l).foldl (fun v b => b.shown v) s.vmem ∧ t.listHead = s.listHead ∧
      (∀ j, (t.blinkArray j).next = (s.blinkArray j).next) ∧
      (∀ j, (t.blinkArray j).location = (s.blinkArray j).location) ∧
      ∀ j, j ∉ l → t.blinkArray j = s.blinkArray j := by
  induction l generalizing s with
  | nil => exact ⟨rfl, rfl, rfl, fun _ => rfl, fun _ => rfl, fun _ _ => rfl⟩
  | cons i l ih =>
    obtain ⟨hnot, hnodup⟩ := List.nodup_cons.mp hnodup
    obtain ⟨hlights, hvmem, hhead, hnext, hlocation, hother⟩ := @ih (Fish.taskletTurn i s) hnodup
    have hturn := taskletTurn_eq i s
    have hself : (Fish.taskletTurn i s).blinkArray i =
        ⟨(s.blinkArray i).toLight.tick, (s.blinkArray i).next⟩ := by
      rw [hturn]
      exact Function.update_self ..
    have hrest : ∀ j, j ≠ i → (Fish.taskletTurn i s).blinkArray j = s.blinkArray j := by
      intro j hj
      rw [hturn]
      exact Function.update_of_ne hj ..
    have hsame : (Fish.taskletTurn i s).lights l = s.lights l := by
      refine List.map_congr_left fun j hj => ?_
      rw [hrest j (by rintro rfl; exact hnot hj)]
    have hlocated : (s.blinkArray i).toLight.tick.location = (s.blinkArray i).location := by
      unfold Light.tick
      split <;> rfl
    rw [List.foldl_cons]
    refine ⟨?_, ?_, ?_, fun j => ?_, fun j => ?_, fun j hj => ?_⟩
    · unfold Fish.lights at hlights hsame ⊢
      rw [List.map_cons, hlights, hsame, hother i hnot, hself]
      rfl
    · rw [hvmem, hsame, hturn]
      rfl
    · rw [hhead, hturn]
      rfl
    · exact (hnext j).trans (congrFun (taskletTurn_next i s) j)
    · rw [hlocation]
      by_cases h : j = i
      · subst h
        rw [hself]
        exact hlocated
      · rw [hrest j h]
    · obtain ⟨hji, hjl⟩ := not_or.mp (List.mem_cons.not.mp hj)
      rw [hother j hjl, hrest j hji]

theorem Fish.Shows.tasklet {L : Lights} (S : s.Shows L) (enough : places < fuel) :
    ∃ s', s.call fuel .tasklet = some (s', (L.call .tasklet).2.1, none) ∧
      (L.call .tasklet).2.2 = none ∧ s'.Shows (L.call .tasklet).1 := by
  obtain ⟨l, K, rfl⟩ := S
  obtain ⟨hlights, hvmem, hhead, hnext, hlocation, -⟩ := @foldl_taskletTurn l s K.chain.nodup
  have hrun : s.mp1RtcTasklet fuel = some (l.foldl (fun s i => Fish.taskletTurn i s) s) :=
    visit_eq (fun i s => taskletTurn_next i s) K.chain (Nat.lt_of_le_of_lt K.length_le enough)
  refine ⟨l.foldl (fun s i => Fish.taskletTurn i s) s, ?_, rfl, l,
    K.congr hhead hnext hlocation, ?_⟩
  · unfold Fish.call
    rw [hrun]
    rfl
  · refine congr (congrArg Lights.mk ?_) hvmem.symm
    exact hlights.symm

/-- A struct that is added has a location other than zero. -/
def Call.Nonzero : Call → Prop
  | .add b => b.location ≠ 0
  | _ => True

/-- Every call does to memory what it does to the lights, and returns the same. -/
theorem Fish.Shows.call {L : Lights} (S : s.Shows L) (enough : places < fuel) {c : Call}
    (nonzero : c.Nonzero) :
    ∃ s' r, s.call fuel c = some (s', (L.call c).2.1, r) ∧
      (L.call c).2.2 = r.map BlinkStruct.toLight ∧ s'.Shows (L.call c).1 := by
  cases c with
  | add b =>
    obtain ⟨s', hcall, hnone, hshows⟩ := @Fish.Shows.add s fuel L S b nonzero
    exact ⟨s', none, hcall, hnone, hshows⟩
  | remove arg =>
    obtain ⟨s', hcall, hnone, hshows⟩ := S.remove enough arg
    exact ⟨s', none, hcall, hnone, hshows⟩
  | find location =>
    obtain ⟨r, hcall, hfound, hsame⟩ := S.find enough location
    refine ⟨s, r, hcall, hfound, ?_⟩
    rw [hsame]
    exact S
  | sync arg =>
    obtain ⟨s', hcall, hnone, hshows⟩ := S.sync enough arg
    exact ⟨s', none, hcall, hnone, hshows⟩
  | tasklet =>
    obtain ⟨s', hcall, hnone, hshows⟩ := S.tasklet enough
    exact ⟨s', none, hcall, hnone, hshows⟩

theorem Fish.Shows.calls (enough : places < fuel) :
    ∀ {cs : List Call} {s : Fish} {L : Lights}, s.Shows L → (∀ c ∈ cs, c.Nonzero) →
      ∃ s' rs, s.calls fuel cs = some (s', rs) ∧
        (Lights.calls cs L).2 = rs.map (fun r => (r.1, r.2.map BlinkStruct.toLight)) ∧
        s'.Shows (Lights.calls cs L).1
  | [], s, L, S, _ => ⟨s, [], rfl, rfl, S⟩
  | c :: cs, s, L, S, nonzero => by
    obtain ⟨s₁, r, hcall, hret, hshows⟩ := S.call enough (nonzero c List.mem_cons_self)
    obtain ⟨s₂, rs, hcalls, hrets, hshows'⟩ := calls enough hshows fun c' hc =>
      nonzero c' (List.mem_cons_of_mem c hc)
    refine ⟨s₂, ((L.call c).2.1, r) :: rs, ?_, ?_, hshows'⟩
    · unfold Fish.calls
      simp [hcall, hcalls]
    · unfold Lights.calls
      dsimp only
      rw [hrets, List.map_cons]
      exact congrArg (· :: _) (Prod.ext rfl hret)

theorem start_shows (vmem : Nat → UInt8) : (Fish.start vmem).Shows ⟨[], vmem⟩ := by
  refine ⟨[], ⟨rfl, fun i hi => absurd hi List.not_mem_nil, fun i _ => ?_⟩, rfl⟩
  exact iff_of_false (fun h => h rfl) List.not_mem_nil

end Steps

/-! ## The screen -/

section Screen

variable {L : Lights}

/-- Every light is on the screen. -/
def Lights.OnScreen (L : Lights) : Prop := ∀ b ∈ L.list, b.location.toNat < places

/-- The bytes of the video memory that are no character of the screen. -/
def OffScreen (a : Nat) : Prop := a % 2 = 1 ∨ 2 * places ≤ a

theorem poke_offScreen {b : Light} (h : b.location.toNat < places) (c : UInt8)
    (vmem : Nat → UInt8) {a : Nat} (off : OffScreen a) : b.poke c vmem a = vmem a := by
  refine Function.update_of_ne ?_ ..
  rintro rfl
  rcases off with hodd | hbeyond <;> omega

theorem mem_updateFirst {p : Light → Bool} {f : Light → Light} {b : Light} {l : List Light}
    (h : b ∈ updateFirst p f l) : b ∈ l ∨ ∃ b' ∈ l, b = f b' := by
  induction l with
  | nil => exact absurd h List.not_mem_nil
  | cons b' l ih =>
    unfold updateFirst at h
    split at h
    · rcases List.mem_cons.mp h with rfl | h
      · exact .inr ⟨b', List.mem_cons_self, rfl⟩
      · exact .inl (List.mem_cons_of_mem b' h)
    · rcases List.mem_cons.mp h with rfl | h
      · exact .inl List.mem_cons_self
      · rcases ih h with hmem | ⟨b'', hmem, hb''⟩
        · exact .inl (List.mem_cons_of_mem b' hmem)
        · exact .inr ⟨b'', List.mem_cons_of_mem b' hmem, hb''⟩

theorem tick_location (b : Light) : b.tick.location = b.location := by
  unfold Light.tick
  split <;> rfl

/-- The lights stay on the screen, and nothing is written but its characters. -/
theorem Lights.OnScreen.call (O : L.OnScreen) (c : Call) :
    (L.call c).1.OnScreen ∧ ∀ a, OffScreen a → (L.call c).1.vmem a = L.vmem a := by
  have hsame : L.OnScreen ∧ ∀ a, OffScreen a → L.vmem a = L.vmem a := ⟨O, fun _ _ => rfl⟩
  cases c with
  | add b =>
    unfold Lights.call
    dsimp only
    split
    next h =>
      refine ⟨fun b' hb' => ?_, fun a off => poke_offScreen h.1 _ _ off⟩
      rcases List.mem_cons.mp hb' with rfl | hb'
      · exact h.1
      · exact O b' hb'
    next => exact hsame
  | remove arg =>
    unfold Lights.call
    dsimp only
    split
    · exact hsame
    · exact ⟨fun b hb => O b (List.mem_of_mem_eraseP hb), fun _ _ => rfl⟩
  | find location =>
    unfold Lights.call
    dsimp only
    split <;> exact hsame
  | sync arg =>
    unfold Lights.call
    dsimp only
    split
    next b' b hb' hb =>
      have hmem : b ∈ L.list := List.mem_of_find?_eq_some hb
      refine ⟨fun b'' hb'' => ?_, fun a off => poke_offScreen (O b hmem) _ _ off⟩
      rcases mem_updateFirst hb'' with h | ⟨b₁, h, rfl⟩
      · exact O b'' h
      · exact O b₁ h
    next => exact hsame
  | tasklet =>
    constructor
    · intro b hb
      obtain ⟨b', hb', rfl⟩ := List.mem_map.mp hb
      rw [tick_location]
      exact O b' hb'
    · intro a off
      have hfold : ∀ (l : List Light) (v : Nat → UInt8), (∀ b ∈ l, b.location.toNat < places) →
          l.foldl (fun v b => b.shown v) v a = v a := by
        intro l
        induction l with
        | nil => exact fun _ _ => rfl
        | cons b l ih =>
          intro v hl
          rw [List.foldl_cons, ih _ fun b' hb' => hl b' (List.mem_cons_of_mem b hb')]
          unfold Light.shown
          split
          · exact poke_offScreen (hl b List.mem_cons_self) _ _ off
          · rfl
      exact hfold L.list L.vmem O

theorem Lights.OnScreen.calls (O : L.OnScreen) (cs : List Call) :
    ∀ a, OffScreen a → (Lights.calls cs L).1.vmem a = L.vmem a := by
  induction cs generalizing L with
  | nil => exact fun _ _ => rfl
  | cons c cs ih =>
    intro a off
    exact (ih (O.call c).1 a off).trans ((O.call c).2 a off)

/-- Whatever is called, in whatever order, as long as nothing is added at location zero: every
loop over the list ends within one turn for each place of the array and one more, the calls
return what they return on a list of lights, what is in memory is that list, and of the video
memory only characters of the screen are written. -/
theorem calls_refine {fuel : Nat} (enough : places < fuel) {cs : List Call}
    (nonzero : ∀ c ∈ cs, c.Nonzero) (vmem : Nat → UInt8) :
    ∃ s rs, (Fish.start vmem).calls fuel cs = some (s, rs) ∧
      (Lights.calls cs ⟨[], vmem⟩).2 = rs.map (fun r => (r.1, r.2.map BlinkStruct.toLight)) ∧
      s.Shows (Lights.calls cs ⟨[], vmem⟩).1 ∧ ∀ a, OffScreen a → s.vmem a = vmem a := by
  obtain ⟨s, rs, hcalls, hrets, hshows⟩ := (start_shows vmem).calls enough nonzero
  refine ⟨s, rs, hcalls, hrets, hshows, fun a off => ?_⟩
  obtain ⟨l, -, hL⟩ := hshows
  have hframe := @Lights.OnScreen.calls ⟨[], vmem⟩ (fun b hb => absurd hb List.not_mem_nil) cs a off
  rw [hL] at hframe
  exact hframe

/-- The struct that `main` adds, at some location. -/
def mainLight (location : UInt16) : BlinkStruct := ⟨⟨location, 0x49, 0x4D, 7, 6, 0, 0⟩, none⟩

/-- Two lights at one location: the second one is found and removed before the first. -/
theorem calls_refine_twice :
    ∃ s rs, (Fish.start fun _ => 0).calls 2001
        [.add (mainLight 540), .add { mainLight 540 with onChar := 0x4E }, .remove 540, .find 540,
          .remove 540, .find 540] = some (s, rs) ∧
      rs.map (fun r => (r.1, r.2.map fun b => b.onChar)) =
        [(0, none), (0, none), (0, none), (0, some 0x49), (0, none), (-1, none)] ∧
      s.vmem 1080 = 0x4E := by
  have nonzero : ∀ c ∈ [.add (mainLight 540), .add { mainLight 540 with onChar := 0x4E },
      .remove 540, .find 540, .remove 540, .find 540], Call.Nonzero c := by
    intro c hc
    simp only [List.mem_cons, List.not_mem_nil, or_false] at hc
    rcases hc with rfl | rfl | rfl | rfl | rfl | rfl
    · exact show (540 : UInt16) ≠ 0 by decide
    · exact show (540 : UInt16) ≠ 0 by decide
    all_goals trivial
  obtain ⟨s, rs, hcalls, hrets, ⟨l, -, hshows⟩, -⟩ :=
    calls_refine (show places < 2001 by decide) nonzero fun _ => 0
  refine ⟨s, rs, hcalls, ?_, ?_⟩
  · have hchars := congrArg (List.map fun r : Int × Option Light => (r.1, r.2.map Light.onChar)) hrets
    rw [List.map_map] at hchars
    have hlights : (Lights.calls [.add (mainLight 540), .add { mainLight 540 with onChar := 0x4E },
        .remove 540, .find 540, .remove 540, .find 540] ⟨[], fun _ => 0⟩).2.map
          (fun r => (r.1, r.2.map Light.onChar)) =
        [(0, none), (0, none), (0, none), (0, some 0x49), (0, none), (-1, none)] := by
      decide +kernel
    rw [hlights] at hchars
    rw [hchars]
    refine List.map_congr_left fun r _ => ?_
    simp [Option.map_map, Function.comp_def]
  · have hvmem := congrArg (fun L : Lights => L.vmem 1080) hshows
    exact hvmem.symm.trans (by decide +kernel)

end Screen

/-! ## Location zero -/

section Zero

variable {s : Fish}

/-- What an add does with the place that it is given. -/
theorem mp1IoctlAdd_eq {b : BlinkStruct} (location : b.location.toNat < places) {i : Nat}
    (malloc : s.mp1Malloc = some i) :
    ∃ s', s.mp1IoctlAdd b = (s', 0) ∧ s'.listHead = some i ∧ s'.blinkArray =
      Function.update s.blinkArray i
        { b with status := 1, countdown := b.onLength, next := s.listHead } := by
  unfold Fish.mp1IoctlAdd
  rw [if_neg (Nat.not_le.mpr location), malloc]
  refine ⟨_, rfl, rfl, ?_⟩
  simp only [Fish.mp1Poke, Fish.setLink, Fish.store, Function.update_self, Function.update_idem]

theorem mp1Malloc_eq_some {i : Nat} :
    s.mp1Malloc = some i ↔
      (s.blinkArray i).location = 0 ∧ i < places ∧ ∀ j < i, (s.blinkArray j).location ≠ 0 := by
  unfold Fish.mp1Malloc
  rw [List.find?_range_eq_some]
  simp

/-- A light is added at location zero, and then another one: both adds succeed, the second light
gets the first one's place and is linked to itself, and from then on the tasklet never ends, nor
does a search for a location but the second one's. -/
theorem zero_location_hangs {L : Lights} (S : s.Shows L) (room : L.list.length < places)
    {b b' : BlinkStruct} (zero : b.location = 0) (location : b'.location.toNat < places) :
    ∃ i s₁ s₂, s.mp1Malloc = some i ∧ s.mp1IoctlAdd b = (s₁, 0) ∧ s₁.mp1Malloc = some i ∧
      s.calls 1 [.add b, .add b'] = some (s₂, [(0, none), (0, none)]) ∧
      s₂.listHead = some i ∧ (s₂.blinkArray i).next = some i ∧
      (∀ fuel, s₂.call fuel .tasklet = none) ∧
      ∀ other, other ≠ b'.location → ∀ fuel, s₂.call fuel (.find other) = none := by
  obtain ⟨l, K, rfl⟩ := S
  rw [show (s.lights l).length = l.length from List.length_map ..] at room
  obtain ⟨i, hmalloc, hi, -⟩ := K.malloc.1 room
  have hfirst : b.location.toNat < places := by
    rw [zero]
    decide
  obtain ⟨s₁, hadd, hhead, harray⟩ := mp1IoctlAdd_eq hfirst hmalloc
  -- the place looks free, so the second light is put there too
  have hagain : s₁.mp1Malloc = some i := by
    obtain ⟨-, -, hbefore⟩ := mp1Malloc_eq_some.mp hmalloc
    refine mp1Malloc_eq_some.mpr ⟨?_, hi, fun j hj => ?_⟩
    · rw [harray, Function.update_self]
      exact zero
    · rw [harray, Function.update_of_ne (Nat.ne_of_lt hj)]
      exact hbefore j hj
  obtain ⟨s₂, hadd', hhead', harray'⟩ := mp1IoctlAdd_eq location hagain
  have hself : s₂.links.next i = some i := by
    show (s₂.blinkArray i).next = some i
    rw [harray', Function.update_self]
    exact hhead
  have hcalls : s.calls 1 [.add b, .add b'] = some (s₂, [(0, none), (0, none)]) := by
    simp [Fish.calls, Fish.call, hadd, hadd']
  refine ⟨i, s₁, s₂, hmalloc, hadd, hagain, hcalls, hhead', hself, fun fuel => ?_,
    fun other hother fuel => ?_⟩
  · have hvisit := @visit_diverges Nat Fish (fun s i => s.links.next i) Fish.taskletTurn i s₂
      (fun i s => taskletTurn_next i s) (· = i) (fun j hj => ⟨i, hj ▸ hself, rfl⟩) rfl fuel
    unfold Fish.call Fish.mp1RtcTasklet
    rw [hhead', hvisit]
    rfl
  · have htest : ((s₂.blinkArray i).location == other) = false := by
      rw [harray', Function.update_self]
      exact beq_false_of_ne hother.symm
    have hsearch := @search_diverges Nat s₂.links.next
      (fun i => (s₂.blinkArray i).location == other) i (· = i)
      (fun j hj => ⟨hj ▸ htest, i, hj ▸ hself, rfl⟩) rfl fuel
    unfold Fish.call Fish.mp1IoctlFind Fish.mp1FindHelper
    dsimp only
    rw [hhead', hsearch]
    rfl

/-- It takes two adds. -/
theorem zero_location_hangs_start :
    ∃ s, (Fish.start fun _ => 0).calls 1 [.add (mainLight 0), .add (mainLight 540)] =
        some (s, [(0, none), (0, none)]) ∧
      (∀ fuel, s.call fuel .tasklet = none) ∧ ∀ fuel, s.call fuel (.find 0) = none := by
  obtain ⟨_, _, s, -, -, -, hcalls, -, -, htasklet, hfind⟩ :=
    @zero_location_hangs _ _ (start_shows fun _ => 0) (show 0 < places by decide) (mainLight 0)
      (mainLight 540) rfl (by decide)
  exact ⟨s, hcalls, htasklet, hfind 0 (show (0 : UInt16) ≠ 540 by decide)⟩

end Zero

end Mp3Kernel.Blink
