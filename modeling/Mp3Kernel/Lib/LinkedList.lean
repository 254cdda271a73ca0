import Mathlib.Data.List.Nodup
import Mathlib.Logic.Function.Basic

/-!
# Singly linked lists in a table

A pointer to the first node, and a pointer in each node to the next one. `Chain` says which nodes
the pointers lead through; no node comes twice then. The loops are those of programs that walk
such a list: they have turns to use up, and are still running when these are gone. On a chain they
end; on pointers that come back to where they were they do not.
-/

namespace LinkedList

variable {ι σ : Type*}

/-- The pointers lead through the nodes of the list, from the first to the last, and end there. -/
def Chain (next : ι → Option ι) : Option ι → List ι → Prop
  | p, [] => p = none
  | p, i :: l => p = some i ∧ Chain next (next i) l

section Chains

variable {next next' : ι → Option ι} {p : Option ι} {i : ι} {l l' : List ι}

theorem Chain.unique (C : Chain next p l) (C' : Chain next p l') : l = l' := by
  induction l generalizing p l' with
  | nil =>
    cases l' with
    | nil => rfl
    | cons j l' => exact absurd (C.symm.trans C'.1) (Option.some_ne_none j).symm
  | cons i l ih =>
    cases l' with
    | nil => exact absurd (C'.symm.trans C.1) (Option.some_ne_none i).symm
    | cons j l' =>
      obtain rfl := Option.some.inj (C.1.symm.trans C'.1)
      rw [ih C.2 C'.2]

/-- What is behind a node of a chain. -/
theorem Chain.behind (C : Chain next p l) (hi : i ∈ l) :
    ∃ l', Chain next (some i) (i :: l') ∧ l'.length < l.length := by
  induction l generalizing p with
  | nil => exact absurd hi List.not_mem_nil
  | cons j l ih =>
    by_cases h : i = j
    · subst h
      exact ⟨l, ⟨rfl, C.2⟩, Nat.lt_succ_self _⟩
    · obtain ⟨l', hchain, hlt⟩ := ih C.2 (List.mem_of_ne_of_mem h hi)
      exact ⟨l', hchain, Nat.lt_succ_of_lt hlt⟩

/-- A node that came twice would have two different chains behind it. -/
theorem Chain.nodup (C : Chain next p l) : l.Nodup := by
  induction l generalizing p with
  | nil => exact List.nodup_nil
  | cons i l ih =>
    refine List.nodup_cons.mpr ⟨fun hi => ?_, ih C.2⟩
    obtain ⟨l', hchain, hlt⟩ := C.2.behind hi
    have hlength := congrArg List.length (C.2.unique hchain.2)
    omega

theorem Chain.congr (C : Chain next p l) (same : ∀ i ∈ l, next i = next' i) : Chain next' p l := by
  induction l generalizing p with
  | nil => exact C
  | cons i l ih =>
    refine ⟨C.1, ?_⟩
    rw [← same i List.mem_cons_self]
    exact ih C.2 fun j hj => same j (List.mem_cons_of_mem i hj)

/-- A node that is not on the chain, put before it. -/
theorem Chain.push [DecidableEq ι] (C : Chain next p l) (new : i ∉ l) :
    Chain (Function.update next i p) (some i) (i :: l) := by
  refine ⟨rfl, ?_⟩
  rw [Function.update_self]
  refine C.congr fun j hj => ?_
  have hne : j ≠ i := by
    rintro rfl
    exact new hj
  exact (Function.update_of_ne hne ..).symm

end Chains

/-! ## Walks -/

section Walks

variable (next : ι → Option ι) (test : ι → Bool)

/-- The search for the first node that passes a test. -/
def search : Nat → Option ι → Option (Option ι)
  | 0, _ => none
  | _ + 1, none => some none
  | fuel + 1, some i => if test i then some (some i) else search fuel (next i)

variable {next test} {p : Option ι} {i : ι} {l : List ι} {fuel : Nat}

theorem search_eq (C : Chain next p l) (enough : l.length < fuel) :
    search next test fuel p = some (l.find? test) := by
  induction l generalizing p fuel with
  | nil =>
    obtain rfl : p = none := C
    cases fuel with
    | zero => exact absurd enough (Nat.not_lt_zero _)
    | succ fuel => rfl
  | cons i l ih =>
    obtain ⟨rfl, C⟩ := C
    cases fuel with
    | zero => exact absurd enough (Nat.not_lt_zero _)
    | succ fuel =>
      rw [search, List.find?_cons]
      by_cases h : test i = true
      · rw [if_pos h, h]
      · rw [if_neg h, Bool.eq_false_iff.mpr h, ih C (Nat.lt_of_succ_lt_succ enough)]

/-- A search among nodes none of which passes the test, and that lead to each other only, never
ends. -/
theorem search_diverges (S : ι → Prop)
    (closed : ∀ i, S i → test i = false ∧ ∃ j, next i = some j ∧ S j)
    (start : S i) (fuel : Nat) :
    search next test fuel (some i) = none := by
  induction fuel generalizing i with
  | zero => rfl
  | succ fuel ih =>
    obtain ⟨htest, j, hnext, hj⟩ := closed i start
    rw [search, htest, if_neg Bool.false_ne_true, hnext]
    exact ih hj

end Walks

section Visits

variable (next : σ → ι → Option ι) (f : ι → σ → σ)

/-- The loop that visits each node, where a visit may change the state. -/
def visit : Nat → Option ι → σ → Option σ
  | 0, _, _ => none
  | _ + 1, none, s => some s
  | fuel + 1, some i, s => visit fuel (next (f i s) i) (f i s)

variable {next f} {p : Option ι} {i : ι} {l : List ι} {fuel : Nat} {s : σ}

theorem visit_eq (kept : ∀ i s, next (f i s) = next s) (C : Chain (next s) p l)
    (enough : l.length < fuel) :
    visit next f fuel p s = some (l.foldl (fun s i => f i s) s) := by
  induction l generalizing p fuel s with
  | nil =>
    obtain rfl : p = none := C
    cases fuel with
    | zero => exact absurd enough (Nat.not_lt_zero _)
    | succ fuel => rfl
  | cons i l ih =>
    obtain ⟨rfl, C⟩ := C
    cases fuel with
    | zero => exact absurd enough (Nat.not_lt_zero _)
    | succ fuel =>
      rw [visit, List.foldl_cons]
      refine ih ?_ (Nat.lt_of_succ_lt_succ enough)
      rw [kept]
      exact C

theorem visit_diverges (kept : ∀ i s, next (f i s) = next s) (S : ι → Prop)
    (closed : ∀ i, S i → ∃ j, next s i = some j ∧ S j) (start : S i) (fuel : Nat) :
    visit next f fuel (some i) s = none := by
  induction fuel generalizing i s with
  | zero => rfl
  | succ fuel ih =>
    obtain ⟨j, hnext, hj⟩ := closed i start
    rw [visit, kept, hnext]
    refine ih (fun i hi => ?_) hj
    rw [kept]
    exact closed i hi

end Visits

/-! ## Unlinking -/

/-- The pointers, as cells: that to the first node, and one in each node. -/
structure Links (ι : Type*) where
  head : Option ι
  next : ι → Option ι

namespace Links

variable [DecidableEq ι]

/-- The pointer in a cell; `none` is the cell of the first node's. -/
def get (L : Links ι) : Option ι → Option ι
  | none => L.head
  | some i => L.next i

def set (v : Option ι) (L : Links ι) : Option ι → Links ι
  | none => { L with head := v }
  | some i => { L with next := Function.update L.next i v }

/-- The search for the cell that points to a node; past the last node there is no cell. -/
def before (L : Links ι) (target : ι) : Nat → Option ι → Option (Option ι)
  | 0, _ => none
  | fuel + 1, c =>
    if L.get c = some target then some c
    else match L.get c with
      | some i => before L target fuel (some i)
      | none => none

variable {L : Links ι} {target : ι} {l : List ι} {c : Option ι} {fuel : Nat} {v : Option ι}

theorem get_set_self : (L.set v c).get c = v := by
  cases c with
  | none => rfl
  | some i => exact Function.update_self ..

theorem get_set_of_ne {c' : Option ι} (h : c ≠ c') : (L.set v c').get c = L.get c := by
  cases c with
  | none =>
    cases c' with
    | none => exact absurd rfl h
    | some j => rfl
  | some i =>
    cases c' with
    | none => rfl
    | some j => exact Function.update_of_ne (fun hij => h (congrArg some hij)) ..

/-- The cell before a node of the chain is found, and with the node's own pointer in it the chain
is what it was but for the node. -/
theorem before_eq (C : Chain L.next (L.get c) l) (outside : ∀ i ∈ l, c ≠ some i)
    (hmem : target ∈ l) (enough : l.length ≤ fuel) :
    ∃ c', L.before target fuel c = some c' ∧ (c' = c ∨ ∃ i ∈ l, i ≠ target ∧ c' = some i) ∧
      Chain (L.set (L.next target) c').next ((L.set (L.next target) c').get c) (l.erase target) := by
  induction l generalizing c fuel with
  | nil => exact absurd hmem List.not_mem_nil
  | cons i l ih =>
    have hnodup := List.nodup_cons.mp C.nodup
    cases fuel with
    | zero => exact absurd enough (Nat.not_succ_le_zero _)
    | succ fuel =>
      by_cases h : i = target
      · subst h
        refine ⟨c, ?_, .inl rfl, ?_⟩
        · rw [before, if_pos C.1]
        · rw [get_set_self, List.erase_cons_head]
          refine C.2.congr fun j hj => ?_
          exact (@get_set_of_ne _ _ L (some j) (L.next i) c
            (outside j (List.mem_cons_of_mem i hj)).symm).symm
      · have hrest : target ∈ l := List.mem_of_ne_of_mem (Ne.symm h) hmem
        have hself : ∀ j ∈ l, some i ≠ some j := by
          intro j hj heq
          exact hnodup.1 (Option.some.inj heq ▸ hj)
        obtain ⟨c', hbefore, hcell, hchain⟩ :=
          @ih (some i) fuel C.2 hself hrest (Nat.le_of_succ_le_succ enough)
        have hne : c ≠ c' := by
          rcases hcell with rfl | ⟨j, hj, -, rfl⟩
          · exact outside i List.mem_cons_self
          · exact outside j (List.mem_cons_of_mem i hj)
        refine ⟨c', ?_, .inr ?_, ?_⟩
        · rw [before, C.1, if_neg fun heq => h (Option.some.inj heq)]
          exact hbefore
        · rcases hcell with rfl | ⟨j, hj, hjne, rfl⟩
          · exact ⟨i, List.mem_cons_self, h, rfl⟩
          · exact ⟨j, List.mem_cons_of_mem i hj, hjne, rfl⟩
        · rw [get_set_of_ne hne, C.1, List.erase_cons_tail (by simpa using h)]
          exact ⟨rfl, hchain⟩

end Links

end LinkedList
