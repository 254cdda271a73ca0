import Mathlib.Logic.Function.Basic
import Mathlib.Data.List.Count

/-!
# Tables of slots

A partial map from the slots of a range, handed out lowest first. A step takes the first
free slot, drops a taken one, or keeps the table; a run is a list of such steps, each
labelled by what it did. `Run.balance` is the account of a whole run: a slot has been taken
exactly once more often than it has been dropped when it is in use at the end, and equally
often when it is not.
-/

namespace SlotTable

variable {β : Type*}

/-- `i` is the lowest free slot from `lo` to `hi`. -/
structure FirstFree (m : Int → Option β) (lo hi i : Int) : Prop where
  ge : lo ≤ i
  le : i ≤ hi
  free : m i = none
  below : ∀ j, lo ≤ j → j < i → m j ≠ none

/-- No slot from `lo` to `hi` is free. -/
def Full (m : Int → Option β) (lo hi : Int) : Prop := ∀ j, lo ≤ j → j ≤ hi → m j ≠ none

theorem FirstFree.not_full {m : Int → Option β} {lo hi i : Int} (h : FirstFree m lo hi i) :
    ¬ Full m lo hi := fun full => full i h.ge h.le h.free

/-- What a step did. -/
inductive Label
  | take (slot : Int)
  | drop (slot : Int)
  | keep
  deriving DecidableEq

/-- One step of a table whose slots are `lo` to `hi`. -/
inductive Step (lo hi : Int) (m : Int → Option β) : Label → (Int → Option β) → Prop
  | take {i : Int} {v : β} : FirstFree m lo hi i → Step lo hi m (.take i) (Function.update m i (some v))
  | drop {i : Int} : m i ≠ none → Step lo hi m (.drop i) (Function.update m i none)
  | keep : Step lo hi m .keep m

/-- A list of steps from one table to another. -/
inductive Run (lo hi : Int) : (Int → Option β) → List Label → (Int → Option β) → Prop
  | nil {m : Int → Option β} : Run lo hi m [] m
  | cons {l : Label} {labels : List Label} {m m' m'' : Int → Option β} :
      Step lo hi m l m' → Run lo hi m' labels m'' → Run lo hi m (l :: labels) m''

section Account

variable {lo hi : Int} {m m' : Int → Option β} {labels : List Label}

/-- One when a slot is in use. -/
def inUse (m : Int → Option β) (i : Int) : Nat := if m i = none then 0 else 1

/-- A step hands out only a free slot and takes back only one in use. -/
theorem Step.balance {l : Label} (h : Step lo hi m l m') (i : Int) :
    inUse m' i + [l].count (.drop i) = inUse m i + [l].count (.take i) := by
  cases h with
  | @take j v hfree =>
    by_cases hij : i = j
    · subst hij
      simp [inUse, hfree.free]
    · simp [inUse, Function.update_of_ne hij, Ne.symm hij]
  | @drop j hused =>
    by_cases hij : i = j
    · subst hij
      simp [inUse, hused]
    · simp [inUse, Function.update_of_ne hij, Ne.symm hij]
  | keep => simp

/-- The account of a run. -/
theorem Run.balance (h : Run lo hi m labels m') (i : Int) :
    inUse m' i + labels.count (.drop i) = inUse m i + labels.count (.take i) := by
  induction h with
  | nil => rfl
  | @cons l labels _ _ _ hstep _ ih =>
    have hfirst := hstep.balance i
    rw [← List.singleton_append, List.count_append, List.count_append]
    omega

end Account

end SlotTable
