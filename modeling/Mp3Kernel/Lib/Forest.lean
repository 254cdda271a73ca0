import Mathlib.Logic.Relation
import Mathlib.Logic.Function.Basic

/-!
# Forests by parent pointers

A set of live nodes, each a root or with a parent. `Rooted` says that following
parents from a node stays among live nodes and ends at a root; a `Forest` carries
that for every live node, so a cycle or a dangling parent cannot be built. A forest
grows by grafting a fresh node under a live one and shrinks by pruning a leaf.
-/

variable {α : Type*}

/-- Following parents from a node stays live and ends at a root. -/
inductive Rooted (live : α → Prop) (parent : α → Option α) : α → Prop
  | root {a : α} : live a → parent a = none → Rooted live parent a
  | child {a b : α} : live a → parent a = some b → Rooted live parent b → Rooted live parent a

namespace Rooted

variable {live live' : α → Prop} {parent parent' : α → Option α} {a c : α}

theorem isLive (h : Rooted live parent a) : live a := by
  cases h with
  | root ha => exact ha
  | child ha => exact ha

/-- A rooted node is on no cycle of parents: along a cycle every node's parent would be
one of the cycle again, and none could be the root. -/
theorem not_cycle (h : Rooted live parent a) :
    ¬ Relation.TransGen (fun x y => parent x = some y) a a := by
  induction h with
  | root _ hroot =>
    intro hcycle
    obtain ⟨b, hb, _⟩ := Relation.TransGen.head'_iff.mp hcycle
    rw [hroot] at hb
    cases hb
  | child _ hparent _ ih =>
    intro hcycle
    obtain ⟨b, hb, hrest⟩ := Relation.TransGen.head'_iff.mp hcycle
    rw [hparent] at hb
    cases hb
    exact ih (Relation.TransGen.tail'_iff.mpr ⟨_, hrest, hparent⟩)

/-- Nodes that stay live with the parents they had stay rooted. -/
theorem mono (keep : ∀ x, live x → live' x ∧ parent' x = parent x) (h : Rooted live parent a) :
    Rooted live' parent' a := by
  induction h with
  | root ha hroot => exact .root (keep _ ha).1 ((keep _ ha).2.trans hroot)
  | child ha hparent _ ih => exact .child (keep _ ha).1 ((keep _ ha).2.trans hparent) ih

/-- Away from a leaf, nothing depends on it. -/
theorem without_leaf (leaf : ∀ x, live x → parent x ≠ some c)
    (keep : ∀ x, live x → x ≠ c → live' x ∧ parent' x = parent x)
    (h : Rooted live parent a) (ha : a ≠ c) : Rooted live' parent' a := by
  induction h with
  | root hlive hroot => exact .root (keep _ hlive ha).1 ((keep _ hlive ha).2.trans hroot)
  | @child a b hlive hparent _ ih =>
    have hb : b ≠ c := fun e => leaf a hlive (e ▸ hparent)
    exact .child (keep _ hlive ha).1 ((keep _ hlive ha).2.trans hparent) (ih hb)

end Rooted

/-- Live nodes with parents, every one rooted. -/
structure Forest (α : Type*) where
  live : α → Prop
  parent : α → Option α
  rooted : ∀ a, live a → Rooted live parent a

namespace Forest

variable (F : Forest α)

/-- No node is its own ancestor. -/
theorem acyclic {a : α} (ha : F.live a) :
    ¬ Relation.TransGen (fun x y => F.parent x = some y) a a :=
  (F.rooted a ha).not_cycle

/-- A parent is live. -/
theorem live_parent {a b : α} (ha : F.live a) (h : F.parent a = some b) : F.live b := by
  cases F.rooted a ha with
  | root _ hroot => rw [hroot] at h; cases h
  | child _ hparent hrest =>
    rw [hparent] at h
    cases h
    exact hrest.isLive

/-- The rule for growth: one fresh node, a root or under a live node, the rest as it was. -/
def graft {live' : α → Prop} {parent' : α → Option α} (c : α)
    (keep : ∀ x, F.live x → live' x ∧ parent' x = F.parent x)
    (new : ∀ x, live' x → x = c ∨ F.live x) (fresh : live' c)
    (under : ∀ b, parent' c = some b → F.live b) : Forest α where
  live := live'
  parent := parent'
  rooted := by
    intro a ha
    rcases new a ha with rfl | hold
    · cases hp : parent' a with
      | none => exact .root fresh hp
      | some b => exact .child fresh hp ((F.rooted b (under b hp)).mono keep)
    · exact (F.rooted a hold).mono keep

/-- The rule for pruning: one leaf goes, the rest as it was. -/
def prune {live' : α → Prop} {parent' : α → Option α} (c : α)
    (leaf : ∀ x, F.live x → F.parent x ≠ some c)
    (keep : ∀ x, F.live x → x ≠ c → live' x ∧ parent' x = F.parent x)
    (rest : ∀ x, live' x → F.live x ∧ x ≠ c) : Forest α where
  live := live'
  parent := parent'
  rooted := fun a ha => (F.rooted a (rest a ha).1).without_leaf leaf keep (rest a ha).2

end Forest
