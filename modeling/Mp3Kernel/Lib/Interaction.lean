import Mathlib.Logic.Function.Basic

/-!
# Programs that make calls

A program is a tree: it is done, it has used up the turns it was given for a loop, or it makes a
call and goes on from the answer. It has its machine to itself only while a call lasts: before
each call the state may change as `rely` allows.

`Always` is total correctness under all of that: whatever happens between the calls, every call
is answered, the program is done in the end, and its calls, its result and the state they leave
satisfy a postcondition.
-/

namespace Interaction

/-- Programs with calls `C`, answered in `R`. -/
inductive Program (C : Type) (R : C → Type) (α : Type)
  | done (a : α)
  | stuck
  | call (c : C) (next : R c → Program C R α)

/-- A call that was made, with its answer. -/
structure Event (C : Type) (R : C → Type) where
  call : C
  answer : R call

/-- What answers the calls, and what others may do to the state meanwhile. -/
structure Machine (C : Type) (R : C → Type) (State : Type) where
  rely : State → State → Prop
  act : (c : C) → State → Option (State × R c)

namespace Program

variable {C : Type} {R : C → Type} {State α β : Type}

def bind : Program C R α → (α → Program C R β) → Program C R β
  | .done a, f => f a
  | .stuck, _ => .stuck
  | .call c next, f => .call c fun r => (next r).bind f

instance : Monad (Program C R) where
  pure := .done
  bind := bind

/-- Whatever happens between its calls, the program is done in the end, and what it did, what it
returns and the state it leaves satisfy `post`. -/
def Always (m : Machine C R State) :
    Program C R α → (List (Event C R) → α → State → Prop) → State → Prop
  | .done a, post, s => post [] a s
  | .stuck, _, _ => False
  | .call c next, post, s =>
    ∀ s₁, m.rely s s₁ → ∃ r s₂, m.act c s₁ = some (s₂, r) ∧
      (next r).Always m (fun es => post (⟨c, r⟩ :: es)) s₂

variable {m : Machine C R State} {p : Program C R α} {s : State}
  {post post' : List (Event C R) → α → State → Prop}

theorem always_pure {a : α} (h : post [] a s) : (pure a : Program C R α).Always m post s := h

/-- A weaker postcondition. -/
theorem Always.mono (h : p.Always m post s) (weaker : ∀ es a s, post es a s → post' es a s) :
    p.Always m post' s := by
  induction p generalizing s post post' with
  | done a => exact weaker _ _ _ h
  | stuck => exact h
  | call c next ih =>
    intro s₁ hrely
    obtain ⟨r, s₂, hact, hnext⟩ := h s₁ hrely
    exact ⟨r, s₂, hact, ih r hnext fun es => weaker _⟩

/-- A program and then another: the second starts where the first stops, with its calls made. -/
theorem Always.bind {f : α → Program C R β} {post' : List (Event C R) → β → State → Prop}
    (h : p.Always m (fun es a => (f a).Always m fun es' => post' (es ++ es')) s) :
    (p >>= f).Always m post' s := by
  induction p generalizing s post' with
  | done a => exact h
  | stuck => exact h
  | call c next ih =>
    intro s₁ hrely
    obtain ⟨r, s₂, hact, hnext⟩ := h s₁ hrely
    exact ⟨r, s₂, hact, ih r hnext⟩

end Program

end Interaction
