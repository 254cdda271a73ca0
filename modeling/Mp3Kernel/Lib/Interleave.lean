import Mathlib.Logic.Basic

/-!
# One component of an interleaved run

A system of several components takes steps, and a step may send one item to one component.
When every component's view changes by the items sent to it and by nothing else, its view
after a run is what its own items alone make of it, however they were interleaved with the
others' (`view_run`).
-/

namespace Interleave

variable {State Event Key Item View : Type*} [DecidableEq Key]

/-- The items a run sends to one component. -/
def own (step : State → Event → State) (sends : State → Event → Option (Key × Item)) (key : Key) :
    State → List Event → List Item
  | _, [] => []
  | s, e :: es =>
    match sends s e with
    | some (key', item) =>
      if key' = key then item :: own step sends key (step s e) es
      else own step sends key (step s e) es
    | none => own step sends key (step s e) es

variable {step : State → Event → State} {sends : State → Event → Option (Key × Item)} {key : Key}

/-- What one step must do, in states with the invariant and for the events admitted. -/
structure Acts (step : State → Event → State) (sends : State → Event → Option (Key × Item))
    (key : Key) (Inv : State → Prop) (admitted : Event → Prop) (view : State → View)
    (act : View → Item → View) : Prop where
  keeps : ∀ s e, Inv s → admitted e → Inv (step s e)
  sent : ∀ s e item, Inv s → admitted e → sends s e = some (key, item) →
    view (step s e) = act (view s) item
  unsent : ∀ s e, Inv s → admitted e → (∀ item, sends s e ≠ some (key, item)) →
    view (step s e) = view s

/-- A component's view after a run, and the invariant. -/
theorem Acts.view_run {Inv : State → Prop} {admitted : Event → Prop} {view : State → View}
    {act : View → Item → View} (A : Acts step sends key Inv admitted view act) (es : List Event)
    (h : ∀ e ∈ es, admitted e) {s : State} (start : Inv s) :
    Inv (es.foldl step s) ∧
      view (es.foldl step s) = (own step sends key s es).foldl act (view s) := by
  induction es generalizing s with
  | nil => exact ⟨start, rfl⟩
  | cons e es ih =>
    have he : admitted e := h e List.mem_cons_self
    obtain ⟨hinv, hview⟩ :=
      ih (fun e' he' => h e' (List.mem_cons_of_mem _ he')) (A.keeps s e start he)
    refine ⟨hinv, ?_⟩
    rw [List.foldl_cons, hview]
    cases hsends : sends s e with
    | none =>
      have hother : ∀ item, sends s e ≠ some (key, item) := by
        intro item heq
        rw [hsends] at heq
        cases heq
      simp only [own, hsends]
      rw [A.unsent s e start he hother]
    | some sent =>
      obtain ⟨key', item⟩ := sent
      by_cases hkey : key' = key
      · subst hkey
        simp only [own, hsends, if_true, List.foldl_cons]
        rw [A.sent s e item start he hsends]
      · have hother : ∀ item', sends s e ≠ some (key, item') := by
          intro item' heq
          rw [hsends] at heq
          exact hkey (congrArg Prod.fst (Option.some.inj heq))
        simp only [own, hsends, if_neg hkey]
        rw [A.unsent s e start he hother]

end Interleave
