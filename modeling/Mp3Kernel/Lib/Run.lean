import Mathlib.Logic.Relation

/-!
# Runs of a machine

A machine is a partial step function: an event either takes a state to the next one
or is not possible there. `Reach` is reachability by steps that each meet a condition,
and `Reach.invariant` is the one induction over runs that the safety results use.

Two things are added for properties that speak of a run's past. `withHistory` pairs a
machine with a variable it never reads. `Along` and `Meets` follow one list of events,
so that a property of every state reached and a condition on every step taken can be
compared: `along_iff_meets` is the rule for a condition that is exact.
-/

namespace Runs

variable {State Event : Type*}

/-- `Reach step ok s t`: events accepted by the machine, each meeting `ok` in the state it
is taken in, lead from `s` to `t`. -/
inductive Reach (step : Event → State → Option State) (ok : State → Event → Prop) (s : State) :
    State → Prop
  | refl : Reach step ok s s
  | tail {t u : State} {e : Event} :
      Reach step ok s t → ok t e → step e t = some u → Reach step ok s u

section Invariants

variable {step : Event → State → Option State} {ok ok' : State → Event → Prop} {s t u : State}

/-- An invariant that holds at the start and is kept by every step holds at the end. -/
theorem Reach.invariant (Inv : State → Prop) (start : Inv s)
    (kept : ∀ t e u, Inv t → ok t e → step e t = some u → Inv u)
    (run : Reach step ok s t) : Inv t := by
  induction run with
  | refl => exact start
  | tail _ hok hstep ih => exact kept _ _ _ ih hok hstep

/-- A list of events that the machine accepts, each of which always meets the condition. -/
theorem Reach.of_events :
    ∀ {es : List Event} {t : State}, Reach step ok s t → (∀ e ∈ es, ∀ t, ok t e) →
      es.foldlM (fun t e => step e t) t = some u → Reach step ok s u
  | [], _, run, _, h => Option.some.inj h ▸ run
  | e :: es, t, run, all, h => by
    rw [List.foldlM_cons] at h
    obtain ⟨t', hstep, hrest⟩ := Option.bind_eq_some_iff.mp h
    exact of_events (run.tail (all e List.mem_cons_self t) hstep)
      (fun e he => all e (List.mem_cons_of_mem _ he)) hrest

end Invariants

/-! ## History variables -/

section History

variable {History : Type*} (step : Event → State → Option State)
  (note : Event → State → State → History → History)

/-- The machine with a history variable: it steps as before, and `note` updates the
variable from the event and the states around it. -/
def withHistory (e : Event) (s : State × History) : Option (State × History) :=
  (step e s.1).map fun t => (t, note e s.1 t s.2)

variable {step note}

/-- A step of the machine with history is a step of the machine. -/
theorem withHistory_some {e : Event} {s t : State × History}
    (h : withHistory step note e s = some t) :
    step e s.1 = some t.1 ∧ t.2 = note e s.1 t.1 s.2 := by
  obtain ⟨u, hu, rfl⟩ := Option.map_eq_some_iff.mp h
  exact ⟨hu, rfl⟩

end History

/-! ## Following a list of events -/

section Lists

variable (step : Event → State → Option State) (allowed : State → Event → Prop)

/-- `P` holds in every state the events lead through. An event that is not allowed, or that
the machine does not accept, ends the run. -/
def Along (P : State → Prop) : State → List Event → Prop
  | _, [] => True
  | s, e :: es => ∀ t, allowed s e → step e s = some t → P t ∧ Along P t es

/-- Every event taken on the way meets `ok` in the state it is taken in. -/
def Meets (ok : State → Event → Prop) : State → List Event → Prop
  | _, [] => True
  | s, e :: es => ∀ t, allowed s e → step e s = some t → ok s e ∧ Meets ok t es

variable {step allowed}

/-- The rule for two conditions on steps: if they say the same under an invariant that the
steps that meet them keep, then they say the same along every run. -/
theorem meets_congr (Inv : State → Prop) {ok ok' : State → Event → Prop}
    (kept : ∀ s e t, Inv s → allowed s e → ok' s e → step e s = some t → Inv t)
    (same : ∀ s e t, Inv s → allowed s e → step e s = some t → (ok s e ↔ ok' s e)) :
    ∀ {es : List Event} {s : State}, Inv s →
      (Meets step allowed ok s es ↔ Meets step allowed ok' s es)
  | [], _, _ => Iff.rfl
  | e :: es, s, hs => by
    refine forall_congr' fun t => forall_congr' fun hallowed => forall_congr' fun ht => ?_
    rw [same s e t hs hallowed ht]
    refine and_congr_right fun hok => ?_
    exact meets_congr Inv kept same (kept s e t hs hallowed hok ht)

/-- The rule for an exact condition: if, under the invariant, a step that reaches `P` meets
`ok`, and a step that meets `ok` reaches `P` and keeps the invariant, then `P` holds all along
a run just when all its steps meet `ok`. -/
theorem along_iff_meets (Inv : State → Prop) {P : State → Prop} {ok : State → Event → Prop}
    (needed : ∀ s e t, Inv s → allowed s e → step e s = some t → P t → ok s e)
    (kept : ∀ s e t, Inv s → allowed s e → step e s = some t → ok s e → Inv t)
    (reaches : ∀ s, Inv s → P s) :
    ∀ {es : List Event} {s : State}, Inv s →
      (Along step allowed P s es ↔ Meets step allowed ok s es)
  | [], _, _ => Iff.rfl
  | e :: es, s, hs => by
    constructor
    · intro along t hallowed ht
      obtain ⟨hp, hrest⟩ := along t hallowed ht
      have hok := needed s e t hs hallowed ht hp
      exact ⟨hok,
        (along_iff_meets Inv needed kept reaches (kept s e t hs hallowed ht hok)).mp hrest⟩
    · intro meets t hallowed ht
      obtain ⟨hok, hrest⟩ := meets t hallowed ht
      have hinv := kept s e t hs hallowed ht hok
      exact ⟨reaches t hinv, (along_iff_meets Inv needed kept reaches hinv).mpr hrest⟩

end Lists

end Runs
