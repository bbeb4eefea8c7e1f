import Mathlib.Algebra.Ring.Nat
import Mathlib.Tactic.Common

/-! Runs of a system that takes one labelled step after another, where a step
that cannot be taken leads nowhere. -/

namespace Transition

variable {State Label : Type}

/-- The state that some steps lead to, one after the other. -/
def run (step : Label → State → Option State) : List Label → State → Option State
  | [], state => some state
  | label :: rest, state => (step label state).bind (run step rest)

/-- Each step of a run is allowed in the state it is taken in. -/
def Throughout (step : Label → State → Option State) (allowed : Label → State → Prop) : List Label → State → Prop
  | [], _ => True
  | label :: rest, state =>
    allowed label state ∧ ∀ after ∈ step label state, Throughout step allowed rest after

instance Throughout.decidable (step : Label → State → Option State) (allowed : Label → State → Prop)
    [∀ label state, Decidable (allowed label state)] :
    (labels : List Label) → (state : State) → Decidable (Throughout step allowed labels state)
  | [], _ => isTrue trivial
  | label :: rest, state =>
    have := Throughout.decidable step allowed rest
    inferInstanceAs (Decidable (_ ∧ ∀ after ∈ step label state, _))

variable {step : Label → State → Option State} {allowed : Label → State → Prop} {inv : State → Prop}
  {labels : List Label} {state final : State}

theorem run_cons {label : Label} {rest : List Label} (ran : run step (label :: rest) state = some final) :
    ∃ after, step label state = some after ∧ run step rest after = some final :=
  Option.bind_eq_some_iff.mp ran

/-- What every allowed step keeps holds at the end of a run of them. -/
theorem run_throughout (kept : ∀ label state after, inv state → allowed label state → step label state = some after →
      inv after) (holds : inv state) (through : Throughout step allowed labels state)
    (ran : run step labels state = some final) : inv final := by
  induction labels generalizing state with
  | nil =>
    obtain rfl := Option.some.inj ran
    exact holds
  | cons label rest ih =>
    obtain ⟨after, stepped, ran⟩ := run_cons ran
    exact ih (kept label state after holds through.1 stepped) (through.2 after stepped) ran

/-- What holds of an allowed step wherever it is taken holds of each step of a run of them. -/
theorem throughout_of_inv {good : Label → State → Prop}
    (kept : ∀ label state after, inv state → allowed label state → step label state = some after → inv after)
    (fine : ∀ label state, inv state → allowed label state → good label state) (holds : inv state)
    (through : Throughout step allowed labels state) : Throughout step good labels state := by
  induction labels generalizing state with
  | nil => trivial
  | cons label rest ih =>
    refine ⟨fine label state holds through.1, fun after stepped => ?_⟩
    exact ih (kept label state after holds through.1 stepped) (through.2 after stepped)

/-- Two tests that agree wherever the first lets a run get agree on the whole run. -/
theorem throughout_congr {good : Label → State → Prop}
    (kept : ∀ label state after, inv state → allowed label state → step label state = some after → inv after)
    (same : ∀ label state, inv state → (allowed label state ↔ good label state)) (holds : inv state) :
    Throughout step allowed labels state ↔ Throughout step good labels state := by
  constructor
  · exact throughout_of_inv kept (fun label state holds => (same label state holds).mp) holds
  · apply throughout_of_inv
    · exact fun label state after holds fine => kept label state after holds ((same label state holds).mpr fine)
    · exact fun label state holds => (same label state holds).mpr
    · exact holds

/-- A test of the labels alone. -/
theorem throughout_labels {fine : Label → Prop} (labels : List Label) (all : ∀ label ∈ labels, fine label) (state : State) :
    Throughout step (fun label _ => fine label) labels state := by
  induction labels generalizing state with
  | nil => trivial
  | cons label rest ih =>
    exact ⟨all label List.mem_cons_self, fun after _ => ih (fun later member => all later (List.mem_cons_of_mem _ member)) after⟩

/-- What every step keeps holds at the end of a run. -/
theorem run_inv (kept : ∀ label state after, inv state → step label state = some after → inv after) (holds : inv state)
    (ran : run step labels state = some final) : inv final :=
  run_throughout (fun label state after holds _ stepped => kept label state after holds stepped) holds
    (throughout_labels labels (fun _ _ => trivial) state) ran

/-- A run is no longer than the weight it starts with and what its labels add
to it, where every step uses some up. -/
theorem run_length {weight : State → Nat} {credit : Label → Nat}
    (paid : ∀ label state after, step label state = some after → weight after + 1 ≤ weight state + credit label)
    (ran : run step labels state = some final) :
    weight final + labels.length ≤ weight state + (labels.map credit).sum := by
  induction labels generalizing state with
  | nil =>
    obtain rfl := Option.some.inj ran
    exact Nat.le_refl _
  | cons label rest ih =>
    obtain ⟨after, stepped, ran⟩ := run_cons ran
    have first := paid label state after stepped
    have later := ih ran
    rw [List.length_cons, List.map_cons, List.sum_cons]
    omega

end Transition
