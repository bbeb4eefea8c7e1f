import Mathlib.Tactic.Common

/-! Systems whose steps show events, the traces of events their runs leave, and
the simulation of one system by another. -/

namespace Simulation

variable {State Model Event : Type}

/-- Steps one after another, with the events they show. -/
inductive Trace (step : State → Event → State → Prop) : State → List Event → State → Prop where
  | done (state : State) : Trace step state [] state
  | next {before mid after : State} {event : Event} {events : List Event} (first : step before event mid)
      (rest : Trace step mid events after) : Trace step before (event :: events) after

variable {step : State → Event → State → Prop} {model : Model → Event → Model → Prop} {related : State → Model → Prop}
  {state mid final : State} {events later : List Event} {event : Event}

/-- A trace comes apart wherever its events do. -/
theorem Trace.split (trace : Trace step state (events ++ later) final) :
    ∃ mid, Trace step state events mid ∧ Trace step mid later final := by
  induction events generalizing state with
  | nil => exact ⟨state, .done state, trace⟩
  | cons event events ih =>
    cases trace with
    | next first rest =>
      obtain ⟨mid, before, behind⟩ := ih rest
      exact ⟨mid, .next first before, behind⟩

/-- The trace of a system that takes the same steps and shows more. -/
theorem Trace.map {Shown : Type} {richer : State → Shown → State → Prop} (seen : Event → Shown)
    (takes : ∀ {before event after}, step before event after → richer before (seen event) after)
    (trace : Trace step state events final) : Trace richer state (events.map seen) final := by
  induction trace with
  | done => exact .done _
  | next first _ ih => exact .next (takes first) ih

/-- Where every welcome step keeps an invariant and shows a fine event, a trace of
welcome events shows only fine ones. -/
theorem Trace.each (inv : State → Prop) (welcome : Event → Prop) {fine : Event → Prop}
    (kept : ∀ {before event after}, inv before → welcome event → step before event after → inv after ∧ fine event)
    (holds : inv state) (trace : Trace step state events final) (allowed : ∀ event ∈ events, welcome event) :
    ∀ event ∈ events, fine event := by
  induction trace with
  | done => simp
  | next first _ ih =>
    obtain ⟨held, shown⟩ := kept holds (allowed _ List.mem_cons_self) first
    exact List.forall_mem_cons.mpr ⟨shown, ih held fun event member => allowed event (List.mem_cons_of_mem _ member)⟩

/-- Welcome events leave an invariant that their steps keep. -/
theorem Trace.keeps (inv : State → Prop) (welcome : Event → Prop)
    (kept : ∀ {before event after}, inv before → welcome event → step before event after → inv after)
    (holds : inv state) (trace : Trace step state events final) (allowed : ∀ event ∈ events, welcome event) : inv final := by
  induction trace with
  | done => exact holds
  | next first _ ih =>
    exact ih (kept holds (allowed _ List.mem_cons_self) first) fun event member => allowed event (List.mem_cons_of_mem _ member)

/-- Where every step sets a view of the state or leaves it, the last that sets it stays. -/
theorem Trace.last_write {α : Type} {view : State → α} {write : Event → Option α}
    (sets : ∀ {before event after}, step before event after → view after = (write event).getD (view before))
    (trace : Trace step state events final) : view final = (events.filterMap write).getLast?.getD (view state) := by
  induction trace with
  | done => rfl
  | @next _ _ _ event _ first _ ih =>
    rw [ih, sets first]
    cases written : write event with
    | none => simp [written]
    | some value =>
      rw [List.filterMap_cons_some written, List.getLast?_cons]
      rfl

/-- Every step from a state that stands for one of the model is a step of the model
with the same event. -/
def Simulates (step : State → Event → State → Prop) (model : Model → Event → Model → Prop)
    (related : State → Model → Prop) : Prop :=
  ∀ {before shown event after}, related before shown → step before event after →
    ∃ shown', model shown event shown' ∧ related after shown'

/-- What a run shows, a run of the model shows. -/
theorem Simulates.trace (simulates : Simulates step model related) {shown : Model} (start : related state shown)
    (trace : Trace step state events final) : ∃ shown', Trace model shown events shown' ∧ related final shown' := by
  induction trace generalizing shown with
  | done => exact ⟨shown, .done shown, start⟩
  | next first _ ih =>
    obtain ⟨mid, stepped, held⟩ := simulates start first
    obtain ⟨last, rest, ended⟩ := ih held
    exact ⟨last, .next stepped rest, ended⟩

/-- A model of a model. -/
theorem Simulates.comp {Top : Type} {top : Top → Event → Top → Prop} {above : Model → Top → Prop}
    (lower : Simulates step model related) (upper : Simulates model top above) :
    Simulates step top fun state shown => ∃ mid, related state mid ∧ above mid shown := by
  rintro before shown event after ⟨mid, low, high⟩ stepped
  obtain ⟨mid', stepped', low'⟩ := lower low stepped
  obtain ⟨shown', shows, high'⟩ := upper high stepped'
  exact ⟨shown', shows, mid', low', high'⟩

/-- What a model allows of its events wherever it can be is what a run shows. -/
theorem Simulates.shows {fine : List Event → Prop} (simulates : Simulates step model related) {shown : Model}
    (start : related state shown) (allowed : ∀ {events last}, Trace model shown events last → fine events)
    (trace : Trace step state events final) : fine events := by
  obtain ⟨last, ran, _⟩ := simulates.trace start trace
  exact allowed ran

end Simulation
