import Mathlib.Data.List.Basic

/-! A run of writes to one field: the last write that takes effect stays. -/

variable {σ ω α β : Type}

/-- Each write of a run sets a view of the state or leaves it. -/
def Writes (step : σ → ω → σ) (view : σ → α) (write : ω → Option α) (items : List ω) : Prop :=
  ∀ item ∈ items, ∀ state, view (step state item) = (write item).getD (view state)

theorem Writes.foldl {step : σ → ω → σ} {view : σ → α} {write : ω → Option α} {items : List ω}
    (writes : Writes step view write items) (state : σ) :
    view (items.foldl step state) = (items.filterMap write).getLast?.getD (view state) := by
  induction items generalizing state with
  | nil => rfl
  | cons item rest ih =>
    have first := writes item List.mem_cons_self state
    have later := ih (fun other member => writes other (List.mem_cons_of_mem _ member)) (step state item)
    rw [List.foldl_cons, later, first]
    cases written : write item with
    | none => simp [written]
    | some value =>
      rw [List.filterMap_cons_some written, List.getLast?_cons]
      rfl

/-- Writes that all take effect, by what they say. -/
theorem Writes.said {step : σ → ω → σ} {view : σ → β} {said : ω → Option α} {meaning : α → β} {items : List ω}
    (writes : Writes step view (fun item => (said item).map meaning) items) (state : σ) :
    view (items.foldl step state) = (items.filterMap said).getLast?.elim (view state) meaning := by
  rw [writes.foldl, ← List.map_filterMap, List.getLast?_map]
  cases (items.filterMap said).getLast? <;> rfl
