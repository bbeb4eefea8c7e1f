import Pingkv.Lib.Alike

/-! Calls that act on one part of a state, next to something they only look at. Such
a call does the same in any state that agrees there, and leaves the rest alone. -/

namespace Exec

/-- A part of a state that a call may change, and what it may look at besides. -/
structure Region (σ ρ τ : Type) where
  look : σ → ρ
  view : σ → τ
  put : τ → σ → σ
  look_put : ∀ part state, look (put part state) = look state
  view_put : ∀ part state, view (put part state) = part
  put_put : ∀ part other state, put part (put other state) = put part state
  put_view : ∀ state, put (view state) state = state

variable {σ ρ τ α β : Type}

/-- A call that acts on this part only. -/
def Region.Confines (region : Region σ ρ τ) (call : Exec σ α) : Prop :=
  ∃ act : ρ → Exec τ α, ∀ state, call state =
    ((act (region.look state) (region.view state)).1, region.put (act (region.look state) (region.view state)).2 state)

namespace Region

variable {region : Region σ ρ τ} {call : Exec σ α} {state other : σ}

/-- A call that never looks at the state. -/
theorem confines_const {outcome : Except Stop α} (same : ∀ state, call state = (outcome, state)) : region.Confines call :=
  ⟨fun _ view => (outcome, view), fun state => by rw [same, region.put_view]⟩

theorem confines_pure (value : α) : region.Confines (pure value : Exec σ α) := confines_const fun _ => rfl

theorem confines_stop (reason : Stop) : region.Confines (stop reason : Exec σ α) := confines_const fun _ => rfl

theorem confines_read {value : σ → α} (what : ρ → τ → α) (seen : ∀ state, value state = what (region.look state) (region.view state)) :
    region.Confines (read value) :=
  ⟨fun look view => (.ok (what look view), view), fun state => by rw [read_run, seen, region.put_view]⟩

theorem Confines.bind {next : α → Exec σ β} (first : region.Confines call) (second : ∀ value, region.Confines (next value)) :
    region.Confines (call >>= next) := by
  obtain ⟨act, same⟩ := first
  choose later same' using second
  refine ⟨fun look => act look >>= fun value => later value look, fun state => ?_⟩
  dsimp only
  cases ran : act (region.look state) (region.view state) with
  | mk outcome after =>
    have here := same state
    rw [ran] at here
    cases outcome with
    | error reason => rw [bind_error here, bind_error ran]
    | ok value =>
      rw [bind_ok here, bind_ok ran, same', region.look_put, region.view_put, region.put_put]

theorem Confines.attempt (confined : region.Confines call) : region.Confines (attempt call) := by
  obtain ⟨act, same⟩ := confined
  refine ⟨fun look => Exec.attempt (act look), fun state => ?_⟩
  dsimp only
  cases ran : act (region.look state) (region.view state) with
  | mk outcome after =>
    have here := same state
    rw [ran] at here
    cases outcome with
    | ok value => rw [attempt_ok here, attempt_ok ran]
    | error reason =>
      by_cases code : reason = .failed
      · subst code
        rw [attempt_failed here, attempt_failed ran]
      · rw [attempt_error here code, attempt_error ran code]

theorem confines_ite {condition : Prop} [Decidable condition] {call' : Exec σ α} (yes : region.Confines call)
    (no : region.Confines call') : region.Confines (if condition then call else call') := by
  split
  · exact yes
  · exact no

/-- The rest of the state stays. -/
theorem Confines.left (confined : region.Confines call) (state : σ) : (call state).2 = region.put (region.view (call state).2) state := by
  obtain ⟨act, same⟩ := confined
  rw [same, region.view_put]

/-- The call does the same wherever the part is the same. -/
theorem Confines.same (confined : region.Confines call) (look : region.look other = region.look state)
    (view : region.view other = region.view state) : call other = ((call state).1, region.put (region.view (call state).2) other) := by
  obtain ⟨act, same⟩ := confined
  rw [same other, same state, look, view, region.view_put]

/-- What does not depend on the part is kept. -/
theorem Confines.keeps {stays : σ → Prop} (confined : region.Confines call)
    (blind : ∀ view state, stays state → stays (region.put view state)) : Keeps stays call := by
  intro state holds
  have left : stays (call state).2 := by
    rw [confined.left]
    exact blind _ state holds
  cases ran : call state with
  | mk outcome after =>
    rw [ran] at left
    cases outcome with
    | ok value => exact wp_of_ok ran left
    | error reason => exact wp_of_error ran left

/-- States that agree on the part, and on what is looked at, still do. -/
theorem Confines.alike {alike : σ → σ → Prop} (confined : region.Confines call)
    (seen : ∀ left right, alike left right → region.look left = region.look right ∧ region.view left = region.view right)
    (kept : ∀ part left right, alike left right → alike (region.put part left) (region.put part right)) : Alike alike call := by
  intro left right same
  obtain ⟨look, view⟩ := seen left right same
  rw [confined.same look view, confined.left right, region.view_put]
  exact ⟨rfl, kept _ left right same⟩

end Region

end Exec
