import Mathlib.Tactic.Common

/-! Calls over a mutable state, in the manner of C: a call returns a value, or
returns its error code, or never returns. What it did to the state before it
stopped is kept in every case. -/

/-- How a call can end other than by returning a value. -/
inductive Exec.Stop where
  | failed
  | fault
  | exhausted
  deriving DecidableEq, Repr

/-- `failed` is the error code, `fault` an access outside the memory the call
may touch, `exhausted` a loop that used up its whole fuel. -/
def Exec (σ α : Type) : Type := σ → Except Exec.Stop α × σ

namespace Exec

variable {σ τ α β γ : Type}

protected def pure (value : α) : Exec σ α := fun state => (.ok value, state)

protected def bind (call : Exec σ α) (next : α → Exec σ β) : Exec σ β := fun state =>
  match call state with
  | (.ok value, after) => next value after
  | (.error stop, after) => (.error stop, after)

instance : Monad (Exec σ) where
  pure := Exec.pure
  bind := Exec.bind

def stop (reason : Stop) : Exec σ α := fun state => (.error reason, state)

/-- `return -1`. -/
def failed : Exec σ α := stop .failed

def fault : Exec σ α := stop .fault

def exhausted : Exec σ α := stop .exhausted

def read (view : σ → α) : Exec σ α := fun state => (.ok (view state), state)

def update (change : σ → σ) : Exec σ Unit := fun state => (.ok (), change state)

/-- Run a call and go on when it returns its error code. -/
def attempt (call : Exec σ α) : Exec σ (Option α) := fun state =>
  match call state with
  | (.ok value, after) => (.ok (some value), after)
  | (.error .failed, after) => (.ok none, after)
  | (.error reason, after) => (.error reason, after)

/-- Run a call on one component of a larger state. -/
def within (view : τ → σ) (put : σ → τ → τ) (call : Exec σ α) : Exec τ α := fun state =>
  ((call (view state)).1, put (call (view state)).2 state)

@[simp] theorem pure_run (value : α) (state : σ) :
    (pure value : Exec σ α) state = (.ok value, state) := rfl

@[simp] theorem stop_run (reason : Stop) (state : σ) :
    (stop reason : Exec σ α) state = (.error reason, state) := rfl

@[simp] theorem failed_run (state : σ) : (failed : Exec σ α) state = (.error .failed, state) := rfl

@[simp] theorem fault_run (state : σ) : (fault : Exec σ α) state = (.error .fault, state) := rfl

@[simp] theorem exhausted_run (state : σ) :
    (exhausted : Exec σ α) state = (.error .exhausted, state) := rfl

@[simp] theorem read_run (view : σ → α) (state : σ) : read view state = (.ok (view state), state) := rfl

@[simp] theorem update_run (change : σ → σ) (state : σ) :
    update change state = (.ok (), change state) := rfl

/-- A bind whose first call returns goes on with the value and the state left behind. -/
theorem bind_ok {call : Exec σ α} {next : α → Exec σ β} {state after : σ} {value : α}
    (returned : call state = (.ok value, after)) : (call >>= next) state = next value after := by
  change Exec.bind call next state = _
  simp only [Exec.bind, returned]

theorem bind_error {call : Exec σ α} {next : α → Exec σ β} {state after : σ} {reason : Stop}
    (stopped : call state = (.error reason, after)) :
    (call >>= next) state = (.error reason, after) := by
  change Exec.bind call next state = _
  simp only [Exec.bind, stopped]

theorem attempt_ok {call : Exec σ α} {state after : σ} {value : α}
    (returned : call state = (.ok value, after)) :
    attempt call state = (.ok (some value), after) := by
  simp only [attempt, returned]

theorem attempt_failed {call : Exec σ α} {state after : σ}
    (stopped : call state = (.error .failed, after)) : attempt call state = (.ok none, after) := by
  simp only [attempt, stopped]

/-- An attempt does not go on behind anything but an error code. -/
theorem attempt_error {call : Exec σ α} {state after : σ} {reason : Stop}
    (stopped : call state = (.error reason, after)) (other : reason ≠ .failed) :
    attempt call state = (.error reason, after) := by
  cases reason with
  | failed => exact absurd rfl other
  | fault | exhausted => simp only [attempt, stopped]

/-- An attempt that hands out a value comes from a call that returned it. -/
theorem attempt_eq_some {call : Exec σ α} {state after : σ} {value : α}
    (attempted : attempt call state = (.ok (some value), after)) : call state = (.ok value, after) := by
  cases run : call state with
  | mk outcome last =>
    rcases outcome with (_ | _ | _) | returned <;> simp only [attempt, run] at attempted <;> cases attempted
    rfl

theorem within_ok {view : τ → σ} {put : σ → τ → τ} {call : Exec σ α} {state : τ} {value : α} {after : σ}
    (returned : call (view state) = (.ok value, after)) :
    within view put call state = (.ok value, put after state) := by
  rw [within, returned]

/-- What holds of the state behind a call that returns. -/
theorem exists_ok_iff {call : Exec σ α} {value : α} {state final : σ} {holds : σ → Prop}
    (run : call state = (.ok value, final)) : (∃ after, call state = (.ok value, after) ∧ holds after) ↔ holds final := by
  constructor
  · rintro ⟨after, again, held⟩
    obtain ⟨_, rfl⟩ := Prod.mk.inj (run.symm.trans again)
    exact held
  · exact fun held => ⟨final, run, held⟩

/-- A bind returns exactly when both of its calls do. -/
theorem bind_eq_ok {call : Exec σ α} {next : α → Exec σ β} {state final : σ} {value : β}
    (returned : (call >>= next) state = (.ok value, final)) :
    ∃ first after, call state = (.ok first, after) ∧ next first after = (.ok value, final) := by
  cases run : call state with
  | mk outcome after =>
    cases outcome with
    | error reason => rw [bind_error run] at returned; cases returned
    | ok first => exact ⟨first, after, rfl, by rwa [bind_ok run] at returned⟩

/-- The outcome of a call that stops for a reason, or not at all. -/
def ending : Option Stop → Except Stop Unit
  | none => .ok ()
  | some reason => .error reason

/-- A run from its outcome alone. -/
theorem run_of_fst {call : Exec σ α} {state : σ} {outcome : Except Stop α}
    (ended : (call state).1 = outcome) : call state = (outcome, (call state).2) :=
  Prod.ext ended rfl

@[simp] theorem pure_bind_run (value : α) (next : α → Exec σ β) (state : σ) :
    ((pure value : Exec σ α) >>= next) state = next value state := rfl

@[simp] theorem read_bind_run (view : σ → α) (next : α → Exec σ β) (state : σ) :
    (read view >>= next) state = next (view state) state := rfl

@[simp] theorem update_bind_run (change : σ → σ) (next : Unit → Exec σ β) (state : σ) :
    (update change >>= next) state = next () (change state) := rfl

@[simp] theorem stop_bind_run (reason : Stop) (next : α → Exec σ β) (state : σ) :
    ((stop reason : Exec σ α) >>= next) state = (.error reason, state) := rfl

private theorem map_id_run (call : Exec σ α) : id <$> call = call := by
  funext state
  change Exec.bind call (fun value => Exec.pure (id value)) state = _
  simp only [Exec.bind, Exec.pure, id]
  cases call state with
  | mk outcome after => cases outcome <;> rfl

private theorem bind_assoc_run (call : Exec σ α) (next : α → Exec σ β) (last : β → Exec σ γ) :
    call >>= next >>= last = call >>= fun value => next value >>= last := by
  funext state
  change Exec.bind (Exec.bind call next) last state =
    Exec.bind call (fun value => Exec.bind (next value) last) state
  simp only [Exec.bind]
  cases call state with
  | mk outcome after => cases outcome <;> rfl

instance : LawfulMonad (Exec σ) :=
  LawfulMonad.mk' (Exec σ) map_id_run (fun _ _ => rfl) bind_assoc_run

/-- A loop over a list ends with the first turn that stops, where that does not depend on the state. -/
theorem forM_fst {items : List β} {turn : β → Exec σ Unit} {stops : β → Option Stop}
    (ends : ∀ item state, (turn item state).1 = ending (stops item)) (state : σ) :
    (items.forM turn state).1 = ending (items.findSome? stops) := by
  induction items generalizing state with
  | nil => rfl
  | cons item rest ih =>
    have own := ends item state
    rw [List.findSome?_cons]
    cases first : stops item with
    | none =>
      rw [first] at own
      exact (congrArg Prod.fst (bind_ok (run_of_fst own))).trans (ih _)
    | some reason =>
      rw [first] at own
      have stopped : turn item state = (.error reason, (turn item state).2) := run_of_fst own
      exact congrArg Prod.fst (bind_error stopped)

/-- The weakest precondition of a call: `post` of a value it returns, `halt`
of the way it stops, each with the state left behind. -/
def wp (call : Exec σ α) (post : α → σ → Prop) (halt : Stop → σ → Prop) (state : σ) : Prop :=
  match call state with
  | (.ok value, after) => post value after
  | (.error reason, after) => halt reason after

section Rules

variable {post weaker : α → σ → Prop} {halt halt' : Stop → σ → Prop} {state after : σ}

theorem wp_of_ok {call : Exec σ α} {value : α} (returned : call state = (.ok value, after))
    (holds : post value after) : wp call post halt state := by
  simpa only [wp, returned] using holds

theorem wp_of_error {call : Exec σ α} {reason : Stop} (stopped : call state = (.error reason, after))
    (holds : halt reason after) : wp call post halt state := by
  simpa only [wp, stopped] using holds

/-- What a weakest precondition says of a run that is known to return. -/
theorem wp.ok {call : Exec σ α} {value : α} (holds : wp call post halt state)
    (returned : call state = (.ok value, after)) : post value after := by
  simpa only [wp, returned] using holds

theorem wp.error {call : Exec σ α} {reason : Stop} (holds : wp call post halt state)
    (stopped : call state = (.error reason, after)) : halt reason after := by
  simpa only [wp, stopped] using holds

/-- A weakest precondition as a case split on the run. -/
theorem wp.cases {call : Exec σ α} (holds : wp call post halt state) :
    (∃ value after, call state = (.ok value, after) ∧ post value after) ∨
    (∃ reason after, call state = (.error reason, after) ∧ halt reason after) := by
  cases run : call state with
  | mk outcome after =>
    cases outcome with
    | ok value => exact .inl ⟨value, after, rfl, holds.ok run⟩
    | error reason => exact .inr ⟨reason, after, rfl, holds.error run⟩

/-- The same split for a run whose ending is given. -/
theorem wp.run {call : Exec σ α} {outcome : Except Stop α} (holds : wp call post halt state)
    (run : call state = (outcome, after)) :
    (∃ value, outcome = .ok value ∧ post value after) ∨
    (∃ reason, outcome = .error reason ∧ halt reason after) := by
  cases outcome with
  | ok value => exact .inl ⟨value, rfl, holds.ok run⟩
  | error reason => exact .inr ⟨reason, rfl, holds.error run⟩

theorem wp_always {call : Exec σ α} : wp call (fun _ _ => True) (fun _ _ => True) state := by
  unfold wp
  split <;> trivial

/-- A weakest precondition together with the run it is about. -/
theorem wp.ran {call : Exec σ α} (holds : wp call post halt state) :
    wp call (fun value after => call state = (.ok value, after) ∧ post value after) halt state := by
  rcases holds.cases with ⟨value, after, run, holds⟩ | ⟨reason, after, run, holds⟩
  · exact wp_of_ok run ⟨run, holds⟩
  · exact wp_of_error run holds

/-- Two calls that run alike. -/
theorem wp.congr {call call' : Exec σ α} {state' : σ} (holds : wp call' post halt state')
    (same : call state = call' state') : wp call post halt state := by
  simpa only [wp, same] using holds

/-- The rule of consequence. -/
theorem wp.mono {call : Exec σ α} (holds : wp call post halt state)
    (posts : ∀ value after, post value after → weaker value after)
    (halts : ∀ reason after, halt reason after → halt' reason after) :
    wp call weaker halt' state := by
  rcases holds.cases with ⟨value, after, run, holds⟩ | ⟨reason, after, run, holds⟩
  · exact wp_of_ok run (posts value after holds)
  · exact wp_of_error run (halts reason after holds)

/-- What a call returns, however it may stop. -/
theorem wp.loosen {call : Exec σ α} (holds : wp call post halt state) : wp call post (fun _ _ => True) state :=
  holds.mono (fun _ _ holds => holds) fun _ _ _ => trivial

theorem wp.and {call : Exec σ α} (holds : wp call post halt state) (also : wp call weaker halt' state) :
    wp call (fun value after => post value after ∧ weaker value after)
      (fun reason after => halt reason after ∧ halt' reason after) state := by
  rcases holds.cases with ⟨value, after, run, holds⟩ | ⟨reason, after, run, holds⟩
  · exact wp_of_ok run ⟨holds, also.ok run⟩
  · exact wp_of_error run ⟨holds, also.error run⟩

/-- The sequencing rule. -/
theorem wp_bind {call : Exec σ α} {next : α → Exec σ β} {final : β → σ → Prop}
    (first : wp call post halt state)
    (second : ∀ value after, post value after → wp (next value) final halt after) :
    wp (call >>= next) final halt state := by
  rcases first.cases with ⟨value, after, run, holds⟩ | ⟨reason, after, run, holds⟩
  · simpa only [wp, bind_ok run] using second value after holds
  · exact wp_of_error (bind_error run) holds

/-- Sequencing after a call whose run is known. -/
theorem wp_bind_ok {call : Exec σ α} {next : α → Exec σ β} {final : β → σ → Prop} {value : α}
    (returned : call state = (.ok value, after)) (rest : wp (next value) final halt after) :
    wp (call >>= next) final halt state := by
  simpa only [wp, bind_ok returned] using rest

/-- An attempted call goes on with nothing where the call returns its error code. -/
theorem wp_attempt {call : Exec σ α} {final : Option α → σ → Prop} (holds : wp call post halt state)
    (returned : ∀ value after, post value after → final (some value) after)
    (failed : ∀ after, halt .failed after → final none after) :
    wp (attempt call) final halt state := by
  rcases holds.cases with ⟨value, after, run, holds⟩ | ⟨reason, after, run, holds⟩
  · exact wp_of_ok (attempt_ok run) (returned value after holds)
  · cases reason with
    | failed => exact wp_of_ok (attempt_failed run) (failed after holds)
    | fault => exact wp_of_error (by simp only [attempt, run]) holds
    | exhausted => exact wp_of_error (by simp only [attempt, run]) holds

/-- An attempt of a call that stops with its error code only never stops. -/
theorem wp_attempt_failed {call : Exec σ α} {final : Option α → σ → Prop} {left : σ → Prop}
    (holds : wp call post (fun reason after => reason = .failed ∧ left after) state)
    (returned : ∀ value after, post value after → final (some value) after)
    (failed : ∀ after, left after → final none after) : wp (attempt call) final (fun _ _ => False) state := by
  rcases holds.cases with ⟨value, after, run, holds⟩ | ⟨_, after, run, rfl, holds⟩
  · exact wp_of_ok (attempt_ok run) (returned value after holds)
  · exact wp_of_ok (attempt_failed run) (failed after holds)

/-- A call on one component, judged by what it does to the whole. -/
theorem wp_within {view : τ → σ} {put : σ → τ → τ} {call : Exec σ α} {state : τ} {post : α → τ → Prop}
    {halt : Stop → τ → Prop} (holds : wp call (fun value after => post value (put after state))
      (fun reason after => halt reason (put after state)) (view state)) :
    wp (within view put call) post halt state := by
  rcases holds.cases with ⟨value, after, run, holds⟩ | ⟨reason, after, run, holds⟩
  · exact wp_of_ok (show within view put call state = _ by rw [within, run]) holds
  · exact wp_of_error (show within view put call state = _ by rw [within, run]) holds

theorem wp_pure {value : α} (holds : post value state) : wp (pure value) post halt state := holds

/-- What holds of the state left behind, however the run ended. -/
theorem wp.left {call : Exec σ α} {left : σ → Prop} (holds : wp call (fun _ => left) (fun _ => left) state) :
    left (call state).2 := by
  rcases holds.cases with ⟨value, after, run, holds⟩ | ⟨reason, after, run, holds⟩ <;> rwa [run]

/-- A run that has not ended in one of the states left out. -/
theorem wp.unless {call : Exec σ α} {stays : σ → Prop}
    (holds : wp call (fun value after => stays after ∨ post value after) (fun reason after => stays after ∨ halt reason after)
      state) (free : ¬ stays (call state).2) : wp call post halt state := by
  rcases holds.cases with ⟨value, after, run, holds⟩ | ⟨reason, after, run, holds⟩
  · rw [run] at free
    exact wp_of_ok run (holds.resolve_left free)
  · rw [run] at free
    exact wp_of_error run (holds.resolve_left free)

/-- The state behind a call that returns a value or its error code; any other call leads nowhere. -/
def returned (call : Exec σ α) (state : σ) : Option σ :=
  match call state with
  | (.ok _, after) | (.error .failed, after) => some after
  | _ => none

theorem returned_of_ok {call : Exec σ α} {value : α} (ran : call state = (.ok value, after)) :
    returned call state = some after := by
  rw [returned, ran]

theorem returned_of_failed {call : Exec σ α} (ran : call state = (.error .failed, after)) :
    returned call state = some after := by
  rw [returned, ran]

/-- What holds of the state behind a call, unless it crashes or never returns. -/
theorem wp.returned {call : Exec σ α} {left : σ → Prop}
    (holds : wp call (fun _ => left) (fun reason after => reason = .failed → left after) state)
    (came : returned call state = some after) : left after := by
  rcases holds.cases with ⟨value, last, ran, holds⟩ | ⟨reason, last, ran, holds⟩
  · rw [returned_of_ok ran] at came
    exact Option.some.inj came ▸ holds
  · cases reason with
    | failed =>
      rw [returned_of_failed ran] at came
      exact Option.some.inj came ▸ holds rfl
    | fault | exhausted => simp [Exec.returned, ran] at came

/-- The same for a call that is known by the states it comes back in. -/
theorem wp_of_returned {call : Exec σ α} {left : σ → Prop} (came : ∀ last, returned call state = some last → left last) :
    wp call (fun _ => left) (fun reason after => reason = .failed → left after) state := by
  cases ran : call state with
  | mk outcome last =>
    cases outcome with
    | ok value => exact wp_of_ok ran (came last (returned_of_ok ran))
    | error reason => exact wp_of_error ran fun failed => came last (returned_of_failed (failed ▸ ran))

end Rules

/-- A property of states that no step of a call ends. -/
def Keeps (stays : σ → Prop) (call : Exec σ α) : Prop :=
  ∀ state, stays state → wp call (fun _ => stays) (fun _ => stays) state

section Keeps

variable {stays : σ → Prop} {call : Exec σ α} {next : α → Exec σ β}

theorem keeps_pure (value : α) : Keeps stays (pure value : Exec σ α) := fun _ holds => holds

theorem keeps_stop (reason : Stop) : Keeps stays (stop reason : Exec σ α) := fun _ holds => holds

theorem keeps_read (view : σ → α) : Keeps stays (read view) := fun _ holds => holds

theorem keeps_update {change : σ → σ} (kept : ∀ state, stays state → stays (change state)) :
    Keeps stays (update change) := kept

theorem Keeps.bind (first : Keeps stays call) (second : ∀ value, Keeps stays (next value)) :
    Keeps stays (call >>= next) :=
  fun state holds => wp_bind (first state holds) fun value after holds => second value after holds

theorem Keeps.attempt (kept : Keeps stays call) : Keeps stays (attempt call) :=
  fun state holds => wp_attempt (kept state holds) (fun _ _ holds => holds) fun _ holds => holds

theorem keeps_ite {condition : Prop} [Decidable condition] {other : Exec σ α} (yes : Keeps stays call)
    (no : Keeps stays other) : Keeps stays (if condition then call else other) := by
  split
  · exact yes
  · exact no

theorem Keeps.returned {state after : σ} (kept : Keeps stays call) (holds : stays state)
    (came : returned call state = some after) : stays after :=
  wp.returned ((kept state holds).mono (fun _ _ kept => kept) fun _ _ kept _ => kept) came

/-- Sequencing of facts that hold unless something has happened that stays. -/
theorem wp_bind_unless {post : α → σ → Prop} {final : β → σ → Prop} {halt : Stop → σ → Prop} {state : σ}
    (first : wp call (fun value after => stays after ∨ post value after)
      (fun reason after => stays after ∨ halt reason after) state)
    (second : ∀ value after, post value after → wp (next value) (fun value after => stays after ∨ final value after)
      (fun reason after => stays after ∨ halt reason after) after)
    (kept : ∀ value, Keeps stays (next value)) :
    wp (call >>= next) (fun value after => stays after ∨ final value after)
      (fun reason after => stays after ∨ halt reason after) state := by
  apply wp_bind first
  rintro value after (happened | holds)
  · exact (kept value after happened).mono (fun _ _ => .inl) fun _ _ => .inl
  · exact second value after holds

end Keeps

end Exec
