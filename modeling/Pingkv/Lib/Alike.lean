import Pingkv.Lib.Exec

/-! Runs of calls from two states side by side: a relation between the states
that each part of a call keeps, and under which it returns the same. -/

namespace Exec

variable {σ α β : Type} {alike : σ → σ → Prop} {call : Exec σ α} {next : α → Exec σ β}

/-- From related states a call ends in the same way, and in related states. -/
def Alike (alike : σ → σ → Prop) (call : Exec σ α) : Prop := ∀ left right, alike left right →
  (call left).1 = (call right).1 ∧ alike (call left).2 (call right).2

theorem alike_pure (value : α) : Alike alike (pure value : Exec σ α) := fun _ _ same => ⟨rfl, same⟩

theorem alike_stop (reason : Stop) : Alike alike (stop reason : Exec σ α) := fun _ _ same => ⟨rfl, same⟩

/-- Two runs that end alike, split by how they end. -/
theorem Alike.cases {left right : σ} (runs : Alike alike call) (same : alike left right) : ∃ outcome left' right',
    call left = (outcome, left') ∧ call right = (outcome, right') ∧ alike left' right' := by
  obtain ⟨equal, kept⟩ := runs left right same
  exact ⟨(call left).1, (call left).2, (call right).2, rfl, by rw [equal], kept⟩

theorem Alike.bind (first : Alike alike call) (second : ∀ value, Alike alike (next value)) : Alike alike (call >>= next) := by
  intro left right same
  obtain ⟨outcome, left', right', ranLeft, ranRight, kept⟩ := first.cases same
  cases outcome with
  | ok value =>
    rw [bind_ok ranLeft, bind_ok ranRight]
    exact second value left' right' kept
  | error reason =>
    rw [bind_error ranLeft, bind_error ranRight]
    exact ⟨rfl, kept⟩

theorem alike_ite {condition : Prop} [Decidable condition] {other : Exec σ α} (yes : Alike alike call)
    (no : Alike alike other) : Alike alike (if condition then call else other) := by
  split
  · exact yes
  · exact no

/-- From related states the call does what its model does, unless the model ends in a fault. -/
def Mirrors (alike : σ → σ → Prop) (call model : Exec σ α) : Prop := ∀ left right, alike left right →
  (model right).1 = .error .fault ∨ (call left).1 = (model right).1 ∧ alike (call left).2 (model right).2

section Mirrors

variable {model : Exec σ α} {next' : α → Exec σ β}

theorem Alike.mirrors (runs : Alike alike call) : Mirrors alike call call := fun left right same => .inr (runs left right same)

theorem mirrors_fault (call : Exec σ α) : Mirrors alike call fault := fun _ _ _ => .inl rfl

theorem Mirrors.bind (first : Mirrors alike call model) (second : ∀ value, Mirrors alike (next value) (next' value)) :
    Mirrors alike (call >>= next) (model >>= next') := by
  intro left right same
  rcases first left right same with crashed | both
  · exact .inl (congrArg Prod.fst (bind_error (run_of_fst crashed)))
  · obtain ⟨equal, kept⟩ := both
    cases ran : model right with
    | mk outcome right' =>
      rw [ran] at equal kept
      cases outcome with
      | ok value =>
        rw [bind_ok (run_of_fst equal), bind_ok ran]
        exact second value _ right' kept
      | error reason =>
        rw [bind_error (run_of_fst equal), bind_error ran]
        exact .inr ⟨rfl, kept⟩

theorem Mirrors.attempt (runs : Mirrors alike call model) : Mirrors alike (attempt call) (attempt model) := by
  intro left right same
  rcases runs left right same with crashed | both
  · exact .inl (congrArg Prod.fst (attempt_error (run_of_fst crashed) (by decide)))
  · obtain ⟨equal, kept⟩ := both
    cases ran : model right with
    | mk outcome right' =>
      rw [ran] at equal kept
      rcases outcome with (_ | _ | _) | value
      · rw [attempt_failed (run_of_fst equal), attempt_failed ran]
        exact .inr ⟨rfl, kept⟩
      · exact .inl (congrArg Prod.fst (attempt_error ran (by decide)))
      · rw [attempt_error (run_of_fst equal) (by decide), attempt_error ran (by decide)]
        exact .inr ⟨rfl, kept⟩
      · rw [attempt_ok (run_of_fst equal), attempt_ok ran]
        exact .inr ⟨rfl, kept⟩

theorem mirrors_ite {condition : Prop} [Decidable condition] {other other' : Exec σ α} (yes : Mirrors alike call model)
    (no : Mirrors alike other other') : Mirrors alike (if condition then call else other) (if condition then model else other') := by
  split
  · exact yes
  · exact no

/-- A run of a model that does not fault is one of the call. -/
theorem Mirrors.run (runs : Mirrors alike call model) {left right right' : σ} {outcome : Except Stop α} (same : alike left right)
    (ran : model right = (outcome, right')) (whole : outcome ≠ .error .fault) :
    ∃ left', call left = (outcome, left') ∧ alike left' right' := by
  rcases runs left right same with crashed | ⟨equal, kept⟩
  · rw [ran] at crashed
    exact absurd crashed whole
  · rw [ran] at equal kept
    exact ⟨_, run_of_fst equal, kept⟩

/-- What a model that does not fault leaves is left behind by the call. -/
theorem Mirrors.returned (runs : Mirrors alike call model) {left right after : σ} {leaves : σ → Prop} (same : alike left right)
    (holds : wp model (fun _ => leaves) (fun reason last => reason ≠ .fault ∧ (reason = .failed → leaves last)) right)
    (came : returned call left = some after) : ∃ last, alike after last ∧ leaves last := by
  rcases holds.cases with ⟨value, right', ran, holds⟩ | ⟨reason, right', ran, whole, holds⟩
  · obtain ⟨left', ran', kept⟩ := runs.run same ran (by simp)
    rw [returned_of_ok ran'] at came
    exact ⟨right', Option.some.inj came ▸ kept, holds⟩
  · obtain ⟨left', ran', kept⟩ := runs.run same ran (by simpa using whole)
    cases reason with
    | failed =>
      rw [returned_of_failed ran'] at came
      exact ⟨right', Option.some.inj came ▸ kept, holds rfl⟩
    | fault | exhausted => simp [Exec.returned, ran'] at came

end Mirrors

end Exec
