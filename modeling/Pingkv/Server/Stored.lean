import Pingkv.Server.SendOrder

/-! Whether what `thread_func` stores in `_res_bufs` are results that were put. -/

namespace Pingkv

namespace KvWork

/-- Two works that differ in their offsets at most. -/
def SameParts (result work : KvWork) : Prop :=
  work.head = result.head ∧ work.field1 = result.field1 ∧ work.field2 = result.field2

theorem SameParts.refl (work : KvWork) : SameParts work work := ⟨rfl, rfl, rfl⟩

theorem SameParts.trans {result work later : KvWork} (first : SameParts result work) (second : SameParts work later) :
    SameParts result later :=
  ⟨second.1.trans first.1, second.2.1.trans first.2.1, second.2.2.trans first.2.2⟩

theorem sendPart_same {work : KvWork} {left : Option (List UInt8)} {advance : UInt16 → KvWork}
    {outcome : SendOutcome} {after : Sent} (ran : sendPart outcome left work advance = some after)
    (same : ∀ len, SameParts work (advance len)) : SameParts work after.work := by
  rcases sendPart_cases ran with ⟨_, rfl⟩ | ⟨_, _, _, _, _, _, rfl⟩
  · exact .refl work
  · exact same _

/-- `_do_send` writes nothing of a work but its offsets. -/
theorem doSend_same {work : KvWork} {behind : Mem} {outcome : SendOutcome} {after : Sent}
    (ran : work.doSend behind outcome = some after) : SameParts work after.work := by
  unfold doSend at ran
  split at ran
  · exact sendPart_same ran fun _ => ⟨rfl, rfl, rfl⟩
  · split at ran
    · exact sendPart_same ran fun _ => ⟨rfl, rfl, rfl⟩
    · split at ran
      · exact sendPart_same ran fun _ => ⟨rfl, rfl, rfl⟩
      · obtain rfl := Option.some.inj ran
        exact .refl work

end KvWork

namespace Sender

/-- What a step writes into `_res_bufs`, and where. -/
def stored (act : Act) (sender : Sender) : Option (Int × Option KvWork) :=
  match act, sender.place with
  | .sender _ _, .getting =>
    let ((fd, work), _) := getWork sender.queue
    if fd = -1 then none else some (fd, work)
  | _, _ => none

/-- What the step stores, if anything, is no null pointer, and was put for the
connection it is stored under. -/
def StoresPut (act : Act) (sender : Sender) : Prop :=
  ∀ fd entry, stored act sender = some (fd, entry) → ∃ work, entry = some work ∧ (fd, work) ∈ sender.puts

/-- A wait that returns finds a result on the queue. -/
def Awake (act : Act) (sender : Sender) : Prop :=
  match act with
  | .sender _ _ => sender.place = .woken → sender.queue ≠ []
  | _ => True

instance (act : Act) (sender : Sender) : Decidable (Awake act sender) := by
  unfold Awake
  split <;> infer_instance

/-- Each entry of `_res_bufs` is a result that was put for its connection, with
some of its bytes sent. -/
def HoldsPuts (sender : Sender) : Prop :=
  ∀ fd entry, sender.bufs.lookup fd = some entry →
    ∃ work result, entry = some work ∧ (fd, result) ∈ sender.puts ∧ KvWork.SameParts result work

/-- What each step keeps while waits return for results only. -/
structure Fed (sender : Sender) : Prop where
  queued : ∀ entry ∈ sender.queue, entry ∈ sender.puts
  getting : sender.place = .getting → sender.queue ≠ []
  holds : sender.HoldsPuts

variable {sender after : Sender}

/-- What is stored is what stands in `_res_bufs` behind the step. -/
theorem step_stored {act : Act} {fd : Int} {entry : Option KvWork} (stores : stored act sender = some (fd, entry))
    (stepped : step act sender = some after) : after.bufs = sender.bufs.assign fd entry := by
  unfold stored at stores
  split at stores
  · rename_i place
    simp only [step, senderStep, place, Place.alive, if_true] at stepped
    simp only at stores
    split at stores
    · cases stores
    · rename_i connected
      rw [if_neg connected] at stepped
      obtain rfl := Option.some.inj stepped
      cases stores
      rfl
  · cases stores

theorem start_fed (behind : Mem) : (start behind).Fed :=
  ⟨List.forall_mem_nil _, fun getting => (by cases getting), fun _ _ missing => (by cases missing)⟩

/-- The loop over `_res_bufs` takes nothing. -/
theorem visit_fed {next : Option Int} (queued : ∀ entry ∈ sender.queue, entry ∈ sender.puts)
    (holds : sender.HoldsPuts) : (sender.visit next).Fed := by
  cases next with
  | none => exact ⟨queued, fun getting => (by cases getting), holds⟩
  | some fd => exact ⟨queued, fun getting => (by cases getting), holds⟩

/-- Nor does it where `it++` leads on from an erased entry. -/
theorem follow_fed {next : Option Int} (queued : ∀ entry ∈ sender.queue, entry ∈ sender.puts)
    (holds : sender.HoldsPuts) : (sender.follow next).Fed := by
  cases next with
  | none => exact ⟨queued, fun getting => (by cases getting), holds⟩
  | some fd =>
    rw [follow]
    split <;> exact ⟨queued, fun getting => (by cases getting), holds⟩

theorem HoldsPuts.erase (holds : sender.HoldsPuts) (fd : Int) {other : Int} {entry : Option KvWork}
    (found : (sender.bufs.erase fd).lookup other = some entry) :
    ∃ work result, entry = some work ∧ (other, result) ∈ sender.puts ∧ KvWork.SameParts result work := by
  by_cases own : other = fd
  · subst own
    rw [OrderedMap.lookup_erase_self] at found
    cases found
  · rw [OrderedMap.lookup_erase_other own] at found
    exact holds other entry found

theorem HoldsPuts.assign (holds : sender.HoldsPuts) {fd : Int} {work result : KvWork} (put : (fd, result) ∈ sender.puts)
    (same : KvWork.SameParts result work) {other : Int} {entry : Option KvWork}
    (found : (sender.bufs.assign fd (some work)).lookup other = some entry) :
    ∃ work result, entry = some work ∧ (other, result) ∈ sender.puts ∧ KvWork.SameParts result work := by
  by_cases own : other = fd
  · subst own
    rw [OrderedMap.lookup_assign_self] at found
    exact ⟨work, result, (Option.some.inj found).symm, put, same⟩
  · rw [OrderedMap.lookup_assign_other own] at found
    exact holds other entry found

theorem visitStep_fed (fed : sender.Fed) (fd : Int) (outcome : SendOutcome) (next : Option Int) :
    (sender.visitStep fd outcome next).Fed := by
  unfold visitStep
  split
  · rename_i work held
    split
    · split
      · exact ⟨fed.queued, fun getting => (by cases getting), fed.holds⟩
      · exact ⟨fed.queued, fun getting => (by cases getting), fun _ _ found => fed.holds.erase fd found⟩
    · rename_i sent ran
      simp only
      split
      · exact follow_fed fed.queued fun _ _ found => fed.holds.erase fd found
      · apply visit_fed
        · exact fed.queued
        · intro other entry found
          obtain ⟨_, result, there, put, same⟩ := fed.holds fd _ held
          obtain rfl := Option.some.inj there
          exact fed.holds.assign put (same.trans (KvWork.doSend_same ran)) found
  · exact ⟨fed.queued, fun getting => (by cases getting), fed.holds⟩

/-- A result is put on the queue. -/
theorem Fed.put (fed : sender.Fed) (result : Int × KvWork) (owner : Option Owner) :
    { sender with queue := sender.queue ++ [result], puts := sender.puts ++ [result], owner := owner : Sender }.Fed := by
  refine ⟨?_, fun _ => List.append_ne_nil_of_right_ne_nil _ (List.cons_ne_nil _ _), ?_⟩
  · intro entry member
    rcases List.mem_append.mp member with old | last
    · exact List.mem_append_left _ (fed.queued entry old)
    · exact List.mem_append_right _ last
  · intro fd entry found
    obtain ⟨work, result, there, put, same⟩ := fed.holds fd entry found
    exact ⟨work, result, there, List.mem_append_left _ put, same⟩

/-- Where nothing but a mutex and the place in the code changes. -/
theorem Fed.moveOn (fed : sender.Fed) (owner : Option Owner) {place : Place}
    (getting : place = .getting → sender.queue ≠ []) : { sender with owner := owner, place := place : Sender }.Fed :=
  ⟨fed.queued, getting, fed.holds⟩

theorem step_fed {act : Act} (fed : sender.Fed) (awake : Awake act sender) (stepped : step act sender = some after) :
    after.Fed := by
  cases step_cases stepped with
  | put => exact ⟨fed.queued, fed.getting, fed.holds⟩
  | enqueue => exact fed.put _ _
  | signal =>
    apply fed.moveOn
    split
    · exact nofun
    · exact fed.getting
  | leave => exact ⟨fed.queued, fed.getting, fed.holds⟩
  | wake => exact fed.moveOn _ nofun
  | @visit fd outcome next => exact visitStep_fed fed fd outcome next
  | lock => exact fed.moveOn _ nofun
  | sleep => exact fed.moveOn _ nofun
  | pass => exact fed.moveOn _ nofun
  | find place results => exact fed.moveOn _ fun _ => results
  | relock place => exact fed.moveOn _ fun _ => awake place
  | crash => exact fed.moveOn _ nofun
  | take place =>
    cases queue : sender.queue with
    | nil => exact absurd queue (fed.getting place)
    | cons entry rest =>
      have put := fed.queued entry (queue ▸ List.mem_cons_self)
      have later (other : Int × KvWork) (member : other ∈ rest) : other ∈ sender.puts :=
        fed.queued other (queue ▸ List.mem_cons_of_mem _ member)
      exact ⟨later, nofun, fun _ _ found => fed.holds.assign put (.refl _) found⟩
  | unlock => exact visit_fed fed.queued fed.holds

/-- What is taken from a queue with results on it was put there. -/
theorem Fed.storesPut (fed : sender.Fed) (act : Act) : StoresPut act sender := by
  intro fd entry stores
  unfold stored at stores
  split at stores
  · rename_i place
    cases queue : sender.queue with
    | nil => exact absurd queue (fed.getting place)
    | cons first rest =>
      simp only [queue, getWork] at stores
      split at stores
      · cases stores
      · cases stores
        exact ⟨first.2, rfl, fed.queued first (queue ▸ List.mem_cons_self)⟩
  · cases stores

/-- Where no wait returns on an empty queue, every step stores what was put. -/
theorem storesPut_of_awake (behind : Mem) (acts : List Act) (awake : Transition.Throughout step Awake acts (start behind)) :
    Transition.Throughout step StoresPut acts (start behind) ∧
      ∀ final ∈ Transition.run step acts (start behind), final.HoldsPuts := by
  constructor
  · exact Transition.throughout_of_inv (fun _ _ _ fed awake stepped => step_fed fed awake stepped)
      (fun act _ fed _ => fed.storesPut act) (start_fed behind) awake
  · intro final ran
    have fed : final.Fed := Transition.run_throughout (fun _ _ _ fed awake stepped => step_fed fed awake stepped)
      (start_fed behind) awake ran
    exact fed.holds

/-- The sender falls asleep; then a result is put, and it takes that. -/
def wokenByPut : List Act :=
  [.sender .again none, .sender .again none] ++ putting (oneByte 9 (by decide) 7) ++
    [.sender .again none, .sender .again none]

theorem wokenByPut_stores : Transition.Throughout step StoresPut wokenByPut (start fun _ => 0) :=
  (storesPut_of_awake _ wokenByPut (by decide +kernel)).1

/-- The sender falls asleep, wakes up by itself and takes what is not there. -/
def wokenEarly : List Act :=
  [.sender .again none, .sender .again none, .spurious, .sender .again none, .sender .again none]

/-- A null pointer is stored for connection 0. -/
theorem wokenEarly_stores_null : ¬ Transition.Throughout step StoresPut wokenEarly (start fun _ => 0) ∧
    ∃ final ∈ Transition.run step wokenEarly (start fun _ => 0), final.bufs.lookup 0 = some none ∧ final.puts = [] := by
  constructor
  · intro stores
    have last := (stores.2 _ rfl |>.2 _ rfl |>.2 _ rfl |>.2 _ rfl).1
    obtain ⟨work, missing, _⟩ := last 0 none rfl
    cases missing
  · exact ⟨_, rfl, rfl, rfl⟩

end Sender

end Pingkv
