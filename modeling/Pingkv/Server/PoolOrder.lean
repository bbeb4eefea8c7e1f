import Mathlib.Algebra.BigOperators.Group.Finset.Basic
import Mathlib.Data.Fintype.BigOperators
import Mathlib.Data.List.Forall2
import Pingkv.Server.Pool

/-! Whether the operations of each key are run in the order its requests were
read, each once, and every request gets one result. -/

namespace Pingkv

namespace Pool

variable {fileCount : Int} {workers : Nat} {σ : Type}

/-- The poller holds the mutex of this queue. -/
def PollerPlace.Inside (number : Fin workers) : PollerPlace fileCount workers → Prop
  | .putting request | .signalling request | .unlocking request => request.queue = number
  | _ => False

/-- The poller is about to signal the worker of this queue. -/
def PollerPlace.Signals (number : Fin workers) : PollerPlace fileCount workers → Prop
  | .signalling request => request.queue = number
  | _ => False

/-- The request that the poller has read and not yet put. -/
def PollerPlace.unput : PollerPlace fileCount workers → List (Request fileCount workers)
  | .locking request | .putting request => [request]
  | _ => []

/-- The worker holds the mutex of its queue. -/
def WorkerPlace.HoldsQueue : WorkerPlace → Prop
  | .testing | .unlocking _ _ => True
  | _ => False

/-- The worker holds the mutex of the result queue. -/
def WorkerPlace.HoldsResults : WorkerPlace → Prop
  | .putting _ _ | .signalling | .leaving => True
  | _ => False

/-- The mutexes are held where the code between lock and unlock is, and a worker
with something on its queue does not sleep without a signal to come. -/
structure Locks (poller : PollerPlace fileCount workers) (resHolder : Option (Fin workers)) (number : Fin workers)
    (cell : Cell σ) : Prop where
  byPoller : cell.holder = some .poller ↔ poller.Inside number
  byWorker : cell.holder = some .worker ↔ cell.place.HoldsQueue
  byResults : resHolder = some number ↔ cell.place.HoldsResults
  wake : cell.place = .asleep → cell.queue ≠ [] → poller.Signals number

/-- A result as it comes of a request. -/
def Answers (entry : Int × KvWork) (request : Request fileCount workers) : Prop :=
  entry.1 = request.fd ∧ ∃ answer, entry.2 = resultOf request.kind answer

/-- The requests of one queue. -/
def ofQueue (number : Fin workers) (requests : List (Request fileCount workers)) : List (Request fileCount workers) :=
  requests.filter fun request => decide (request.queue = number)

/-- What a worker holds: a request it has taken and not yet run, or one it has
run and not yet answered. -/
def WorkerPlace.Carries (taken owing : List (Request fileCount workers)) : WorkerPlace → Prop
  | .unlocking fd req => owing = [] ∧ ∃ request, taken = [request] ∧ fd = request.fd ∧ req = some request.work
  | .operating fd req => owing = [] ∧ ∃ request, taken = [request] ∧ fd = request.fd ∧ req = request.work
  | .answering fd res | .putting fd res => taken = [] ∧ ∃ request, owing = [request] ∧ Answers (fd, res) request
  | .aborted => False
  | _ => taken = [] ∧ owing = []

/-- The requests of one queue, from the poller to the results: those run, the
one taken, those queued and the one not yet put are those read, in their order. -/
structure Books (read answered : List (Request fileCount workers)) (poller : PollerPlace fileCount workers)
    (number : Fin workers) (cell : Cell σ) (ran taken queued owing : List (Request fileCount workers)) : Prop where
  flow : ran ++ taken ++ queued ++ ofQueue number poller.unput = ofQueue number read
  owed : ran = ofQueue number answered ++ owing
  queue : cell.queue = queued.map Request.entry
  calls : cell.run.calls = ran.map Request.call
  place : cell.place.Carries taken owing

/-- The books of a queue balance. -/
def Balanced (read answered : List (Request fileCount workers)) (poller : PollerPlace fileCount workers)
    (number : Fin workers) (cell : Cell σ) : Prop :=
  ∃ ran taken queued owing, Books read answered poller number cell ran taken queued owing

/-- What each step keeps. -/
structure Inv (requests : List (Request fileCount workers)) (pool : Pool fileCount workers σ) : Prop where
  locks : ∀ number, Locks pool.poller pool.resHolder number (pool.cells number)
  books : ∃ read answered, requests = read ++ pool.ahead ∧ List.Forall₂ Answers pool.results answered ∧
    ∀ number, Balanced read answered pool.poller number (pool.cells number)

variable {requests read answered : List (Request fileCount workers)} {pool after : Pool fileCount workers σ}
  {number : Fin workers}

theorem ofQueue_append (number : Fin workers) (first second : List (Request fileCount workers)) :
    ofQueue number (first ++ second) = ofQueue number first ++ ofQueue number second := List.filter_append ..

theorem ofQueue_own {request : Request fileCount workers} (own : request.queue = number) :
    ofQueue number [request] = [request] := by
  simp only [ofQueue, own, decide_true, List.filter_cons_of_pos, List.filter_nil]

theorem ofQueue_other {request : Request fileCount workers} (other : request.queue ≠ number) :
    ofQueue number [request] = [] := by
  simp only [ofQueue, other, decide_false, Bool.false_eq_true, not_false_eq_true, List.filter_cons_of_neg,
    List.filter_nil]

theorem mem_ofQueue {request : Request fileCount workers} (member : request ∈ ofQueue number requests) :
    request.queue = number := of_decide_eq_true (List.mem_filter.mp member).2

@[simp] theorem setCell_self (cell : Cell σ) : (pool.setCell number cell).cells number = cell :=
  Function.update_self ..

theorem setCell_other {other : Fin workers} (different : other ≠ number) (cell : Cell σ) :
    (pool.setCell number cell).cells other = pool.cells other := Function.update_of_ne different ..

/-- A property of every cell after one has changed. -/
theorem setCell_forall {good : Fin workers → Cell σ → Prop} {cell : Cell σ} (here : good number cell)
    (others : ∀ other, other ≠ number → good other (pool.cells other)) :
    ∀ other, good other ((pool.setCell number cell).cells other) :=
  (Function.forall_update_iff pool.cells good).mpr ⟨here, others⟩

/-- A step that changes one cell only. -/
theorem Inv.ofCell (inv : Inv requests pool) {cell : Cell σ} (locks : Locks pool.poller pool.resHolder number cell)
    (books : ∀ read answered, Balanced read answered pool.poller number (pool.cells number) →
      Balanced read answered pool.poller number cell) : Inv requests (pool.setCell number cell) := by
  obtain ⟨read, answered, split, results, balanced⟩ := inv.books
  refine ⟨setCell_forall locks fun other _ => inv.locks other, read, answered, split, results, ?_⟩
  exact setCell_forall (books read answered (balanced number)) fun other _ => balanced other

theorem start_inv (requests : List (Request fileCount workers))
    (answer : Fin workers → IndexCall → σ → IndexAnswer × σ) (index : Fin workers → σ) : Inv requests (start requests answer index) := by
  refine ⟨fun number => ?_, [], [], rfl, .nil, fun number => ?_⟩
  · refine ⟨?_, ?_, ?_, ?_⟩
    · exact iff_of_false (fun held => nomatch held) id
    · exact iff_of_false (fun held => nomatch held) id
    · exact iff_of_false (fun held => nomatch held) id
    · exact fun asleep => nomatch asleep
  · exact ⟨[], [], [], [], rfl, rfl, rfl, rfl, rfl, rfl⟩

/-- The books still balance where a worker goes on with what it carries, and the
poller with what it has not put. -/
theorem Balanced.move {poller later : PollerPlace fileCount workers} {cell cell' : Cell σ}
    (balanced : Balanced read answered poller number cell) (unput : later.unput = poller.unput)
    (queue : cell'.queue = cell.queue) (run : cell'.run = cell.run)
    (carries : ∀ taken owing : List (Request fileCount workers),
      cell.place.Carries taken owing → cell'.place.Carries taken owing) :
    Balanced read answered later number cell' := by
  obtain ⟨ran, taken, queued, owing, books⟩ := balanced
  refine ⟨ran, taken, queued, owing, ?_, books.owed, queue.trans books.queue, ?_, carries taken owing books.place⟩
  · rw [unput]
    exact books.flow
  · rw [run]
    exact books.calls

/-- The poller completes a request. -/
theorem Inv.complete (inv : Inv requests pool) (place : pool.poller = .reading) {request : Request fileCount workers}
    {rest : List (Request fileCount workers)} (ahead : pool.ahead = request :: rest) :
    Inv requests { pool with ahead := rest, poller := .locking request } := by
  obtain ⟨read, answered, split, results, balanced⟩ := inv.books
  have locks := inv.locks
  rw [place] at locks balanced
  refine ⟨fun number => ⟨(locks number).byPoller, (locks number).byWorker, (locks number).byResults,
    (locks number).wake⟩, read ++ [request], answered, ?_, results, fun number => ?_⟩
  · rw [split, ahead, List.append_assoc]
    rfl
  · obtain ⟨ran, taken, queued, owing, books⟩ := balanced number
    refine ⟨ran, taken, queued, owing, ?_, books.owed, books.queue, books.calls, books.place⟩
    rw [ofQueue_append, ← books.flow]
    simp only [PollerPlace.unput, ofQueue, List.filter_nil, List.append_nil]

/-- A step of the poller that changes one cell. -/
theorem Inv.ofPoller (inv : Inv requests pool) {poller later : PollerPlace fileCount workers} (place : pool.poller = poller)
    {cell : Cell σ} (locks : Locks poller pool.resHolder number (pool.cells number) → Locks later pool.resHolder number cell)
    (others : ∀ other, other ≠ number → Locks poller pool.resHolder other (pool.cells other) →
      Locks later pool.resHolder other (pool.cells other))
    (books : ∀ read answered, Balanced read answered poller number (pool.cells number) →
      Balanced read answered later number cell)
    (rest : ∀ read answered other, other ≠ number → Balanced read answered poller other (pool.cells other) →
      Balanced read answered later other (pool.cells other)) :
    Inv requests { pool.setCell number cell with poller := later } := by
  subst place
  obtain ⟨read, answered, split, results, balanced⟩ := inv.books
  refine ⟨setCell_forall (locks (inv.locks number)) fun other different => others other different (inv.locks other),
    read, answered, split, results, setCell_forall (books read answered (balanced number)) fun other different => ?_⟩
  exact rest read answered other different (balanced other)

/-- It locks the queue of the request. -/
theorem Inv.lock (inv : Inv requests pool) {request : Request fileCount workers} (place : pool.poller = .locking request)
    (free : (pool.cells request.queue).holder = none) :
    Inv requests { pool.setCell request.queue { pool.cells request.queue with holder := some .poller } with
      poller := .putting request } := by
  apply inv.ofPoller place
  · intro own
    refine ⟨iff_of_true rfl rfl, ?_, own.byResults, own.wake⟩
    exact iff_of_false (fun held => nomatch held) fun holds => nomatch free.symm.trans (own.byWorker.mpr holds)
  · intro other different locks
    refine ⟨locks.byPoller.trans ?_, locks.byWorker, locks.byResults, locks.wake⟩
    exact iff_of_false id (Ne.symm different)
  · exact fun _ _ balanced => balanced.move rfl rfl rfl fun _ _ => id
  · exact fun _ _ _ _ balanced => balanced.move rfl rfl rfl fun _ _ => id

/-- It puts the request on the queue. -/
theorem Inv.put (inv : Inv requests pool) {request : Request fileCount workers} (place : pool.poller = .putting request) :
    Inv requests { pool.setCell request.queue { pool.cells request.queue with
      queue := (pool.cells request.queue).queue ++ [request.entry] } with poller := .signalling request } := by
  apply inv.ofPoller place
  · exact fun own => ⟨own.byPoller, own.byWorker, own.byResults, fun _ _ => rfl⟩
  · exact fun other _ locks => ⟨locks.byPoller, locks.byWorker, locks.byResults, fun asleep waiting =>
      (locks.wake asleep waiting).elim⟩
  · rintro read answered ⟨ran, taken, queued, owing, books⟩
    refine ⟨ran, taken, queued ++ [request], owing, ?_, books.owed, ?_, books.calls, books.place⟩
    · rw [← books.flow]
      simp only [PollerPlace.unput, ofQueue_own rfl, List.append_assoc]
      simp only [ofQueue, List.filter_nil, List.append_nil]
    · rw [books.queue, List.map_append]
      rfl
  · rintro read answered other different ⟨ran, taken, queued, owing, books⟩
    refine ⟨ran, taken, queued, owing, ?_, books.owed, books.queue, books.calls, books.place⟩
    rw [← books.flow]
    simp only [PollerPlace.unput, ofQueue_other (Ne.symm different)]
    rfl

/-- A worker that is woken was asleep and has nothing in hand. -/
theorem Cell.signal_cases (cell : Cell σ) : cell.signal = cell ∧ cell.place ≠ .asleep ∨
    cell.place = .asleep ∧ cell.signal = { cell with place := .woken } := by
  unfold Cell.signal
  split
  · rename_i asleep
    exact .inr ⟨asleep, rfl⟩
  · rename_i awake
    exact .inl ⟨rfl, awake⟩

/-- It signals the worker of the queue. -/
theorem Inv.signal (inv : Inv requests pool) {request : Request fileCount workers}
    (place : pool.poller = .signalling request) :
    Inv requests { pool.setCell request.queue (pool.cells request.queue).signal with poller := .unlocking request } := by
  apply inv.ofPoller place
  · intro own
    rcases (pool.cells request.queue).signal_cases with ⟨same, awake⟩ | ⟨asleep, woken⟩
    · rw [same]
      exact ⟨own.byPoller, own.byWorker, own.byResults, fun asleep => absurd asleep awake⟩
    · have byWorker := own.byWorker
      have byResults := own.byResults
      rw [asleep] at byWorker byResults
      rw [woken]
      exact ⟨own.byPoller, byWorker, byResults, fun asleep => nomatch asleep⟩
  · intro other different locks
    refine ⟨locks.byPoller, locks.byWorker, locks.byResults, fun asleep waiting => ?_⟩
    exact absurd (locks.wake asleep waiting).symm different
  · intro read answered balanced
    rcases (pool.cells request.queue).signal_cases with ⟨same, _⟩ | ⟨asleep, woken⟩
    · rw [same]
      exact balanced.move rfl rfl rfl fun _ _ => id
    · rw [woken]
      refine balanced.move rfl rfl rfl ?_
      rw [asleep]
      exact fun _ _ => id
  · exact fun _ _ _ _ balanced => balanced.move rfl rfl rfl fun _ _ => id

/-- It unlocks the queue. -/
theorem Inv.unlock (inv : Inv requests pool) {request : Request fileCount workers}
    (place : pool.poller = .unlocking request) :
    Inv requests { pool.setCell request.queue { pool.cells request.queue with holder := none } with
      poller := .reading } := by
  apply inv.ofPoller place
  · intro own
    have held : (pool.cells request.queue).holder = some .poller := own.byPoller.mpr rfl
    refine ⟨iff_of_false (fun held => nomatch held) id, ?_, own.byResults, own.wake⟩
    exact iff_of_false (fun held => nomatch held) fun holds => nomatch held.symm.trans (own.byWorker.mpr holds)
  · intro other different locks
    refine ⟨locks.byPoller.trans ?_, locks.byWorker, locks.byResults, locks.wake⟩
    exact iff_of_false (Ne.symm different) id
  · exact fun _ _ balanced => balanced.move rfl rfl rfl fun _ _ => id
  · exact fun _ _ _ _ balanced => balanced.move rfl rfl rfl fun _ _ => id

theorem pollerStep_inv (inv : Inv requests pool) (stepped : pool.pollerStep = some after) : Inv requests after := by
  cases pollerStep_cases stepped with
  | complete place ahead => exact inv.complete place ahead
  | lock place free => exact inv.lock place free
  | put place => exact inv.put place
  | signal place => exact inv.signal place
  | unlock place => exact inv.unlock place

/-- A worker takes the mutex of its queue. -/
theorem Inv.acquire (inv : Inv requests pool)
    (place : (pool.cells number).place = .locking ∨ (pool.cells number).place = .woken)
    (free : (pool.cells number).holder = none) :
    Inv requests (pool.setCell number { pool.cells number with holder := some .worker, place := .testing }) := by
  have own := inv.locks number
  apply inv.ofCell
  · refine ⟨?_, iff_of_true rfl trivial, ?_, fun asleep => nomatch asleep⟩
    · exact iff_of_false (fun held => nomatch held) fun inside => nomatch free.symm.trans (own.byPoller.mpr inside)
    · have byResults := own.byResults
      rcases place with place | place <;> rwa [place] at byResults
  · intro read answered balanced
    refine balanced.move rfl rfl rfl ?_
    rcases place with place | place <;> rw [place] <;> exact fun _ _ => id

/-- With an empty queue it goes to sleep. -/
theorem Inv.sleep (inv : Inv requests pool) (place : (pool.cells number).place = .testing)
    (empty : (pool.cells number).queue = []) :
    Inv requests (pool.setCell number { pool.cells number with holder := none, place := .asleep }) := by
  obtain ⟨byPoller, byWorker, byResults, _⟩ := inv.locks number
  rw [place] at byWorker byResults
  have held : (pool.cells number).holder = some .worker := byWorker.mpr trivial
  apply inv.ofCell
  · refine ⟨?_, iff_of_false (fun held => nomatch held) id, byResults, fun _ waiting => absurd empty waiting⟩
    exact iff_of_false (fun held => nomatch held) fun inside => nomatch held.symm.trans (byPoller.mpr inside)
  · intro read answered balanced
    refine balanced.move rfl rfl rfl ?_
    rw [place]
    exact fun _ _ => id

/-- From a queue that is not empty it takes the first request. -/
theorem Inv.take (inv : Inv requests pool) (place : (pool.cells number).place = .testing) {entry : Int × KvWork}
    {rest : List (Int × KvWork)} (queue : (pool.cells number).queue = entry :: rest) :
    0 < entry.1 ∧ Inv requests (pool.setCell number { pool.cells number with
      queue := rest, place := .unlocking entry.1 (some entry.2) }) := by
  obtain ⟨byPoller, byWorker, byResults, _⟩ := inv.locks number
  rw [place] at byWorker byResults
  have first (queued : List (Request fileCount workers)) (held : (pool.cells number).queue = queued.map Request.entry) :
      ∃ request later, queued = request :: later ∧ entry = request.entry ∧ rest = later.map Request.entry := by
    rw [queue] at held
    cases queued with
    | nil => cases held
    | cons request later => exact ⟨request, later, rfl, (List.cons.inj held).1, (List.cons.inj held).2⟩
  constructor
  · obtain ⟨_, _, _, _, balanced⟩ := inv.books
    obtain ⟨ran, taken, queued, owing, books⟩ := balanced number
    obtain ⟨request, _, _, rfl, _⟩ := first queued books.queue
    exact request.connected
  · apply inv.ofCell
    · exact ⟨byPoller, byWorker, byResults, fun asleep => nomatch asleep⟩
    · rintro read answered ⟨ran, taken, queued, owing, books⟩
      obtain ⟨request, later, rfl, rfl, rfl⟩ := first queued books.queue
      have carries := books.place
      rw [place] at carries
      obtain ⟨rfl, rfl⟩ := carries
      refine ⟨ran, [request], later, [], ?_, books.owed, rfl, books.calls, rfl, request, rfl, rfl, rfl⟩
      rw [← books.flow]
      simp only [List.append_nil, List.append_assoc, List.cons_append, List.nil_append]

/-- It leaves its queue with the request it has taken. -/
theorem Inv.depart (inv : Inv requests pool) {fd : Int} {req : Option KvWork}
    (place : (pool.cells number).place = .unlocking fd req) :
    ∃ work, fd ≠ 0 ∧ req = some work ∧
      Inv requests (pool.setCell number { pool.cells number with holder := none, place := .operating fd work }) := by
  obtain ⟨byPoller, byWorker, byResults, _⟩ := inv.locks number
  rw [place] at byWorker byResults
  have held : (pool.cells number).holder = some .worker := byWorker.mpr trivial
  obtain ⟨_, _, _, _, balanced⟩ := inv.books
  obtain ⟨_, taken, _, owing, books⟩ := balanced number
  have carries := books.place
  rw [place] at carries
  obtain ⟨_, request, _, rfl, rfl⟩ := carries
  have connected := request.connected
  refine ⟨request.work, by omega, rfl, inv.ofCell ?_ ?_⟩
  · refine ⟨?_, iff_of_false (fun held => nomatch held) id, byResults, fun asleep => nomatch asleep⟩
    exact iff_of_false (fun held => nomatch held) fun inside => nomatch held.symm.trans (byPoller.mpr inside)
  · intro read answered balanced
    refine balanced.move rfl rfl rfl ?_
    rw [place]
    rintro _ _ ⟨none_, own, taken, same, works⟩
    exact ⟨none_, own, taken, same, Option.some.inj works⟩

/-- It runs the operation of its request, and has its result. -/
theorem Inv.operate (inv : Inv requests pool) {fd : Int} {req : KvWork}
    (place : (pool.cells number).place = .operating fd req) :
    ∃ res run, operate req (pool.cells number).run = (.ok res, run) ∧
      Inv requests (pool.setCell number { pool.cells number with run := run, place := .answering fd res }) := by
  obtain ⟨byPoller, byWorker, byResults, _⟩ := inv.locks number
  rw [place] at byWorker byResults
  obtain ⟨_, _, _, _, balanced⟩ := inv.books
  obtain ⟨_, taken, _, owing, books⟩ := balanced number
  have carries := books.place
  rw [place] at carries
  obtain ⟨_, request, _, rfl, rfl⟩ := carries
  refine ⟨_, _, operate_run request.stands _, inv.ofCell ?_ ?_⟩
  · exact ⟨byPoller, byWorker, byResults, fun asleep => nomatch asleep⟩
  · rintro read answered ⟨ran, taken, queued, owing, books⟩
    have carries := books.place
    rw [place] at carries
    obtain ⟨rfl, own, rfl, fd, work⟩ := carries
    have kind : request.kind = own.kind := Option.some.inj (request.stands.symm.trans (work ▸ own.stands))
    refine ⟨ran ++ [own], [], queued, [own], ?_, ?_, books.queue, ?_, rfl, own, rfl, fd, ?_⟩
    · rw [← books.flow]
      simp only [List.append_nil]
    · rw [books.owed, List.append_nil]
    · rw [List.map_append, ← books.calls]
      simp only [Request.call, work, kind, List.map_cons, List.map_nil]
    · exact ⟨_, by rw [kind]⟩

/-- It takes the mutex of the result queue. -/
theorem Inv.answer (inv : Inv requests pool) {fd : Int} {res : KvWork}
    (place : (pool.cells number).place = .answering fd res) (free : pool.resHolder = none) :
    Inv requests { pool.setCell number { pool.cells number with place := .putting fd res } with
      resHolder := some number } := by
  obtain ⟨read, answered, split, results, balanced⟩ := inv.books
  obtain ⟨byPoller, byWorker, _, _⟩ := inv.locks number
  rw [place] at byWorker
  refine ⟨setCell_forall ?_ fun other different => ?_, read, answered, split, results,
    setCell_forall ?_ fun other _ => balanced other⟩
  · exact ⟨byPoller, byWorker, iff_of_true rfl trivial, fun asleep => nomatch asleep⟩
  · obtain ⟨byPoller, byWorker, byResults, wake⟩ := inv.locks other
    rw [free] at byResults
    refine ⟨byPoller, byWorker, iff_of_false ?_ fun holds => (nomatch byResults.mpr holds), wake⟩
    exact fun held => different (Option.some.inj held).symm
  · refine (balanced number).move rfl rfl rfl ?_
    rw [place]
    exact fun _ _ => id

/-- It puts its result on the queue. -/
theorem Inv.putResult (inv : Inv requests pool) {fd : Int} {res : KvWork}
    (place : (pool.cells number).place = .putting fd res) :
    Inv requests { pool.setCell number { pool.cells number with place := .signalling } with
      results := pool.results ++ [(fd, res)] } := by
  obtain ⟨read, answered, split, results, balanced⟩ := inv.books
  obtain ⟨byPoller, byWorker, byResults, _⟩ := inv.locks number
  rw [place] at byWorker byResults
  obtain ⟨ran, taken, queued, owing, books⟩ := balanced number
  have carries := books.place
  rw [place] at carries
  obtain ⟨rfl, request, rfl, answers⟩ := carries
  have here : request.queue = number := by
    have member : request ∈ ofQueue number read := by
      rw [← books.flow, books.owed]
      simp
    exact mem_ofQueue member
  refine ⟨setCell_forall ⟨byPoller, byWorker, byResults, fun asleep => nomatch asleep⟩ fun other _ => inv.locks other,
    read, answered ++ [request], split, List.rel_append results (.cons answers .nil),
    setCell_forall ?_ fun other different => ?_⟩
  · refine ⟨ran, [], queued, [], books.flow, ?_, books.queue, books.calls, rfl, rfl⟩
    rw [books.owed, ofQueue_append, ofQueue_own here, List.append_nil]
  · obtain ⟨ran, taken, queued, owing, books⟩ := balanced other
    refine ⟨ran, taken, queued, owing, books.flow, ?_, books.queue, books.calls, books.place⟩
    have elsewhere : request.queue ≠ other := fun same => different (same.symm.trans here)
    rw [books.owed, ofQueue_append, ofQueue_other elsewhere, List.append_nil]

/-- It gives the mutex of the result queue back. -/
theorem Inv.leave (inv : Inv requests pool) (place : (pool.cells number).place = .leaving) :
    Inv requests { pool.setCell number { pool.cells number with place := .locking } with resHolder := none } := by
  obtain ⟨read, answered, split, results, balanced⟩ := inv.books
  obtain ⟨byPoller, byWorker, byResults, _⟩ := inv.locks number
  rw [place] at byWorker byResults
  have held : pool.resHolder = some number := byResults.mpr trivial
  refine ⟨setCell_forall ?_ fun other different => ?_, read, answered, split, results,
    setCell_forall ?_ fun other _ => balanced other⟩
  · exact ⟨byPoller, byWorker, iff_of_false (fun held => nomatch held) id, fun asleep => nomatch asleep⟩
  · obtain ⟨byPoller, byWorker, byResults, wake⟩ := inv.locks other
    refine ⟨byPoller, byWorker, iff_of_false (fun held => nomatch held) fun holds => ?_, wake⟩
    exact different (Option.some.inj ((byResults.mpr holds).symm.trans held))
  · refine (balanced number).move rfl rfl rfl ?_
    rw [place]
    exact fun _ _ => id

/-- Between two steps a worker moves on without touching its queue or its index. -/
theorem Inv.moveOn (inv : Inv requests pool) {earlier later : WorkerPlace} (place : (pool.cells number).place = earlier)
    (awake : later ≠ .asleep) (queue : earlier.HoldsQueue ↔ later.HoldsQueue)
    (results : earlier.HoldsResults ↔ later.HoldsResults)
    (carries : ∀ taken owing : List (Request fileCount workers), earlier.Carries taken owing → later.Carries taken owing) :
    Inv requests (pool.setCell number { pool.cells number with place := later }) := by
  subst place
  obtain ⟨byPoller, byWorker, byResults, _⟩ := inv.locks number
  apply inv.ofCell
  · exact ⟨byPoller, byWorker.trans queue, byResults.trans results, fun asleep => absurd asleep awake⟩
  · exact fun read answered balanced => balanced.move rfl rfl rfl carries

theorem workerStep_inv (inv : Inv requests pool) (stepped : pool.workerStep number = some after) :
    Inv requests after := by
  cases workerStep_cases stepped with
  | acquire place free => exact inv.acquire place free
  | sleep place empty => exact inv.sleep place empty
  | take place queue =>
    obtain ⟨connected, taken⟩ := inv.take place queue
    rw [if_neg (by omega)]
    exact taken
  | depart place connected =>
    obtain ⟨work, _, same, departed⟩ := inv.depart place
    obtain rfl := Option.some.inj same
    exact departed
  | skip place nothing =>
    obtain ⟨work, connected, rfl, _⟩ := inv.depart place
    exact absurd (nothing.resolve_left nofun) connected
  | operate place operated =>
    obtain ⟨res, run, same, answered⟩ := inv.operate place
    obtain ⟨result, rfl⟩ := Prod.mk.inj (operated.symm.trans same)
    obtain rfl := Except.ok.inj result
    exact answered
  | abort place operated =>
    obtain ⟨res, run, same, _⟩ := inv.operate place
    cases operated.symm.trans same
  | answer place free => exact inv.answer place free
  | putResult place => exact inv.putResult place
  | signal place => exact inv.moveOn place nofun Iff.rfl Iff.rfl fun _ _ => id
  | leave place => exact inv.leave place

/-- Without a signal, too, a worker that wakes tests its queue again. -/
theorem Inv.wake (inv : Inv requests pool) (place : (pool.cells number).place = .asleep) :
    Inv requests (pool.setCell number { pool.cells number with place := .woken }) :=
  inv.moveOn place nofun Iff.rfl Iff.rfl fun _ _ => id

theorem step_inv {act : Act workers} (inv : Inv requests pool) (stepped : step act pool = some after) :
    Inv requests after := by
  cases act with
  | poller => exact pollerStep_inv inv stepped
  | worker number => exact workerStep_inv inv stepped
  | spurious number =>
    simp only [step] at stepped
    split at stepped
    · rename_i place
      obtain rfl := Option.some.inj stepped
      exact inv.wake place
    · cases stepped

/-- Nobody can take a step of their own. -/
def Quiet (pool : Pool fileCount workers σ) : Prop := pool.pollerStep = none ∧ ∀ number, pool.workerStep number = none

/-- A worker that cannot go on waits for a signal or for a mutex, or has aborted. -/
theorem stuck_cases (stuck : pool.workerStep number = none) :
    (pool.cells number).place = .asleep ∨
    ((pool.cells number).place = .locking ∨ (pool.cells number).place = .woken) ∧ (pool.cells number).holder ≠ none ∨
    (∃ fd res, (pool.cells number).place = .answering fd res) ∧ pool.resHolder ≠ none ∨
    (pool.cells number).place = .aborted := by
  unfold workerStep at stuck
  simp only at stuck
  cases place : (pool.cells number).place with
  | locking =>
    rw [place] at stuck
    refine .inr (.inl ⟨.inl rfl, fun free => ?_⟩)
    simp [free] at stuck
  | woken =>
    rw [place] at stuck
    refine .inr (.inl ⟨.inr rfl, fun free => ?_⟩)
    simp [free] at stuck
  | testing =>
    rw [place] at stuck
    simp only at stuck
    split at stuck <;> cases stuck
  | asleep => exact .inl rfl
  | unlocking fd req =>
    rw [place] at stuck
    cases stuck
  | operating fd req =>
    rw [place] at stuck
    simp only at stuck
    split at stuck <;> cases stuck
  | answering fd res =>
    rw [place] at stuck
    refine .inr (.inr (.inl ⟨⟨fd, res, rfl⟩, fun free => ?_⟩))
    simp [free] at stuck
  | putting fd res =>
    rw [place] at stuck
    cases stuck
  | signalling =>
    rw [place] at stuck
    cases stuck
  | leaving =>
    rw [place] at stuck
    cases stuck
  | aborted => exact .inr (.inr (.inr rfl))

/-- In a pool where nobody can go on no mutex is held by a worker. -/
theorem quiet_unheld (quiet : ∀ number, pool.workerStep number = none) (number : Fin workers) :
    ¬ (pool.cells number).place.HoldsQueue ∧ ¬ (pool.cells number).place.HoldsResults := by
  rcases stuck_cases (quiet number) with place | ⟨place | place, _⟩ | ⟨⟨_, _, place⟩, _⟩ | place <;> rw [place] <;>
    exact ⟨id, id⟩

/-- A poller that cannot go on has read all requests, or waits for a mutex. -/
theorem pollerStuck_cases (stuck : pool.pollerStep = none) :
    pool.poller = .reading ∧ pool.ahead = [] ∨
      ∃ request, pool.poller = .locking request ∧ (pool.cells request.queue).holder ≠ none := by
  unfold pollerStep at stuck
  cases place : pool.poller with
  | reading =>
    rw [place] at stuck
    cases ahead : pool.ahead with
    | nil => exact .inl ⟨rfl, rfl⟩
    | cons request rest =>
      rw [ahead] at stuck
      cases stuck
  | locking request =>
    rw [place] at stuck
    refine .inr ⟨request, rfl, fun free => ?_⟩
    simp [free] at stuck
  | putting request =>
    rw [place] at stuck
    cases stuck
  | signalling request =>
    rw [place] at stuck
    cases stuck
  | unlocking request =>
    rw [place] at stuck
    cases stuck

/-- A mutex that is held and not by its worker is held by the poller. -/
theorem Inv.inside (inv : Inv requests pool) (unheld : ¬ (pool.cells number).place.HoldsQueue)
    (held : (pool.cells number).holder ≠ none) : pool.poller.Inside number := by
  cases holder : (pool.cells number).holder with
  | none => exact absurd holder held
  | some who =>
    cases who with
    | poller => exact (inv.locks number).byPoller.mp holder
    | worker => exact absurd ((inv.locks number).byWorker.mp holder) unheld

theorem Inv.unaborted (inv : Inv requests pool) (number : Fin workers) : (pool.cells number).place ≠ .aborted := by
  intro place
  obtain ⟨_, _, _, _, balanced⟩ := inv.books
  obtain ⟨_, _, _, _, books⟩ := balanced number
  have carries := books.place
  rw [place] at carries
  exact carries

/-- Where nobody can go on, every request was read and every worker sleeps with
nothing on its queue. -/
theorem Inv.quiet (inv : Inv requests pool) (quiet : pool.Quiet) :
    pool.poller = .reading ∧ pool.ahead = [] ∧
      ∀ number, (pool.cells number).place = .asleep ∧ (pool.cells number).queue = [] := by
  obtain ⟨pollerStuck, workersStuck⟩ := quiet
  have unheld := quiet_unheld workersStuck
  have noResults : pool.resHolder = none := by
    cases held : pool.resHolder with
    | none => rfl
    | some number => exact absurd ((inv.locks number).byResults.mp held) (unheld number).2
  have reading : pool.poller = .reading ∧ pool.ahead = [] := by
    rcases pollerStuck_cases pollerStuck with reading | ⟨request, place, held⟩
    · exact reading
    · have inside := inv.inside (unheld request.queue).1 held
      rw [place] at inside
      exact inside.elim
  have free (number : Fin workers) : (pool.cells number).holder = none := by
    by_contra held
    have inside := inv.inside (unheld number).1 held
    rw [reading.1] at inside
    exact inside
  refine ⟨reading.1, reading.2, fun number => ?_⟩
  have asleep : (pool.cells number).place = .asleep := by
    rcases stuck_cases (workersStuck number) with place | ⟨_, held⟩ | ⟨_, held⟩ | place
    · exact place
    · exact absurd (free number) held
    · exact absurd noResults held
    · exact absurd place (inv.unaborted number)
  refine ⟨asleep, ?_⟩
  by_contra waiting
  have signals := (inv.locks number).wake asleep waiting
  rw [reading.1] at signals
  exact signals

/-- The steps that are left to a worker before it waits for more. -/
def WorkerPlace.weight : WorkerPlace → Nat
  | .unlocking _ _ => 8
  | .operating _ _ => 7
  | .answering _ _ => 6
  | .putting _ _ => 5
  | .signalling => 4
  | .leaving => 3
  | .locking | .woken => 2
  | .testing => 1
  | .asleep | .aborted => 0

def Cell.weight (cell : Cell σ) : Nat := 8 * cell.queue.length + cell.place.weight

/-- The steps that are left to the poller, and those its request brings to a worker. -/
def PollerPlace.weight : PollerPlace fileCount workers → Nat
  | .reading => 0
  | .locking _ => 14
  | .putting _ => 13
  | .signalling _ => 4
  | .unlocking _ => 1

/-- A bound on the steps left to all. -/
def weight (pool : Pool fileCount workers σ) : Nat :=
  15 * pool.ahead.length + pool.poller.weight + ∑ number, (pool.cells number).weight

theorem setCell_weight (pool : Pool fileCount workers σ) (number : Fin workers) (cell : Cell σ) :
    ∑ other, ((pool.setCell number cell).cells other).weight + (pool.cells number).weight =
      ∑ other, (pool.cells other).weight + cell.weight := by
  have others : ∑ other ∈ Finset.univ.erase number, ((pool.setCell number cell).cells other).weight =
      ∑ other ∈ Finset.univ.erase number, (pool.cells other).weight := by
    apply Finset.sum_congr rfl
    intro other member
    rw [setCell_other (Finset.ne_of_mem_erase member)]
  rw [← Finset.add_sum_erase Finset.univ _ (Finset.mem_univ number), others, setCell_self,
    ← Finset.add_sum_erase Finset.univ (fun other => (pool.cells other).weight) (Finset.mem_univ number)]
  omega

theorem Cell.signal_weight (cell : Cell σ) : cell.signal.weight ≤ cell.weight + 2 := by
  rcases cell.signal_cases with ⟨same, _⟩ | ⟨asleep, woken⟩
  · rw [same]
    omega
  · rw [woken, Cell.weight, Cell.weight, asleep]
    exact Nat.le_refl _

theorem pollerStep_weight (stepped : pool.pollerStep = some after) : after.weight + 1 ≤ pool.weight := by
  cases pollerStep_cases stepped with
  | complete place ahead =>
    simp only [weight, PollerPlace.weight, place, ahead, List.length_cons]
    omega
  | @lock request place free =>
    have cells := setCell_weight pool request.queue { pool.cells request.queue with holder := some .poller }
    simp only [Cell.weight] at cells
    simp only [weight, PollerPlace.weight, place, Cell.weight, setCell] at cells ⊢
    omega
  | @put request place =>
    have cells := setCell_weight pool request.queue { pool.cells request.queue with
      queue := (pool.cells request.queue).queue ++ [request.entry] }
    simp only [weight, PollerPlace.weight, place, Cell.weight, setCell, List.length_append, List.length_singleton] at cells ⊢
    omega
  | @signal request place =>
    have cells := setCell_weight pool request.queue (pool.cells request.queue).signal
    have signalled := (pool.cells request.queue).signal_weight
    simp only [weight, PollerPlace.weight, place, setCell] at cells ⊢
    omega
  | @unlock request place =>
    have cells := setCell_weight pool request.queue { pool.cells request.queue with holder := none }
    simp only [weight, PollerPlace.weight, place, Cell.weight, setCell] at cells ⊢
    omega

/-- A cell with fewer steps left. -/
theorem setCell_less {cell : Cell σ} (less : cell.weight + 1 ≤ (pool.cells number).weight) :
    (pool.setCell number cell).weight + 1 ≤ pool.weight := by
  have cells := setCell_weight pool number cell
  simp only [weight, setCell] at cells ⊢
  omega

/-- A worker that moves on, by the steps left to its place. -/
theorem setCell_moves {later : WorkerPlace} (less : later.weight + 1 ≤ (pool.cells number).place.weight) :
    (pool.setCell number { pool.cells number with place := later }).weight + 1 ≤ pool.weight := by
  apply setCell_less
  simp only [Cell.weight]
  omega

theorem workerStep_weight (stepped : pool.workerStep number = some after) : after.weight + 1 ≤ pool.weight := by
  cases workerStep_cases stepped with
  | acquire place free =>
    apply setCell_less
    rcases place with place | place <;> simp only [Cell.weight, place, WorkerPlace.weight, Nat.le_refl]
  | sleep place empty =>
    exact setCell_less (by simp only [Cell.weight, place, WorkerPlace.weight, Nat.le_refl])
  | take place queue =>
    apply setCell_less
    simp only [Cell.weight, place, queue, List.length_cons]
    split <;> simp only [WorkerPlace.weight] <;> omega
  | depart place connected =>
    exact setCell_less (by simp only [Cell.weight, place, WorkerPlace.weight, Nat.le_refl])
  | skip place nothing =>
    apply setCell_less
    simp only [Cell.weight, place, WorkerPlace.weight]
    omega
  | operate place operated =>
    exact setCell_less (by simp only [Cell.weight, place, WorkerPlace.weight, Nat.le_refl])
  | abort place operated =>
    apply setCell_less
    simp only [Cell.weight, place, WorkerPlace.weight]
    omega
  | answer place free => exact @setCell_moves _ _ _ pool number (.putting _ _) (by rw [place]; exact Nat.le_refl _)
  | putResult place => exact @setCell_moves _ _ _ pool number .signalling (by rw [place]; exact Nat.le_refl _)
  | signal place => exact setCell_moves (by rw [place]; exact Nat.le_refl _)
  | leave place => exact @setCell_moves _ _ _ pool number .locking (by rw [place]; exact Nat.le_refl _)

/-- A step uses up some of what is left; waking without a signal adds three. -/
theorem step_weight {act : Act workers} (stepped : step act pool = some after) :
    after.weight + 1 ≤ pool.weight + if act.isSpurious then 3 else 0 := by
  cases act with
  | poller => exact pollerStep_weight stepped
  | worker number => exact workerStep_weight stepped
  | spurious number =>
    simp only [step] at stepped
    split at stepped
    · rename_i place
      obtain rfl := Option.some.inj stepped
      have cells := setCell_weight pool number { pool.cells number with place := .woken }
      simp only [Cell.weight, place, WorkerPlace.weight, weight, setCell, Act.isSpurious, if_true] at cells ⊢
      omega
    · cases stepped

/-- The operations of a key on one worker: all of its requests, in the order
they were read, on the worker of its queue, and none on another. -/
def callsFor (requests : List (Request fileCount workers)) (number : Fin workers) (key : List UInt8) : List IndexCall :=
  if requestQueue fileCount key = (number : Nat) then
    (requests.filter fun request => decide (request.work.key = key)).map Request.call
  else []

/-- The operations that a worker has run for a key. -/
def Cell.callsOf (cell : Cell σ) (key : List UInt8) : List IndexCall :=
  cell.run.calls.filter fun call => decide (call.key = key)

/-- The operations run so far for each key are the first of its own, by one
worker, and no request has two results. -/
structure Orderly (requests : List (Request fileCount workers)) (pool : Pool fileCount workers σ) : Prop where
  calls : ∀ number key, (pool.cells number).callsOf key <+: callsFor requests number key
  results : ∃ answered, List.Forall₂ Answers pool.results answered ∧ answered.Subperm requests

/-- Every operation has been run, and every request has its one result. -/
structure Finished (requests : List (Request fileCount workers)) (pool : Pool fileCount workers σ) : Prop where
  calls : ∀ number key, (pool.cells number).callsOf key = callsFor requests number key
  results : ∃ answered, List.Forall₂ Answers pool.results answered ∧ answered.Perm requests

theorem queue_eq (request : Request fileCount workers) :
    ((request.queue : Nat) : Int) = requestQueue fileCount request.work.key := Int.toNat_of_nonneg request.inside.1

/-- The requests of a key are all on one queue. -/
theorem callsFor_eq (requests : List (Request fileCount workers)) (number : Fin workers) (key : List UInt8) :
    callsFor requests number key =
      ((ofQueue number requests).filter fun request => decide (request.work.key = key)).map Request.call := by
  rw [callsFor, ofQueue, List.filter_filter]
  split
  · rename_i here
    congr 1
    apply List.filter_congr
    intro request _
    by_cases own : request.work.key = key
    · have queue : request.queue = number := by
        have same := queue_eq request
        rw [own, here] at same
        exact Fin.ext (Int.ofNat.inj same)
      simp only [own, queue, decide_true, Bool.and_self]
    · simp only [own, decide_false, Bool.false_and]
  · rename_i elsewhere
    rw [List.filter_eq_nil_iff.mpr, List.map_nil]
    intro request _ both
    simp only [Bool.and_eq_true, decide_eq_true_eq] at both
    apply elsewhere
    rw [← both.1, ← queue_eq, both.2]

/-- The operations of a worker for a key, by the requests it has run. -/
theorem callsOf_eq {cell : Cell σ} {ran : List (Request fileCount workers)} (calls : cell.run.calls = ran.map Request.call)
    (key : List UInt8) :
    cell.callsOf key = (ran.filter fun request => decide (request.work.key = key)).map Request.call := by
  rw [Cell.callsOf, calls, List.filter_map]
  rfl

/-- What the queues have of a request says how often a list has it. -/
theorem count_ofQueue [DecidableEq (Request fileCount workers)] (request : Request fileCount workers)
    (requests : List (Request fileCount workers)) :
    requests.count request = (ofQueue request.queue requests).count request := by
  symm
  apply List.count_filter
  exact decide_eq_true rfl

theorem subperm_of_ofQueue (sub : ∀ number, (ofQueue number answered).Sublist (ofQueue number requests)) :
    answered.Subperm requests := by
  classical
  apply List.subperm_ext_iff.mpr
  intro request _
  rw [count_ofQueue request answered, count_ofQueue request requests]
  exact (sub request.queue).count_le request

theorem perm_of_ofQueue (same : ∀ number, ofQueue number answered = ofQueue number requests) :
    answered.Perm requests := by
  classical
  apply List.perm_iff_count.mpr
  intro request
  rw [count_ofQueue request answered, count_ofQueue request requests, same]

theorem Inv.orderly (inv : Inv requests pool) : pool.Orderly requests := by
  obtain ⟨read, answered, split, results, balanced⟩ := inv.books
  constructor
  · intro number key
    obtain ⟨ran, taken, queued, owing, books⟩ := balanced number
    have first : ran <+: ofQueue number requests := by
      rw [split, ofQueue_append, ← books.flow]
      simp only [List.append_assoc]
      exact List.prefix_append ..
    rw [callsOf_eq books.calls, callsFor_eq]
    exact (first.filter _).map _
  · refine ⟨answered, results, subperm_of_ofQueue fun number => ?_⟩
    obtain ⟨ran, taken, queued, owing, books⟩ := balanced number
    have first : ofQueue number answered <+: ofQueue number requests := by
      rw [split, ofQueue_append, ← books.flow, books.owed]
      simp only [List.append_assoc]
      exact List.prefix_append ..
    exact first.sublist

theorem Inv.finished (inv : Inv requests pool) (quiet : pool.Quiet) : pool.Finished requests := by
  obtain ⟨reading, none_, idle⟩ := inv.quiet quiet
  obtain ⟨read, answered, split, results, balanced⟩ := inv.books
  rw [none_, List.append_nil] at split
  have done (number : Fin workers) : (pool.cells number).run.calls = (ofQueue number requests).map Request.call ∧
      ofQueue number answered = ofQueue number requests := by
    obtain ⟨ran, taken, queued, owing, books⟩ := balanced number
    obtain ⟨asleep, empty⟩ := idle number
    have carries := books.place
    rw [asleep] at carries
    obtain ⟨rfl, rfl⟩ := carries
    obtain rfl := List.map_eq_nil_iff.mp (books.queue.symm.trans empty)
    have flow := books.flow
    have owed := books.owed
    rw [reading] at flow
    simp only [PollerPlace.unput, ofQueue, List.filter_nil, List.append_nil] at flow owed
    rw [books.calls, flow, split]
    exact ⟨rfl, owed.symm.trans flow⟩
  constructor
  · intro number key
    rw [callsOf_eq (done number).1, callsFor_eq]
  · exact ⟨answered, results, perm_of_ofQueue fun number => (done number).2⟩

theorem spurious_sum (acts : List (Act workers)) :
    (acts.map fun act => if act.isSpurious then 3 else 0).sum = 3 * acts.countP Act.isSpurious := by
  induction acts with
  | nil => rfl
  | cons act rest ih =>
    rw [List.map_cons, List.sum_cons, ih, List.countP_cons]
    split <;> omega

/-- In every state the poller and the workers reach, the operations of each key
are run in the order its requests were read, by one worker; where nobody can go
on all are run and answered; and that is so after a bounded number of steps,
but for those that follow a wake-up without a signal. -/
theorem served_in_order (requests : List (Request fileCount workers))
    (answer : Fin workers → IndexCall → σ → IndexAnswer × σ) (index : Fin workers → σ) (acts : List (Act workers))
    (final : Pool fileCount workers σ) (ran : Transition.run step acts (start requests answer index) = some final) :
    final.Orderly requests ∧ (final.Quiet → final.Finished requests) ∧
      acts.length ≤ 15 * requests.length + 2 * workers + 3 * acts.countP Act.isSpurious := by
  have inv : Inv requests final := Transition.run_inv (fun _ _ _ inv stepped => step_inv inv stepped)
    (start_inv requests answer index) ran
  refine ⟨inv.orderly, inv.finished, ?_⟩
  have bound := Transition.run_length (fun _ _ _ stepped => step_weight stepped) ran
  have begins : (start requests answer index).weight = 15 * requests.length + 2 * workers := by
    simp [weight, start, PollerPlace.weight, Cell.weight, WorkerPlace.weight, Nat.mul_comm]
  rw [spurious_sum, begins] at bound
  omega

/-- A get for a key of one byte, on connection 6. -/
def oneGet : Request 1 1 where
  fd := 6
  work := { newKvWork with head := ⟨0x1100, 1, 0⟩, field1 := some (Buf.ofList [49]) }
  kind := .get
  connected := by decide
  request := by decide
  stands := by decide
  inside := by decide +kernel

/-- A set and a get of one key, and a get of a key of the other worker. -/
def threeRequests : List (Request 2 2) :=
  [{ fd := 11, kind := .set, connected := by decide, request := by decide, stands := by decide, inside := by decide +kernel
     work := { newKvWork with head := ⟨0x1200, 1, 1⟩, field1 := some (Buf.ofList [49]), field2 := some (Buf.ofList [50]) } },
   { fd := 12, kind := .get, connected := by decide, request := by decide, stands := by decide, inside := by decide +kernel
     work := { newKvWork with head := ⟨0x1100, 1, 0⟩, field1 := some (Buf.ofList [49]) } },
   { fd := 13, kind := .get, connected := by decide, request := by decide, stands := by decide, inside := by decide +kernel
     work := { newKvWork with head := ⟨0x1100, 1, 0⟩, field1 := some (Buf.ofList [48]) } }]

/-- An index that holds the value of one key. -/
def oneKeyIndex (_ : Fin 2) (call : IndexCall) (held : List UInt8) : IndexAnswer × List UInt8 :=
  match call.kind with
  | .get => (⟨held.length, some (Buf.ofList held)⟩, held)
  | .set => (⟨0, none⟩, call.value)
  | .del => (⟨0, none⟩, [])

/-- One worker sleeps and wakes up once without a signal, and has yet to run its requests when the other is done. -/
def twoWorkers : List (Act 2) :=
  List.replicate 2 (.worker 0) ++ .spurious 0 :: List.replicate 2 (.worker 0) ++ List.replicate 5 .poller ++
    List.replicate 3 (.worker 0) ++ List.replicate 10 .poller ++ List.replicate 10 (.worker 1) ++ List.replicate 15 (.worker 0)

theorem three_requests_served : ∃ final ∈ Transition.run step twoWorkers (start threeRequests oneKeyIndex fun _ => []),
    final.results.map (fun result => (result.1, result.2.bytes)) =
      [(13, [0, 32, 0, 0, 0, 0]), (11, [0, 32, 0, 0, 0, 0]), (12, [0, 32, 1, 0, 0, 0, 50])] ∧
    final.Orderly threeRequests ∧ final.Finished threeRequests ∧ twoWorkers.length ≤ 52 := by
  obtain ⟨final, ran⟩ := Option.isSome_iff_exists.mp
    (show (Transition.run step twoWorkers (start threeRequests oneKeyIndex fun _ => [])).isSome by decide +kernel)
  have answered : (Transition.run step twoWorkers (start threeRequests oneKeyIndex fun _ => [])).map (fun pool =>
      pool.results.map fun result => (result.1, result.2.bytes)) =
        some [(13, [0, 32, 0, 0, 0, 0]), (11, [0, 32, 0, 0, 0, 0]), (12, [0, 32, 1, 0, 0, 0, 50])] := by decide +kernel
  have rests : (Transition.run step twoWorkers (start threeRequests oneKeyIndex fun _ => [])).map (fun pool =>
      (pool.pollerStep.isNone, (pool.workerStep 0).isNone, (pool.workerStep 1).isNone)) = some (true, true, true) := by
    decide +kernel
  rw [ran] at answered rests
  obtain ⟨poller, rests⟩ := Prod.mk.inj (Option.some.inj rests)
  obtain ⟨first, second⟩ := Prod.mk.inj rests
  have quiet : final.Quiet := ⟨Option.isNone_iff_eq_none.mp poller,
    Fin.forall_fin_two.mpr ⟨Option.isNone_iff_eq_none.mp first, Option.isNone_iff_eq_none.mp second⟩⟩
  obtain ⟨orderly, finished, bound⟩ := served_in_order threeRequests oneKeyIndex _ twoWorkers final ran
  exact ⟨final, ran, Option.some.inj answered, orderly, finished quiet, bound⟩

end Pool

end Pingkv
