import Pingkv.Server.Whereabouts

/-! What clients see of the service they would see of the atomic one, whatever the
order in which the threads take their steps. -/

namespace Pingkv

namespace Service

open Simulation

variable {fileCount : Int} {workers : Nat} {σ : Type} {answer : Fin workers → IndexCall → σ → IndexAnswer × σ}
  {service : Service fileCount workers σ} {atomic : AtomicService fileCount workers σ}
  {loc : Int → Loc fileCount workers} {fd : Int} {place : Loc fileCount workers} {request : Request fileCount workers}
  {number : Fin workers} {pool : Pool fileCount workers σ} {drift : σ → σ → Prop}

private theorem client_idle (idle : place.client = .idle) : place = .idle := by
  cases place <;> first | rfl | cases idle

private theorem client_sending (sends : place.client = .sending request) : place = .sending request := by
  cases place with
  | sending => exact congrArg Loc.sending (ClientPlace.sending.inj sends)
  | _ => cases sends

/-- A move that clients do not see. -/
private theorem clients_same (clients : ∀ fd, (service.clients fd).place = (loc fd).client)
    (same : place.client = (loc fd).client) (other : Int) :
    (service.clients other).place = (Function.update loc fd place other).client := by
  by_cases own : other = fd
  · subst own
    rw [Function.update_self, same, clients]
  · rw [Function.update_of_ne own, clients]

private theorem clients_update (clients : ∀ fd, (service.clients fd).place = (loc fd).client)
    (place : Loc fileCount workers) (heard : List UInt8) (other : Int) : (Function.update service.clients fd ⟨place.client, heard⟩ other).place =
      (Function.update loc fd place other).client := by
  by_cases own : other = fd
  · subst own
    rw [Function.update_self, Function.update_self]
  · rw [Function.update_of_ne own, Function.update_of_ne own, clients]

/-- A move that the atomic service does not see. -/
private theorem pending_same (pending : ∀ fd, atomic.pending fd = (loc fd).pending)
    (same : place.pending = (loc fd).pending) (other : Int) :
    atomic.pending other = (Function.update loc fd place other).pending := by
  by_cases own : other = fd
  · subst own
    rw [Function.update_self, same, pending]
  · rw [Function.update_of_ne own, pending]

private theorem pending_update (pending : ∀ fd, atomic.pending fd = (loc fd).pending)
    (place : Loc fileCount workers) (other : Int) :
    Function.update atomic.pending fd place.pending other = (Function.update loc fd place other).pending := by
  by_cases own : other = fd
  · subst own
    rw [Function.update_self, Function.update_self]
  · rw [Function.update_of_ne own, Function.update_of_ne own, pending]

private theorem valid_update (valid : ∀ fd, (loc fd).Valid fd) (here : place.Valid fd) (other : Int) :
    (Function.update loc fd place other).Valid other :=
  update_forall (fun fd place => place.Valid fd) here (fun other _ => valid other) other

/-- A move that leaves the sender, its connection and what was heard on it. -/
private theorem lines_same {bufs : Int → Option (Option KvWork)} {wire heard : Int → List UInt8} {failed : Int → Prop}
    (lines : ∀ fd, (loc fd).Line (bufs fd) (wire fd) (heard fd) (failed fd))
    (here : (loc fd).Line (bufs fd) (wire fd) (heard fd) (failed fd) → place.Line (bufs fd) (wire fd) (heard fd) (failed fd))
    (other : Int) : (Function.update loc fd place other).Line (bufs other) (wire other) (heard other) (failed other) :=
  update_forall (fun fd place => place.Line (bufs fd) (wire fd) (heard fd) (failed fd)) (here (lines fd))
    (fun other _ => lines other) other

private theorem cells_move (cells : ∀ number, ∃ requests job, Cellar loc number (service.pool.cells number) requests job)
    (old : (loc fd).cell = none) (new : place.cell = none) (number : Fin workers) :
    ∃ requests job, Cellar (Function.update loc fd place) number (service.pool.cells number) requests job := by
  obtain ⟨requests, job, cellar⟩ := cells number
  exact ⟨requests, job, cellar.move (by simp [old]) (by simp [new])⟩

/-- A client sends a request. -/
theorem Placed.ask (placed : Placed answer service atomic loc) (idle : (service.clients request.fd).place = .idle) :
    Placed answer { service with
      clients := Function.update service.clients request.fd ⟨.sending request, (service.clients request.fd).heard⟩ }
      { atomic with pending := Function.update atomic.pending request.fd (some (request, none)) }
      (Function.update loc request.fd (.sending request)) := by
  have here : loc request.fd = .idle := client_idle ((placed.clients _).symm.trans idle)
  have heard (other : Int) : (Function.update service.clients request.fd
      ⟨.sending request, (service.clients request.fd).heard⟩ other).heard = (service.clients other).heard := by
    by_cases own : other = request.fd
    · subst own
      rw [Function.update_self]
    · rw [Function.update_of_ne own]
  constructor
  case valid => exact valid_update placed.valid rfl
  case clients => exact clients_update placed.clients (.sending request) _
  case front => exact placed.front.move (by rw [here]; rfl) rfl
  case cells => exact cells_move placed.cells (by rw [here]; rfl) rfl
  case results => exact placed.results.move (by rw [here]; rfl) rfl
  case lines =>
    intro other
    rw [heard]
    exact lines_same placed.lines (fun line => by rwa [here] at line) other
  case shared => exact placed.shared
  case turns => exact placed.turns
  case answers => exact placed.answers
  case pending => exact pending_update placed.pending (.sending request)
  case index => exact placed.index

/-- The poller has read the request of a client to its end. -/
theorem Placed.arrive (placed : Placed answer service atomic loc) (sends : (service.clients fd).place = .sending request) :
    Placed answer { service with
      clients := Function.update service.clients fd ⟨.waiting, (service.clients fd).heard⟩
      pool := { service.pool with ahead := service.pool.ahead ++ [request] } } atomic
      (Function.update loc fd (.ahead request)) := by
  have here : loc fd = .sending request := client_sending ((placed.clients fd).symm.trans sends)
  obtain rfl : request.fd = fd := by
    have valid := placed.valid fd
    rwa [here] at valid
  have heard (other : Int) : (Function.update service.clients request.fd
      ⟨.waiting, (service.clients request.fd).heard⟩ other).heard = (service.clients other).heard := by
    by_cases own : other = request.fd
    · subst own
      rw [Function.update_self]
    · rw [Function.update_of_ne own]
  constructor
  case valid => exact valid_update placed.valid rfl
  case clients => exact clients_update placed.clients (.ahead request) _
  case front =>
    refine ⟨placed.front.coming.append ?_ ?_, placed.front.polled.move ?_ ?_⟩
    · simp [here]
    · exact fun other _ => ⟨fun same => (Loc.ahead.inj same).symm, fun same => same ▸ rfl⟩
    · simp [here]
    · exact fun _ => nofun
  case cells => exact cells_move placed.cells (by rw [here]; rfl) rfl
  case results => exact placed.results.move (by rw [here]; rfl) rfl
  case lines =>
    intro other
    rw [heard]
    exact lines_same placed.lines (fun line => by rwa [here] at line) other
  case shared => exact placed.shared
  case turns => exact placed.turns
  case answers => exact placed.answers
  case pending => exact pending_same placed.pending (by rw [here]; rfl)
  case index => exact placed.index

/-- Who holds the queue of results does not change with a cell that is not in it. -/
private theorem Shared.cell {owner : Option Sender.Owner} {holder : Option (Fin workers)} {cells : Fin workers → Pool.Cell σ}
    (shared : Shared owner holder cells) {cell : Pool.Cell σ}
    (apart : cell.place = (cells number).place ∨ ¬ (cells number).place.HoldsResults) :
    Shared owner holder (Function.update cells number cell) := by
  have kept {other : Fin workers} {place : Pool.WorkerPlace} (holds : place.HoldsResults)
      (here : (cells other).place = place) : (Function.update cells number cell other).place = place := by
    by_cases own : other = number
    · subst own
      rw [Function.update_self]
      refine (apart.resolve_right fun outside => outside ?_).trans here
      rwa [here]
    · rw [Function.update_of_ne own, here]
  match owner with
  | none | some .sender => exact shared
  | some (.putting _) | some .signalling | some .leaving =>
    obtain ⟨other, holder, here⟩ := shared
    exact ⟨other, holder, kept trivial here⟩

private theorem answers_setCell {cell : Pool.Cell σ} (answers : ∀ number, (pool.cells number).run.answer = answer number)
    (run : cell.run.answer = (pool.cells number).run.answer) (other : Fin workers) :
    ((pool.setCell number cell).cells other).run.answer = answer other := by
  by_cases own : other = number
  · subst own
    rw [Pool.setCell_self, run, answers]
  · rw [Pool.setCell_other own, answers]

private theorem index_setCell {index : Fin workers → σ} {cell : Pool.Cell σ}
    (indexes : ∀ number, index number = (pool.cells number).run.index) (run : cell.run = (pool.cells number).run)
    (other : Fin workers) : index other = ((pool.setCell number cell).cells other).run.index := by
  by_cases own : other = number
  · subst own
    rw [Pool.setCell_self, run, indexes]
  · rw [Pool.setCell_other own, indexes]

/-- A pool in which every request and result is where it was. -/
private structure Kept (before after : Pool fileCount workers σ) : Prop where
  ahead : after.ahead = before.ahead
  unput : after.poller.unput = before.poller.unput
  queue : ∀ number, (after.cells number).queue = (before.cells number).queue
  run : ∀ number, (after.cells number).run = (before.cells number).run
  does : ∀ number (job : Job fileCount workers), job.At (before.cells number).place → job.At (after.cells number).place

private theorem Kept.refl (pool : Pool fileCount workers σ) : Kept pool pool :=
  ⟨rfl, rfl, fun _ => rfl, fun _ => rfl, fun _ _ => id⟩

private theorem Kept.setCell {cell : Pool.Cell σ} {poller : Pool.PollerPlace fileCount workers}
    {holder : Option (Fin workers)} {results : List (Int × KvWork)} (unput : poller.unput = pool.poller.unput)
    (queue : cell.queue = (pool.cells number).queue) (run : cell.run = (pool.cells number).run)
    (does : ∀ job : Job fileCount workers, job.At (pool.cells number).place → job.At cell.place) :
    Kept pool { pool.setCell number cell with poller := poller, resHolder := holder, results := results } := by
  constructor
  case ahead => rfl
  case unput => exact unput
  case queue =>
    exact (Function.forall_update_iff pool.cells fun other cell => cell.queue = (pool.cells other).queue).mpr
      ⟨queue, fun _ _ => rfl⟩
  case run =>
    exact (Function.forall_update_iff pool.cells fun other cell => cell.run = (pool.cells other).run).mpr
      ⟨run, fun _ _ => rfl⟩
  case does =>
    exact (Function.forall_update_iff pool.cells fun other cell => ∀ job : Job fileCount workers,
      job.At (pool.cells other).place → job.At cell.place).mpr ⟨does, fun _ _ _ => id⟩

/-- A step by which nothing goes from one place to another. -/
private theorem Placed.stay (placed : Placed answer service atomic loc) {sender : Sender} (kept : Kept service.pool pool)
    (queue : sender.queue = service.sender.queue) (bufs : sender.bufs = service.sender.bufs)
    (wire : sender.wire = service.sender.wire) (failures : sender.failures = service.sender.failures)
    (shared : Shared sender.owner pool.resHolder pool.cells) (turns : Turns sender) :
    Placed answer { service with pool := pool, sender := sender } atomic loc := by
  constructor
  case valid => exact placed.valid
  case clients => exact placed.clients
  case front => exact ⟨by rw [kept.ahead]; exact placed.front.coming, by rw [kept.unput]; exact placed.front.polled⟩
  case cells =>
    intro number
    obtain ⟨requests, job, cellar⟩ := placed.cells number
    exact ⟨requests, job, cellar.congr (kept.queue number) (kept.does number job cellar.does)⟩
  case results =>
    rw [queue]
    exact placed.results
  case lines =>
    rw [bufs, wire, failures]
    exact placed.lines
  case shared => exact shared
  case turns => exact turns
  case answers =>
    intro number
    rw [kept.run]
    exact placed.answers number
  case pending => exact placed.pending
  case index =>
    intro number
    rw [kept.run]
    exact placed.index number

/-- The poller takes up the next request. -/
theorem Placed.complete (placed : Placed answer service atomic loc) {rest : List (Request fileCount workers)}
    (reading : service.pool.poller = .reading) (ahead : service.pool.ahead = request :: rest) :
    Placed answer { service with pool := { service.pool with ahead := rest, poller := .locking request } } atomic
      (Function.update loc request.fd (.polled request)) := by
  have coming := placed.front.coming
  have polled := placed.front.polled
  rw [ahead] at coming
  rw [reading] at polled
  have here : loc request.fd = .ahead request := coming.here
  constructor
  case valid => exact valid_update placed.valid rfl
  case clients => exact clients_same placed.clients (by rw [here]; rfl)
  case front =>
    refine ⟨coming.tail fun _ => nofun, show Listed _ _ _ ([] ++ [request]) from Listed.append polled ?_ ?_⟩
    · simp [here]
    · exact fun other _ => ⟨fun same => (Loc.polled.inj same).symm, fun same => same ▸ rfl⟩
  case cells => exact cells_move placed.cells (by rw [here]; rfl) rfl
  case results => exact placed.results.move (by rw [here]; rfl) rfl
  case lines => exact lines_same placed.lines fun line => by rwa [here] at line
  case shared => exact placed.shared
  case turns => exact placed.turns
  case answers => exact placed.answers
  case pending => exact pending_same placed.pending (by rw [here]; rfl)
  case index => exact placed.index

private theorem Placed.apart (placed : Placed answer service atomic loc) (old : (loc fd).cell = none ∨ (loc fd).cell = some number)
    (new : place.cell = none ∨ place.cell = some number) {other : Fin workers} (different : other ≠ number) :
    ∃ requests job, Cellar (Function.update loc fd place) other (service.pool.cells other) requests job := by
  obtain ⟨requests, job, cellar⟩ := placed.cells other
  refine ⟨requests, job, cellar.move ?_ ?_⟩
  · rcases old with none | here <;> simp_all [Ne.symm different]
  · rcases new with none | here <;> simp_all [Ne.symm different]

/-- The poller puts its request on the queue of a worker. -/
theorem Placed.putRequest (placed : Placed answer service atomic loc) (putting : service.pool.poller = .putting request) :
    Placed answer { service with pool := { service.pool.setCell request.queue { service.pool.cells request.queue with
      queue := (service.pool.cells request.queue).queue ++ [request.entry] } with poller := .signalling request } } atomic
      (Function.update loc request.fd (.queued request)) := by
  have polled := placed.front.polled
  rw [putting] at polled
  have here : loc request.fd = .polled request := polled.here
  constructor
  case valid => exact valid_update placed.valid rfl
  case clients => exact clients_same placed.clients (by rw [here]; rfl)
  case front => exact ⟨placed.front.coming.move (by simp [here]) (by simp), polled.tail (by simp)⟩
  case cells =>
    obtain ⟨requests, job, cellar⟩ := placed.cells request.queue
    exact cells_setCell ⟨_, job, cellar.enqueue here⟩ fun other different =>
      placed.apart (.inl (by rw [here]; rfl)) (.inr rfl) different
  case results => exact placed.results.move (by rw [here]; rfl) rfl
  case lines => exact lines_same placed.lines fun line => by rwa [here] at line
  case shared => exact placed.shared.cell (.inl rfl)
  case turns => exact placed.turns
  case answers => exact answers_setCell placed.answers (by rfl)
  case pending => exact pending_same placed.pending (by rw [here]; rfl)
  case index => exact index_setCell placed.index (by rfl)

/-- A worker takes a request. -/
theorem Placed.take (placed : Placed answer service atomic loc) {entry : Int × KvWork} {rest : List (Int × KvWork)}
    (testing : (service.pool.cells number).place = .testing) (queue : (service.pool.cells number).queue = entry :: rest) :
    ∃ fd place, Placed answer { service with pool := service.pool.setCell number { service.pool.cells number with
      queue := rest, place := if entry.1 = -1 then .aborted else .unlocking entry.1 (some entry.2) } } atomic
      (Function.update loc fd place) := by
  obtain ⟨requests, job, cellar⟩ := placed.cells number
  cases requests with
  | nil => exact absurd (queue.symm.trans cellar.queue) (by simp)
  | cons request requests =>
    obtain ⟨rfl, rfl⟩ := List.cons.inj (queue.symm.trans cellar.queue)
    obtain rfl : job = .free := by
      have does := cellar.does
      rw [testing] at does
      cases job <;> first | rfl | cases does
    obtain ⟨own, here⟩ := cellar.queued.here
    have connected : request.entry.1 ≠ -1 := by
      have connected := request.connected
      change request.fd ≠ -1
      omega
    refine ⟨request.fd, .taken request, ?_⟩
    rw [if_neg connected]
    constructor
    case valid => exact valid_update placed.valid rfl
    case clients => exact clients_same placed.clients (by rw [here]; rfl)
    case front => exact placed.front.move (by rw [here]; rfl) rfl
    case cells =>
      exact cells_setCell ⟨_, _, cellar.take⟩ fun other different =>
        placed.apart (.inr (by rw [here, ← own]; rfl)) (.inr (own ▸ rfl)) different
    case results => exact placed.results.move (by rw [here]; rfl) rfl
    case lines => exact lines_same placed.lines fun line => by rwa [here] at line
    case shared => exact placed.shared.cell (.inr (by simp [testing, Pool.WorkerPlace.HoldsResults]))
    case turns => exact placed.turns
    case answers => exact answers_setCell placed.answers (by rfl)
    case pending => exact pending_same placed.pending (by rw [here]; rfl)
    case index => exact index_setCell placed.index (by rfl)

theorem resultOf_unsent (kind : IndexCall.Kind) (answer : IndexAnswer) : (resultOf kind answer).Unsent := by
  unfold resultOf
  split
  · cases kind <;> exact ⟨rfl, rfl, rfl⟩
  · exact ⟨rfl, rfl, rfl⟩

/-- A worker runs its request, at which moment the atomic service does. -/
theorem Placed.operate (placed : Placed answer service atomic loc) {req : KvWork}
    (operating : (service.pool.cells number).place = .operating fd req) :
    ∃ result run after place, Pingkv.operate req (service.pool.cells number).run = (.ok result, run) ∧
      AtomicService.Step answer drift atomic (.run fd req) after ∧
      Placed answer { service with pool := service.pool.setCell number { service.pool.cells number with
        run := run, place := .answering fd result } } after (Function.update loc fd place) := by
  obtain ⟨requests, job, cellar⟩ := placed.cells number
  have does := cellar.does
  rw [operating] at does
  cases job with
  | free | owed => cases does
  | taken request =>
    obtain ⟨rfl, rfl⟩ := does
    obtain ⟨rfl, here⟩ := cellar.taken.here
    have operated := operate_run request.stands (service.pool.cells request.queue).run
    have asked : atomic.pending request.fd = some (request, none) := by
      rw [placed.pending, here]
      rfl
    rw [placed.answers, ← placed.index] at operated
    refine ⟨_, _, _, .owed request (resultOf request.kind (answer request.queue request.call
      (atomic.index request.queue)).1), operated, .run asked, ?_⟩
    constructor
    case valid => exact valid_update placed.valid ⟨rfl, resultOf_unsent _ _⟩
    case clients => exact clients_same placed.clients (by rw [here]; rfl)
    case front => exact placed.front.move (by rw [here]; rfl) rfl
    case cells =>
      exact cells_setCell ⟨_, _, cellar.operate _⟩ fun other different =>
        placed.apart (.inr (by rw [here]; rfl)) (.inr rfl) different
    case results => exact placed.results.move (by rw [here]; rfl) rfl
    case lines => exact lines_same placed.lines fun line => by rwa [here] at line
    case shared => exact placed.shared.cell (.inr (by simp [operating, Pool.WorkerPlace.HoldsResults]))
    case turns => exact placed.turns
    case answers => exact answers_setCell placed.answers (placed.answers _).symm
    case pending => exact pending_update placed.pending (.owed request _)
    case index =>
      intro other
      by_cases same : other = request.queue
      · subst same
        rw [Pool.setCell_self]
        exact Function.update_self ..
      · rw [Pool.setCell_other same, ← placed.index other]
        exact Function.update_of_ne same ..

/-- The poller goes on. -/
theorem Placed.pollerStep (placed : Placed answer service atomic loc) (stepped : service.pool.pollerStep = some pool) :
    ∃ later, Placed answer { service with pool := pool } atomic later := by
  cases Pool.pollerStep_cases stepped with
  | complete place ahead => exact ⟨_, placed.complete place ahead⟩
  | lock place =>
    refine ⟨loc, placed.stay (.setCell ?_ rfl rfl fun _ => id) rfl rfl rfl rfl (placed.shared.cell (.inl rfl)) placed.turns⟩
    rw [place]
    rfl
  | put place => exact ⟨_, placed.putRequest place⟩
  | @signal request place =>
    have unput : (Pool.PollerPlace.unlocking request).unput = service.pool.poller.unput := by
      rw [place]
      rfl
    rcases (service.pool.cells request.queue).signal_cases with ⟨same, _⟩ | ⟨asleep, same⟩
    · rw [same]
      exact ⟨loc, placed.stay (.setCell unput rfl rfl fun _ => id) rfl rfl rfl rfl (placed.shared.cell (.inl rfl)) placed.turns⟩
    · rw [same]
      refine ⟨loc, placed.stay (.setCell unput rfl rfl fun job does => ?_) rfl rfl rfl rfl
        (placed.shared.cell (.inr ?_)) placed.turns⟩
      · rw [asleep] at does
        exact does.idle trivial trivial
      · rw [asleep]
        exact id
  | unlock place =>
    refine ⟨loc, placed.stay (.setCell ?_ rfl rfl fun _ => id) rfl rfl rfl rfl (placed.shared.cell (.inl rfl)) placed.turns⟩
    rw [place]
    rfl

/-- A wait of a worker returns. -/
theorem Placed.wake (placed : Placed answer service atomic loc)
    (stepped : Pool.step (.spurious number) service.pool = some pool) :
    Placed answer { service with pool := pool } atomic loc := by
  simp only [Pool.step] at stepped
  split at stepped
  · rename_i asleep
    obtain rfl := Option.some.inj stepped
    refine placed.stay (.setCell rfl rfl rfl fun job does => ?_) rfl rfl rfl rfl (placed.shared.cell (.inr ?_)) placed.turns
    · rw [asleep] at does
      exact does.idle trivial trivial
    · rw [asleep]
      exact id
  · cases stepped

/-- A worker goes on that does not run a request and holds no result. -/
theorem Placed.workerStep (placed : Placed answer service atomic loc) (apart : Apart (service.pool.cells number).place)
    (stepped : service.pool.workerStep number = some pool) :
    ∃ later, Placed answer { service with pool := pool } atomic later := by
  have stays {holder : Option Pool.Holder} {later : Pool.WorkerPlace} (outside : ¬ (service.pool.cells number).place.HoldsResults)
      (does : ∀ job : Job fileCount workers, job.At (service.pool.cells number).place → job.At later) :
      Placed answer { service with pool := service.pool.setCell number { service.pool.cells number with
        holder := holder, place := later } } atomic loc :=
    placed.stay (.setCell rfl rfl rfl does) rfl rfl rfl rfl (placed.shared.cell (.inr outside)) placed.turns
  cases Pool.workerStep_cases stepped with
  | acquire place =>
    refine ⟨loc, stays ?_ fun job does => ?_⟩
    · rcases place with place | place <;> rw [place] <;> exact id
    · rcases place with place | place <;> rw [place] at does <;> exact does.idle trivial trivial
  | sleep place =>
    refine ⟨loc, stays ?_ fun job does => ?_⟩
    · rw [place]
      exact id
    · rw [place] at does
      exact does.idle trivial trivial
  | take place queue =>
    obtain ⟨fd, later, taken⟩ := placed.take place queue
    exact ⟨_, taken⟩
  | depart place =>
    refine ⟨loc, stays ?_ fun job does => ?_⟩
    · rw [place]
      exact id
    · rw [place] at does
      cases job with
      | taken request => exact ⟨does.1, Option.some.inj does.2⟩
      | free | owed => cases does
  | skip place nothing =>
    -- A worker that has taken something has taken a request.
    obtain ⟨requests, job, cellar⟩ := placed.cells number
    have does := cellar.does
    rw [place] at does
    cases job with
    | free | owed => cases does
    | taken request =>
      obtain ⟨rfl, rfl⟩ := does
      have connected := request.connected
      rcases nothing with none | unconnected
      · cases none
      · omega
  | operate place | abort place | answer place | putResult place | signal place | leave place =>
    rw [place] at apart
    cases apart

section Passing

variable {sender : Sender}

/-- A worker locks the queue of results, as the sender sees it. -/
theorem Placed.lock (placed : Placed answer service atomic loc) {result : Result}
    (place : (service.pool.cells number).place = .answering result.fd result.work)
    (stepped : service.pool.workerStep number = some pool) (locked : Sender.step (.put result) service.sender = some sender)
    (alive : sender.place ≠ .crashed) : Placed answer { service with pool := pool, sender := sender } atomic loc := by
  have turns := placed.turns.step (by nofun) alive locked
  simp only [Pool.workerStep, place] at stepped
  split at stepped
  · obtain rfl := Option.some.inj stepped
    cases Sender.step_cases locked with
    | put free =>
      refine placed.stay (.setCell rfl rfl rfl fun job does => ?_) rfl rfl rfl rfl ?_ turns
      · rw [place] at does
        cases job with
        | owed => exact does
        | free | taken => cases does
      · exact ⟨number, rfl, by rw [Pool.setCell_self]⟩
  · cases stepped

/-- A worker puts its result on the queue of results. -/
theorem Placed.putResult (placed : Placed answer service atomic loc) {result : Result}
    (place : (service.pool.cells number).place = .putting result.fd result.work) (holder : service.pool.resHolder = some number)
    (turns : Turns { service.sender with
      queue := service.sender.queue ++ [(result.fd, result.work)]
      puts := service.sender.puts ++ [(result.fd, result.work)], owner := some .signalling }) :
    ∃ fd place, Placed answer { service with
      pool := { service.pool.setCell number { service.pool.cells number with place := .signalling } with
        results := service.pool.results ++ [(result.fd, result.work)] }
      sender := { service.sender with
        queue := service.sender.queue ++ [(result.fd, result.work)]
        puts := service.sender.puts ++ [(result.fd, result.work)]
        owner := some .signalling } } atomic (Function.update loc fd place) := by
  obtain ⟨requests, job, cellar⟩ := placed.cells number
  have does := cellar.does
  rw [place] at does
  cases job with
  | free | taken => cases does
  | owed request owing =>
    obtain ⟨connection, owes⟩ := does
    obtain ⟨rfl, here⟩ := cellar.owed.here
    have valid := placed.valid request.fd
    rw [here] at valid
    refine ⟨request.fd, .put request owing, ?_⟩
    rw [connection, owes]
    constructor
    case valid => exact valid_update placed.valid valid
    case clients => exact clients_same placed.clients (by rw [here]; rfl)
    case front => exact placed.front.move (by rw [here]; rfl) rfl
    case cells =>
      exact cells_setCell ⟨_, _, cellar.deliver⟩ fun other different =>
        placed.apart (.inr (by rw [here]; rfl)) (.inl rfl) different
    case results =>
      have away (other : Int × KvWork) : ¬ ∃ sent, loc (request.fd, owing).1 = .put sent other.2 := by simp [here]
      refine Listed.append placed.results away fun other same => ⟨?_, ?_⟩
      · rintro ⟨request, put⟩
        exact Prod.ext same (Loc.put.inj put).2.symm
      · rintro rfl
        exact ⟨request, rfl⟩
    case lines => exact lines_same placed.lines fun line => by rwa [here] at line
    case shared => exact ⟨request.queue, holder, by simp⟩
    case turns =>
      rw [connection, owes] at turns
      exact turns
    case answers => exact answers_setCell placed.answers (by rfl)
    case pending => exact pending_same placed.pending (by rw [here]; rfl)
    case index => exact index_setCell placed.index (by rfl)

/-- A worker goes on behind the lock of the queue of results. -/
theorem Placed.pass (placed : Placed answer service atomic loc) (byResults : service.pool.resHolder = some number)
    (stepped : service.pool.workerStep number = some pool) (passed : Sender.step .worker service.sender = some sender)
    (alive : sender.place ≠ .crashed) :
    ∃ later, Placed answer { service with pool := pool, sender := sender } atomic later := by
  have turns := placed.turns.step (by nofun) alive passed
  have shared := placed.shared
  cases Sender.step_cases passed with
  | enqueue owner =>
    rw [owner] at shared
    obtain ⟨other, holder, place⟩ := shared
    obtain rfl : number = other := Option.some.inj (byResults.symm.trans holder)
    simp only [Pool.workerStep, place] at stepped
    obtain rfl := Option.some.inj stepped
    obtain ⟨fd, later, put⟩ := placed.putResult place holder turns
    exact ⟨_, put⟩
  | signal owner =>
    rw [owner] at shared
    obtain ⟨other, holder, place⟩ := shared
    obtain rfl : number = other := Option.some.inj (byResults.symm.trans holder)
    simp only [Pool.workerStep, place] at stepped
    obtain rfl := Option.some.inj stepped
    refine ⟨loc, placed.stay (.setCell rfl rfl rfl fun job does => ?_) rfl rfl rfl rfl ⟨number, holder, ?_⟩ turns⟩
    · rw [place] at does
      exact does.idle trivial trivial
    · rw [Pool.setCell_self]
  | leave owner =>
    rw [owner] at shared
    obtain ⟨other, holder, place⟩ := shared
    obtain rfl : number = other := Option.some.inj (byResults.symm.trans holder)
    simp only [Pool.workerStep, place] at stepped
    obtain rfl := Option.some.inj stepped
    refine ⟨loc, placed.stay (.setCell rfl rfl rfl fun job does => ?_) rfl rfl rfl rfl rfl turns⟩
    rw [place] at does
    exact does.idle trivial trivial

end Passing

section Sending

variable {sender : Sender} {outcome : SendOutcome} {next : Option Int} {result work : KvWork}

/-- What the sender holds for a connection is under way. -/
theorem Placed.held (placed : Placed answer service atomic loc) (entry : service.sender.bufs.lookup fd = some (some work)) :
    ∃ request result, loc fd = .held request result ∧ UnderWay result work ∧
      service.sender.wire fd = (service.clients fd).heard ++ work.sent := by
  have line := placed.lines fd
  cases here : loc fd with
  | held request result =>
    rw [here] at line
    obtain ⟨other, same, underWay, wire⟩ := line
    obtain rfl : work = other := Option.some.inj (Option.some.inj (entry.symm.trans same))
    exact ⟨request, result, rfl, underWay, wire⟩
  | _ =>
    rw [here, entry] at line
    exact absurd line.1 nofun

/-- A result on the queue is for a connection of which the sender holds nothing. -/
theorem Placed.first (placed : Placed answer service atomic loc) {entry : Int × KvWork} {rest : List (Int × KvWork)}
    (queue : service.sender.queue = entry :: rest) :
    ∃ request, loc entry.1 = .put request entry.2 ∧ service.sender.bufs.lookup entry.1 = none ∧
      service.sender.wire entry.1 = (service.clients entry.1).heard := by
  have results := placed.results
  rw [queue] at results
  obtain ⟨request, here⟩ := Listed.here results
  have line := placed.lines entry.1
  rw [here] at line
  exact ⟨request, here, line⟩

/-- The sender takes one result for each connection, and leaves no head under way. -/
theorem Placed.orderly (placed : Placed answer service atomic loc) :
    Sender.orderly (.sender outcome next) service.sender = true := by
  unfold Sender.orderly
  split
  · rename_i place
    split
    · rename_i queue
      exact absurd queue (placed.turns.getting place)
    · rename_i entry rest queue
      obtain ⟨_, _, none, _⟩ := placed.first queue
      rw [none]
      rfl
  · rename_i fd place
    split
    · rename_i work count entry
      obtain ⟨_, _, _, underWay, _⟩ := placed.held entry
      exact decide_eq_true underWay.headed
    · rfl
  · rfl

/-- What a send on one connection brings about. -/
private theorem Placed.sent (placed : Placed answer service atomic loc) (here : loc fd = .held request result)
    (queue : sender.queue = service.sender.queue) (owner : sender.owner = service.sender.owner)
    (others : ∀ other, other ≠ fd →
      sender.bufs.lookup other = service.sender.bufs.lookup other ∧ sender.wire other = service.sender.wire other)
    (failures : ∀ other, other ∈ service.sender.failures → other ∈ sender.failures)
    (later : place = .held request result ∨ place = .whole request result ∨ place = .lost request result)
    (line : place.Line (sender.bufs.lookup fd) (sender.wire fd) (service.clients fd).heard (fd ∈ sender.failures))
    (turns : Turns sender) :
    Placed answer { service with sender := sender } atomic (Function.update loc fd place) := by
  have valid := placed.valid fd
  rw [here] at valid
  constructor
  case valid =>
    refine valid_update placed.valid ?_
    rcases later with rfl | rfl | rfl <;> exact valid
  case clients =>
    refine clients_same placed.clients ?_
    rw [here]
    rcases later with rfl | rfl | rfl <;> rfl
  case front =>
    refine placed.front.move (by rw [here]; rfl) ?_
    rcases later with rfl | rfl | rfl <;> rfl
  case cells =>
    refine cells_move placed.cells (by rw [here]; rfl) ?_
    rcases later with rfl | rfl | rfl <;> rfl
  case results =>
    rw [queue]
    refine placed.results.move (by rw [here]; rfl) ?_
    rcases later with rfl | rfl | rfl <;> rfl
  case lines =>
    refine update_forall (fun other place => place.Line (sender.bufs.lookup other) (sender.wire other)
      (service.clients other).heard (other ∈ sender.failures)) line fun other different => ?_
    rw [(others other different).1, (others other different).2]
    exact (placed.lines other).mono (failures other)
  case shared =>
    rw [owner]
    exact placed.shared
  case turns => exact turns
  case answers => exact placed.answers
  case pending =>
    refine pending_same placed.pending ?_
    rw [here]
    rcases later with rfl | rfl | rfl <;> rfl
  case index => exact placed.index

/-- One turn of the loop over `_res_bufs`. -/
theorem Placed.visit (placed : Placed answer service atomic loc) (place : service.sender.place = .visiting fd)
    (whole : service.sender.WholeHead outcome)
    (turns : Turns (service.sender.visitStep fd outcome next)) (alive : (service.sender.visitStep fd outcome next).place ≠ .crashed) :
    ∃ later, Placed answer { service with sender := service.sender.visitStep fd outcome next } atomic later := by
  unfold Sender.visitStep at turns alive ⊢
  split
  · rename_i work entry
    obtain ⟨request, result, here, underWay, wire⟩ := placed.held entry
    simp only [entry] at turns alive
    split
    · rename_i failed
      simp only [failed] at turns
      by_cases pipe : outcome = .pipe
      · simp only [if_pos pipe] at turns ⊢
        exact ⟨loc, placed.stay (Kept.refl _) rfl rfl rfl rfl placed.shared turns⟩
      · -- The send fails, and what was sent of the result is all that there will be.
        simp only [if_neg pipe] at turns ⊢
        refine ⟨_, placed.sent here rfl rfl ?_ ?_ (.inr (.inr rfl)) ?_ turns⟩
        · exact fun other different => ⟨OrderedMap.lookup_erase_other different, rfl⟩
        · exact fun other member => List.mem_append_left _ member
        · exact ⟨OrderedMap.lookup_erase_self, List.mem_append_right _ (List.mem_singleton.mpr rfl), work.sent, wire,
            underWay.incomplete⟩
    · rename_i sent ran
      simp only [ran] at turns
      obtain ⟨appended, ends⟩ := underWay.doSend (fun count => whole fd work count place entry) ran
      have wire' : service.sender.wire fd ++ sent.bytes = (service.clients fd).heard ++ sent.work.sent := by
        rw [wire, appended, List.append_assoc]
      have others {bufs : OrderedMap Int (Option KvWork)}
          (kept : ∀ other, other ≠ fd → bufs.lookup other = service.sender.bufs.lookup other) (other : Int) (different : other ≠ fd) :
          bufs.lookup other = service.sender.bufs.lookup other ∧
            Function.update service.sender.wire fd (service.sender.wire fd ++ sent.bytes) other = service.sender.wire other :=
        ⟨kept other different, Function.update_of_ne different ..⟩
      rcases ends with ⟨done, all, bytes⟩ | ⟨unfinished, later⟩
      · simp only [done, if_true] at turns ⊢
        refine ⟨_, placed.sent here (follow_queue _) (follow_owner _) ?_ (by simp) (.inr (.inl rfl)) ?_ turns⟩
        · rw [follow_bufs, follow_wire]
          exact others fun _ => OrderedMap.lookup_erase_other
        · rw [follow_bufs, follow_wire]
          rw [bytes] at wire'
          exact ⟨OrderedMap.lookup_erase_self, (Function.update_self ..).trans wire', all⟩
      · simp only [unfinished, Bool.false_eq_true, if_false] at turns ⊢
        refine ⟨_, placed.sent here (visit_queue _) (visit_owner _) ?_ (by simp) (.inl rfl) ?_ turns⟩
        · rw [visit_bufs, visit_wire]
          exact others fun _ => OrderedMap.lookup_assign_other
        · rw [visit_bufs, visit_wire]
          exact ⟨sent.work, OrderedMap.lookup_assign_self, later, (Function.update_self ..).trans wire'⟩
  · rename_i missing
    split at alive
    · rename_i work entry
      exact absurd entry (missing work)
    · exact absurd rfl alive

/-- The sender takes the first result of its queue. -/
theorem Placed.takeResult (placed : Placed answer service atomic loc) (inv : service.sender.Inv)
    (place : service.sender.place = .getting) {after : Sender}
    (takes : after = { service.sender with
      queue := (getWork service.sender.queue).2
      bufs := service.sender.bufs.assign (getWork service.sender.queue).1.1 (getWork service.sender.queue).1.2
      place := .unlocking }) (turns : Turns after) :
    ∃ later, Placed answer { service with sender := after } atomic later := by
  obtain ⟨entry, rest, queue⟩ := List.exists_cons_of_ne_nil (placed.turns.getting place)
  obtain ⟨request, here, _, wire⟩ := placed.first queue
  have unsent := (inv.queued entry (queue ▸ List.mem_cons_self)).2
  have valid := placed.valid entry.1
  rw [here] at valid
  obtain rfl : after = { service.sender with
      queue := rest, bufs := service.sender.bufs.assign entry.1 (some entry.2), place := .unlocking } := by
    rw [takes, queue]
    rfl
  refine ⟨Function.update loc entry.1 (.held request entry.2), ?_⟩
  constructor
  case valid => exact valid_update placed.valid valid.1
  case clients => exact clients_same placed.clients (by rw [here]; rfl)
  case front => exact placed.front.move (by rw [here]; rfl) rfl
  case cells => exact cells_move placed.cells (by rw [here]; rfl) rfl
  case results =>
    have results := placed.results
    rw [queue] at results
    exact Listed.tail results (by simp)
  case lines =>
    refine update_forall (fun other place => place.Line ((service.sender.bufs.assign entry.1 (some entry.2)).lookup other)
      (service.sender.wire other) (service.clients other).heard (other ∈ service.sender.failures)) ?_ fun other different => ?_
    · refine ⟨entry.2, OrderedMap.lookup_assign_self, UnderWay.start unsent, ?_⟩
      obtain ⟨head, first, second⟩ := unsent
      rw [wire, KvWork.sent, head, first, second, KvWork.fieldBytes_zero, KvWork.fieldBytes_zero]
      exact (List.append_nil _).symm
    · rw [OrderedMap.lookup_assign_other different]
      exact placed.lines other
  case shared => exact placed.shared
  case turns => exact turns
  case answers => exact placed.answers
  case pending => exact pending_same placed.pending (by rw [here]; rfl)
  case index => exact placed.index

/-- The sender goes on. -/
theorem Placed.senderStep (placed : Placed answer service atomic loc) (inv : service.sender.Inv)
    (whole : service.sender.WholeHead outcome) (stepped : Sender.step (.sender outcome next) service.sender = some sender)
    (alive : sender.place ≠ .crashed) : ∃ later, Placed answer { service with sender := sender } atomic later := by
  have turns := placed.turns.step (by nofun) alive stepped
  have stay {after : Sender} (queue : after.queue = service.sender.queue) (bufs : after.bufs = service.sender.bufs)
      (wire : after.wire = service.sender.wire) (failures : after.failures = service.sender.failures)
      (shared : Shared after.owner service.pool.resHolder service.pool.cells) (turns : Turns after) :
      ∃ later, Placed answer { service with sender := after } atomic later :=
    ⟨loc, placed.stay (Kept.refl _) queue bufs wire failures shared turns⟩
  have shared := placed.shared
  have holds := placed.turns.holds.mpr
  cases Sender.step_cases stepped with
  | @visit fd _ _ place => exact placed.visit place whole turns alive
  | lock place free =>
    rw [free] at shared
    exact stay rfl rfl rfl rfl shared turns
  | sleep place =>
    rw [holds (.inl place)] at shared
    exact stay rfl rfl rfl rfl shared turns
  | pass | find => exact stay rfl rfl rfl rfl shared turns
  | relock place free =>
    rw [free] at shared
    exact stay rfl rfl rfl rfl shared turns
  | crash => exact absurd rfl alive
  | take place => exact placed.takeResult inv place rfl turns
  | unlock place =>
    rw [holds (.inr (.inr place))] at shared
    refine stay (visit_queue _) (visit_bufs _) (visit_wire _) (visit_failures _) ?_ turns
    rw [visit_owner]
    exact shared

/-- A client hears the whole of its result, and nothing else. -/
theorem Placed.hear (placed : Placed answer service atomic loc) {heard : List UInt8}
    (waits : (service.clients fd).place = .waiting)
    (there : firstResult ((service.sender.wire fd).drop (service.clients fd).heard.length) = some heard) :
    ∃ after, AtomicService.Step answer drift atomic (.hear fd heard) after ∧ Placed answer { service with
      clients := Function.update service.clients fd ⟨.idle, (service.clients fd).heard ++ heard⟩ } after
      (Function.update loc fd .idle) := by
  have line := placed.lines fd
  have nothing (same : service.sender.wire fd = (service.clients fd).heard) : False := by
    rw [same, List.drop_length] at there
    cases there
  cases here : loc fd with
  | idle =>
    have client := placed.clients fd
    rw [here, waits] at client
    cases client
  | sending | ahead | polled | queued | taken | owed | put =>
    rw [here] at line
    exact (nothing line.2).elim
  | held request result =>
    rw [here] at line
    obtain ⟨work, _, underWay, wire⟩ := line
    rw [wire, List.drop_left, underWay.incomplete] at there
    cases there
  | lost request result =>
    rw [here] at line
    obtain ⟨_, _, rest, wire, part⟩ := line
    rw [wire, List.drop_left, part] at there
    cases there
  | whole request result =>
    rw [here] at line
    obtain ⟨entry, wire, all⟩ := line
    rw [wire, List.drop_left, all] at there
    obtain rfl := Option.some.inj there
    have ran : atomic.pending fd = some (request, some result) := by
      rw [placed.pending, here]
      rfl
    refine ⟨_, .hear ran, ?_⟩
    constructor
    case valid => exact valid_update placed.valid trivial
    case clients => exact clients_update placed.clients .idle _
    case front => exact placed.front.move (by rw [here]; rfl) rfl
    case cells => exact cells_move placed.cells (by rw [here]; rfl) rfl
    case results => exact placed.results.move (by rw [here]; rfl) rfl
    case lines =>
      refine update_forall (fun other place => place.Line (service.sender.bufs.lookup other) (service.sender.wire other)
        (Function.update service.clients fd ⟨.idle, (service.clients fd).heard ++ result.bytes⟩ other).heard
        (other ∈ service.sender.failures)) ?_ fun other different => ?_
      · rw [Function.update_self]
        exact ⟨entry, wire⟩
      · rw [Function.update_of_ne different]
        exact placed.lines other
    case shared => exact placed.shared
    case turns => exact placed.turns
    case answers => exact placed.answers
    case pending => exact pending_update placed.pending .idle
    case index => exact placed.index

end Sending

/-- An index drifts. -/
theorem Placed.drifts (placed : Placed answer service atomic loc) (number : Fin workers) (index : σ) :
    Placed answer { service with pool := service.pool.setCell number { service.pool.cells number with
      run := { (service.pool.cells number).run with index := index } } }
      { atomic with index := Function.update atomic.index number index } loc := by
  constructor
  case valid => exact placed.valid
  case clients => exact placed.clients
  case front => exact placed.front
  case cells =>
    obtain ⟨requests, job, cellar⟩ := placed.cells number
    exact cells_setCell ⟨requests, job, cellar.congr rfl cellar.does⟩ fun other _ => placed.cells other
  case results => exact placed.results
  case lines => exact placed.lines
  case shared => exact placed.shared.cell (.inl rfl)
  case turns => exact placed.turns
  case answers => exact answers_setCell placed.answers rfl
  case pending => exact placed.pending
  case index =>
    intro other
    by_cases same : other = number
    · subst same
      rw [Pool.setCell_self]
      exact Function.update_self ..
    · rw [Pool.setCell_other same, ← placed.index other]
      exact Function.update_of_ne same ..

private theorem drift_inv {requests : List (Request fileCount workers)} (inv : Pool.Inv requests pool)
    (number : Fin workers) (index : σ) : Pool.Inv requests (pool.setCell number { pool.cells number with
      run := { (pool.cells number).run with index := index } }) := by
  obtain ⟨byPoller, byWorker, byResults, wake⟩ := inv.locks number
  refine inv.ofCell ⟨byPoller, byWorker, byResults, wake⟩ fun read answered balanced => ?_
  obtain ⟨ran, taken, queued, owing, flow, owed, queue, calls, place⟩ := balanced
  exact ⟨ran, taken, queued, owing, flow, owed, queue, calls, place⟩

/-- One more request comes in. -/
private theorem arrive_inv {requests : List (Request fileCount workers)} (inv : Pool.Inv requests pool)
    (request : Request fileCount workers) : Pool.Inv (requests ++ [request]) { pool with ahead := pool.ahead ++ [request] } := by
  obtain ⟨read, answered, split, books⟩ := inv.books
  exact ⟨inv.locks, read, answered, by rw [split, List.append_assoc], books⟩

theorem start_stands (answer : Fin workers → IndexCall → σ → IndexAnswer × σ) (index : Fin workers → σ) (behind : Mem) :
    Stands answer (start answer index behind : Service fileCount workers σ) (AtomicService.start index) := by
  refine ⟨⟨fun _ => .idle, ?_⟩, ⟨[], Pool.start_inv [] answer index⟩, Sender.start_inv behind⟩
  constructor
  case valid => exact fun _ => trivial
  case clients => exact fun _ => rfl
  case front => exact ⟨.empty fun _ => nofun, .empty fun _ => nofun⟩
  case cells =>
    intro number
    exact ⟨[], .free, rfl, .empty (by simp), trivial, .empty (by simp), .empty (by simp)⟩
  case results => exact Listed.empty (by simp)
  case lines => exact fun _ => ⟨OrderedMap.lookup_empty _, rfl⟩
  case shared => exact rfl
  case turns => exact start_turns behind
  case answers => exact fun _ => rfl
  case pending => exact fun _ => rfl
  case index => exact fun _ => rfl

/-- Each step of the service is one of the atomic service with the same event. -/
theorem simulates : Simulates (Step drift) (AtomicService.Step answer drift : AtomicService fileCount workers σ → _ → _ → Prop)
    (Stands answer) := by
  intro service atomic event after stands step
  obtain ⟨⟨loc, placed⟩, ⟨requests, inv⟩, sends⟩ := stands
  cases step with
  | @ask request idle =>
    have here := client_idle ((placed.clients request.fd).symm.trans idle)
    have unasked : atomic.pending request.fd = none := by
      rw [placed.pending, here]
      rfl
    exact ⟨_, .ask unasked, ⟨_, placed.ask idle⟩, ⟨requests, inv⟩, sends⟩
  | arrive _ sending => exact ⟨_, .silent, ⟨_, placed.arrive sending⟩, ⟨_, arrive_inv inv _⟩, sends⟩
  | poller _ stepped => exact ⟨_, .silent, placed.pollerStep stepped, ⟨requests, Pool.pollerStep_inv inv stepped⟩, sends⟩
  | wake _ stepped => exact ⟨_, .wake, ⟨_, placed.wake stepped⟩, ⟨requests, Pool.step_inv inv stepped⟩, sends⟩
  | worker _ apart stepped =>
    exact ⟨_, .silent, placed.workerStep apart stepped, ⟨requests, Pool.workerStep_inv inv stepped⟩, sends⟩
  | run _ place stepped =>
    obtain ⟨result, run, shown, later, operated, ran, stood⟩ := placed.operate place
    have inv' := Pool.workerStep_inv inv stepped
    simp only [Pool.workerStep, place, operated] at stepped
    obtain rfl := Option.some.inj stepped
    exact ⟨shown, ran, ⟨_, stood⟩, ⟨requests, inv'⟩, sends⟩
  | lock place stepped locked =>
    have sends' := Sender.step_inv sends rfl locked
    exact ⟨_, .silent, ⟨_, placed.lock place stepped locked sends'.alive⟩, ⟨requests, Pool.workerStep_inv inv stepped⟩, sends'⟩
  | pass place stepped passed =>
    have sends' := Sender.step_inv sends rfl passed
    exact ⟨_, .silent, placed.pass ((inv.locks _).byResults.mpr place) stepped passed sends'.alive,
      ⟨requests, Pool.workerStep_inv inv stepped⟩, sends'⟩
  | sender whole stepped =>
    have sends' := Sender.step_inv sends placed.orderly stepped
    exact ⟨_, .silent, placed.senderStep sends whole stepped sends'.alive, ⟨requests, inv⟩, sends'⟩
  | die whole stepped =>
    have sends' := Sender.step_inv sends placed.orderly stepped
    exact ⟨_, .die, placed.senderStep sends whole stepped sends'.alive, ⟨requests, inv⟩, sends'⟩
  | hear waits there =>
    obtain ⟨shown, heard, stood⟩ := placed.hear waits there
    exact ⟨shown, heard, ⟨_, stood⟩, ⟨requests, inv⟩, sends⟩
  | @drift number index _ drifts =>
    have drifts' : drift (atomic.index number) index := (placed.index number).symm ▸ drifts
    exact ⟨_, .drift drifts', ⟨_, placed.drifts number index⟩, ⟨requests, drift_inv inv number index⟩, sends⟩

/-- Only a step that shows it ends the process. -/
theorem Step.running {event : Event fileCount workers} {after : Service fileCount workers σ} (step : Step drift service event after)
    (quiet : event ≠ .die) (running : service.sender.place ≠ .killed) : after.sender.place ≠ .killed := by
  cases step with
  | ask | arrive | poller | wake | worker | run | hear | drift => exact running
  | lock _ _ locked =>
    cases Sender.step_cases locked with
    | put => exact running
  | pass _ _ passed =>
    cases Sender.step_cases passed with
    | enqueue | leave => exact running
    | signal =>
      simp only
      split
      · exact Sender.Place.noConfusion
      · exact running
  | sender _ _ stays => exact stays
  | die => exact absurd rfl quiet

/-- The result of a get for a key that is absent. -/
def nothing : Result := ⟨6, bareResult WorkFlag.suc, Pool.oneGet.connected, rfl, rfl, rfl⟩

/-- A get on its way to the worker, and its result on the way back. -/
def oneGetEvents : List (Event 1 1) :=
  .ask Pool.oneGet :: List.replicate 9 .silent ++ .run 6 Pool.oneGet.work :: (List.replicate 9 .silent ++
    .hear 6 nothing.work.bytes :: List.replicate 4 .silent)

/-- The get is answered, and then everybody waits. The steps may be those of a relation that asks
more of the step that runs it. -/
theorem oneGet_trace {answer : Fin 1 → IndexCall → σ → IndexAnswer × σ} {index : Fin 1 → σ} {behind : Mem}
    {steps : Service 1 1 σ → Event 1 1 → Service 1 1 σ → Prop} (absent : (answer 0 Pool.oneGet.call (index 0)).1 = ⟨0, none⟩)
    (quiet : ∀ {before event after}, (∀ fd req, event ≠ .run fd req) → Step drift before event after → steps before event after)
    (runs : ∀ {before after}, (before.pool.cells 0).run.index = index 0 →
      Step drift before (.run 6 Pool.oneGet.work) after → steps before (.run 6 Pool.oneGet.work) after) :
    ∃ final, Trace steps (start answer index behind) oneGetEvents final ∧ (∀ fd, (final.clients fd).place = .idle) ∧
      final.pool.pollerStep = none ∧ (final.pool.cells 0).place = .asleep ∧ final.sender.place = .asleep := by
  have goes {before mid : Service 1 1 σ} {event : Event 1 1} {events : List (Event 1 1)} {good : Service 1 1 σ → Prop}
      (first : steps before event mid) :
      (∃ final, Trace steps mid events final ∧ good final) → ∃ final, Trace steps before (event :: events) final ∧ good final := by
    rintro ⟨final, rest, holds⟩
    exact ⟨final, .next first rest, holds⟩
  have silent {before mid : Service 1 1 σ} {events : List (Event 1 1)} {good : Service 1 1 σ → Prop}
      (first : Step drift before .silent mid) :
      (∃ final, Trace steps mid events final ∧ good final) → ∃ final, Trace steps before (.silent :: events) final ∧ good final :=
    goes (quiet (by rintro _ _ ⟨⟩) first)
  have poller {before : Service 1 1 σ} {pool : Pool 1 1 σ} := @Step.poller 1 1 σ drift before pool
  have worker {before : Service 1 1 σ} {pool : Pool 1 1 σ} := @Step.worker 1 1 σ drift before 0 pool
  have pass {before : Service 1 1 σ} {pool : Pool 1 1 σ} {sender : Sender} := @Step.pass 1 1 σ drift before 0 pool sender
  have again {before : Service 1 1 σ} {sender : Sender} :=
    @Step.sender 1 1 σ drift before .again none sender before.sender.wholeHead_again
  have whole (sender : Sender) : sender.WholeHead (.accepted 6) := by
    rintro _ _ _ _ _ _ ⟨⟩
    decide
  have operates {pool : Pool 1 1 σ} (place : (pool.cells 0).place = .operating 6 Pool.oneGet.work)
      (run : (pool.cells 0).run = ⟨answer 0, index 0, []⟩) : pool.workerStep 0 = some (pool.setCell 0 { pool.cells 0 with
        run := ⟨answer 0, (answer 0 Pool.oneGet.call (index 0)).2, [Pool.oneGet.call]⟩, place := .answering 6 nothing.work }) := by
    have operated := operate_run Pool.oneGet.stands (pool.cells 0).run
    rw [run] at operated
    change operate Pool.oneGet.work _ = (.ok (resultOf .get (answer 0 Pool.oneGet.call (index 0)).1), _) at operated
    rw [absent] at operated
    simp only [Pool.workerStep, place, run, operated]
    rfl
  refine goes (quiet (by rintro _ _ ⟨⟩) (.ask rfl)) ?_
  -- The poller reads the request and puts it on the queue of the worker.
  refine silent (@Step.arrive 1 1 σ _ _ 6 Pool.oneGet rfl rfl) ?_
  refine silent (poller rfl rfl) <| silent (poller rfl rfl) <| silent (poller rfl rfl) ?_
  refine silent (poller rfl rfl) <| silent (poller rfl rfl) ?_
  -- The worker takes it and runs it.
  refine silent (worker rfl trivial rfl) <| silent (worker rfl trivial rfl) <| silent (worker rfl trivial rfl) ?_
  refine goes (runs rfl (.run rfl rfl (operates rfl rfl))) ?_
  -- It puts the result on the queue of the sender.
  refine silent (@Step.lock 1 1 σ _ _ 0 _ _ nothing rfl rfl rfl) ?_
  refine silent (pass trivial rfl rfl) <| silent (pass trivial rfl rfl) <| silent (pass trivial rfl rfl) ?_
  -- The sender takes it and sends it.
  refine silent (again rfl nofun) <| silent (again rfl nofun) <| silent (again rfl nofun) <| silent (again rfl nofun) ?_
  refine silent (@Step.sender 1 1 σ _ _ (.accepted 6) none _ (whole _) rfl nofun) ?_
  refine goes (quiet (by rintro _ _ ⟨⟩) (.hear rfl rfl)) ?_
  -- Both go to sleep.
  refine silent (worker rfl trivial rfl) <| silent (worker rfl trivial rfl) ?_
  refine silent (again rfl nofun) <| silent (again rfl nofun) ⟨_, .done _, fun fd => ?_, rfl, rfl, rfl⟩
  by_cases own : fd = 6
  · subst own
    rfl
  · have apart (clients : Int → Client 1 1) (client : Client 1 1) : Function.update clients 6 client fd = clients fd :=
      Function.update_of_ne own ..
    exact congrArg Client.place ((apart _ _).trans ((apart _ _).trans (apart _ _)))

/-- An index without any key. -/
def missing : Fin 1 → IndexCall → Unit → IndexAnswer × Unit := fun _ _ index => (⟨0, none⟩, index)

end Service

end Pingkv
