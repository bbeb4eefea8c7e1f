import Pingkv.Lib.Listed
import Pingkv.Server.Service
import Pingkv.Server.Stored

/-! Where the request of each connection is, or its result: a connection has at most
one of them under way, so there is one place for it at any time. -/

namespace Pingkv

namespace Service

variable {fileCount : Int} {workers : Nat} {σ : Type}

/-- The places a request passes, from its client to the queue of its worker, and those its
result passes back. A result is `lost` when a send on its connection failed. -/
inductive Loc (fileCount : Int) (workers : Nat) where
  | idle
  | sending (request : Request fileCount workers)
  | ahead (request : Request fileCount workers)
  | polled (request : Request fileCount workers)
  | queued (request : Request fileCount workers)
  | taken (request : Request fileCount workers)
  | owed (request : Request fileCount workers) (result : KvWork)
  | put (request : Request fileCount workers) (result : KvWork)
  | held (request : Request fileCount workers) (result : KvWork)
  | whole (request : Request fileCount workers) (result : KvWork)
  | lost (request : Request fileCount workers) (result : KvWork)

/-- A result whose fields are there as far as their lengths say, with some of it sent. -/
structure UnderWay (result work : KvWork) : Prop where
  progress : KvWork.Progress result work
  unfinished : ¬ work.Complete
  headed : ¬ work.HeadUnderWay
  backed1 : work.field1Offset ≠ 0 → work.field1.isSome
  backed2 : work.field2Offset ≠ 0 → work.field2.isSome

namespace Loc

/-- What the atomic service has of the connection. -/
def pending : Loc fileCount workers → Option (Request fileCount workers × Option KvWork)
  | idle => none
  | sending request | ahead request | polled request | queued request | taken request => some (request, none)
  | owed request result | put request result | held request result | whole request result | lost request result =>
    some (request, some result)

/-- What the client of the connection does. -/
def client : Loc fileCount workers → ClientPlace fileCount workers
  | idle => .idle
  | sending request => .sending request
  | _ => .waiting

/-- The worker whose queue or whose hands it is in. -/
def cell : Loc fileCount workers → Option (Fin workers)
  | queued request | taken request | owed request _ => some request.queue
  | _ => none

/-- The place belongs to this connection. -/
def Valid (fd : Int) : Loc fileCount workers → Prop
  | idle => True
  | sending request | ahead request | polled request | queued request | taken request => request.fd = fd
  | owed request result | put request result => request.fd = fd ∧ result.Unsent
  | held request _ | whole request _ | lost request _ => request.fd = fd

/-- What the sender holds of the connection, what it has sent on it, what the client has heard,
and whether a send has failed. -/
def Line (place : Loc fileCount workers) (entry : Option (Option KvWork)) (wire heard : List UInt8) (failed : Prop) : Prop :=
  match place with
  | held _ result => ∃ work, entry = some (some work) ∧ UnderWay result work ∧ wire = heard ++ work.sent
  | whole _ result => entry = none ∧ wire = heard ++ result.bytes ∧ firstResult result.bytes = some result.bytes
  | lost _ _ => entry = none ∧ failed ∧ ∃ rest, wire = heard ++ rest ∧ firstResult rest = none
  | _ => entry = none ∧ wire = heard

theorem Line.mono {place : Loc fileCount workers} {entry : Option (Option KvWork)} {wire heard : List UInt8}
    {failed later : Prop} (line : place.Line entry wire heard failed) (still : failed → later) :
    place.Line entry wire heard later := by
  cases place with
  | lost =>
    obtain ⟨none, fails, rest⟩ := line
    exact ⟨none, still fails, rest⟩
  | _ => exact line

end Loc

/-- The work a worker has taken up. -/
inductive Job (fileCount : Int) (workers : Nat) where
  | free
  | taken (request : Request fileCount workers)
  | owed (request : Request fileCount workers) (result : KvWork)

def Job.requests : Job fileCount workers → List (Request fileCount workers)
  | taken request => [request]
  | _ => []

def Job.results : Job fileCount workers → List (Request fileCount workers × KvWork)
  | owed request result => [(request, result)]
  | _ => []

/-- A worker at this place has this to do. -/
def Job.At : Job fileCount workers → Pool.WorkerPlace → Prop
  | taken request, .unlocking fd req => fd = request.fd ∧ req = some request.work
  | taken request, .operating fd req => fd = request.fd ∧ req = request.work
  | owed request result, .answering fd res | owed request result, .putting fd res => fd = request.fd ∧ res = result
  | free, .locking | free, .testing | free, .asleep | free, .woken | free, .signalling | free, .leaving => True
  | _, _ => False

/-- The requests on the way to the queues: those to be completed, and the one the poller has. -/
structure Front (loc : Int → Loc fileCount workers) (ahead : List (Request fileCount workers))
    (poller : Pool.PollerPlace fileCount workers) : Prop where
  coming : Listed loc Request.fd (fun request place => place = .ahead request) ahead
  polled : Listed loc Request.fd (fun request place => place = .polled request) poller.unput

/-- The requests of one worker, and what it has taken up. -/
structure Cellar (loc : Int → Loc fileCount workers) (number : Fin workers) (cell : Pool.Cell σ)
    (requests : List (Request fileCount workers)) (job : Job fileCount workers) : Prop where
  queue : cell.queue = requests.map Request.entry
  queued : Listed loc Request.fd (fun request place => request.queue = number ∧ place = .queued request) requests
  does : job.At cell.place
  taken : Listed loc Request.fd (fun request place => request.queue = number ∧ place = .taken request) job.requests
  owed : Listed loc (fun item => item.1.fd) (fun item place => item.1.queue = number ∧ place = .owed item.1 item.2)
    job.results

/-- The results on the queue of the sender. -/
def Results (loc : Int → Loc fileCount workers) (queue : List (Int × KvWork)) : Prop :=
  Listed loc Prod.fst (fun entry place => ∃ request, place = .put request entry.2) queue

/-- Workers and sender agree on who holds the queue of results. -/
def Shared (owner : Option Sender.Owner) (resHolder : Option (Fin workers)) (cells : Fin workers → Pool.Cell σ) : Prop :=
  match owner with
  | none | some .sender => resHolder = none
  | some (.putting result) => ∃ number, resHolder = some number ∧ (cells number).place = .putting result.fd result.work
  | some .signalling => ∃ number, resHolder = some number ∧ (cells number).place = .signalling
  | some .leaving => ∃ number, resHolder = some number ∧ (cells number).place = .leaving

/-- The sender holds the lock where its code does, waits only for something to come, and is
woken only when there is something on its queue. -/
structure Turns (sender : Sender) : Prop where
  holds : sender.owner = some .sender ↔ sender.place = .testing ∨ sender.place = .getting ∨ sender.place = .unlocking
  getting : sender.place = .getting → sender.queue ≠ []
  woken : sender.place = .woken → sender.queue ≠ []
  signals : sender.owner = some .signalling → sender.queue ≠ []
  asleep : sender.place = .asleep → sender.bufs.entries = [] ∧ (sender.queue ≠ [] → sender.owner = some .signalling)

/-- Where everything is. -/
structure Placed (answer : Fin workers → IndexCall → σ → IndexAnswer × σ) (service : Service fileCount workers σ)
    (atomic : AtomicService fileCount workers σ) (loc : Int → Loc fileCount workers) : Prop where
  valid : ∀ fd, (loc fd).Valid fd
  clients : ∀ fd, (service.clients fd).place = (loc fd).client
  front : Front loc service.pool.ahead service.pool.poller
  cells : ∀ number, ∃ requests job, Cellar loc number (service.pool.cells number) requests job
  results : Results loc service.sender.queue
  lines : ∀ fd, (loc fd).Line (service.sender.bufs.lookup fd) (service.sender.wire fd) (service.clients fd).heard
    (fd ∈ service.sender.failures)
  shared : Shared service.sender.owner service.pool.resHolder service.pool.cells
  turns : Turns service.sender
  answers : ∀ number, (service.pool.cells number).run.answer = answer number
  pending : ∀ fd, atomic.pending fd = (loc fd).pending
  index : ∀ number, atomic.index number = (service.pool.cells number).run.index

/-- A service that the atomic one stands for. -/
def Stands (answer : Fin workers → IndexCall → σ → IndexAnswer × σ) (service : Service fileCount workers σ)
    (atomic : AtomicService fileCount workers σ) : Prop :=
  (∃ loc, Placed answer service atomic loc) ∧ (∃ requests, Pool.Inv requests service.pool) ∧ service.sender.Inv

variable {answer : Fin workers → IndexCall → σ → IndexAnswer × σ} {service : Service fileCount workers σ}
  {atomic : AtomicService fileCount workers σ} {loc : Int → Loc fileCount workers} {fd other : Int}
  {place later : Loc fileCount workers} {request : Request fileCount workers} {number : Fin workers}

/-- A place on the way to the queues. -/
def Loc.inFront : Loc fileCount workers → Bool
  | ahead _ | polled _ => true
  | _ => false

/-- A place on the queue of results. -/
def Loc.onQueue : Loc fileCount workers → Bool
  | put _ _ => true
  | _ => false

variable {ahead requests : List (Request fileCount workers)} {poller : Pool.PollerPlace fileCount workers}
  {cell : Pool.Cell σ} {job : Job fileCount workers} {queue : List (Int × KvWork)}

theorem Front.move (front : Front loc ahead poller) (old : (loc fd).inFront = false) (new : place.inFront = false) :
    Front (Function.update loc fd place) ahead poller := by
  refine ⟨front.coming.move (fun _ same => ?_) fun _ same => ?_, front.polled.move (fun _ same => ?_) fun _ same => ?_⟩
  · simp [same, Loc.inFront] at old
  · simp [same, Loc.inFront] at new
  · simp [same, Loc.inFront] at old
  · simp [same, Loc.inFront] at new

theorem Cellar.move (cellar : Cellar loc number cell requests job) (old : (loc fd).cell ≠ some number)
    (new : place.cell ≠ some number) : Cellar (Function.update loc fd place) number cell requests job := by
  have apart {place later : Loc fileCount workers} {request : Request fileCount workers} (other : place.cell ≠ some number)
      (own : later.cell = some request.queue) : ¬ (request.queue = number ∧ place = later) := by
    rintro ⟨rfl, rfl⟩
    exact other own
  constructor
  case queue => exact cellar.queue
  case queued => exact cellar.queued.move (fun _ => apart old rfl) fun _ => apart new rfl
  case does => exact cellar.does
  case taken => exact cellar.taken.move (fun _ => apart old rfl) fun _ => apart new rfl
  case owed => exact cellar.owed.move (fun _ => apart old rfl) fun _ => apart new rfl

theorem Results.move (results : Results loc queue) (old : (loc fd).onQueue = false) (new : place.onQueue = false) :
    Results (Function.update loc fd place) queue := by
  refine Listed.move results ?_ ?_
  · rintro entry ⟨request, same⟩
    simp [same, Loc.onQueue] at old
  · rintro entry ⟨request, rfl⟩
    cases new

/-- A worker that has nothing to do where it stands can stand where that is so. -/
theorem Job.At.idle {earlier later : Pool.WorkerPlace} (does : job.At earlier)
    (before : (free : Job fileCount workers).At earlier) (after : (free : Job fileCount workers).At later) :
    job.At later := by
  cases job with
  | free => exact after
  | taken | owed => cases earlier <;> first | exact does.elim | exact before.elim

/-- Only what a worker has queued and what it has to do matters of its cell. -/
theorem Cellar.congr {after : Pool.Cell σ} (cellar : Cellar loc number cell requests job) (same : after.queue = cell.queue)
    (does : job.At after.place) : Cellar loc number after requests job :=
  ⟨same.trans cellar.queue, cellar.queued, does, cellar.taken, cellar.owed⟩

/-- The poller puts a request on the queue of its worker. -/
theorem Cellar.enqueue (cellar : Cellar loc request.queue cell requests job) (here : loc request.fd = .polled request) :
    Cellar (Function.update loc request.fd (.queued request)) request.queue
      { cell with queue := cell.queue ++ [request.entry] } (requests ++ [request]) job := by
  constructor
  case queue =>
    rw [List.map_append, ← cellar.queue]
    rfl
  case queued =>
    refine cellar.queued.append (by simp [here]) fun other _ => ⟨fun same => (Loc.queued.inj same.2).symm, ?_⟩
    rintro rfl
    exact ⟨rfl, rfl⟩
  case does => exact cellar.does
  case taken => exact cellar.taken.move (by simp [here]) (by simp)
  case owed => exact cellar.owed.move (by simp [here]) (by simp)

/-- A worker takes the first request of its queue. -/
theorem Cellar.take (cellar : Cellar loc number cell (request :: requests) .free) :
    Cellar (Function.update loc request.fd (.taken request)) number
      { cell with queue := requests.map Request.entry, place := .unlocking request.fd (some request.work) } requests
      (.taken request) := by
  obtain ⟨own, here⟩ := cellar.queued.here
  constructor
  case queue => rfl
  case queued => exact cellar.queued.tail (by simp)
  case does => exact ⟨rfl, rfl⟩
  case taken =>
    refine show Listed _ _ _ ([] ++ [request]) from cellar.taken.append (by simp [here]) fun other _ =>
      ⟨fun same => (Loc.taken.inj same.2).symm, ?_⟩
    rintro rfl
    exact ⟨own, rfl⟩
  case owed => exact cellar.owed.move (by simp [here]) (by simp)

/-- A worker has run the request it took. -/
theorem Cellar.operate {run : IndexRun σ} (cellar : Cellar loc number cell requests (.taken request)) (result : KvWork) :
    Cellar (Function.update loc request.fd (.owed request result)) number
      { cell with run := run, place := .answering request.fd result } requests (.owed request result) := by
  obtain ⟨own, here⟩ := cellar.taken.here
  constructor
  case queue => exact cellar.queue
  case queued => exact cellar.queued.move (by simp [here]) (by simp)
  case does => exact ⟨rfl, rfl⟩
  case taken => exact cellar.taken.tail (by simp)
  case owed =>
    refine show Listed _ _ _ ([] ++ [(request, result)]) from cellar.owed.append (by simp [here]) fun other same =>
      ⟨fun same => ?_, ?_⟩
    · obtain ⟨first, second⟩ := Loc.owed.inj same.2
      exact Prod.ext first.symm second.symm
    · rintro rfl
      exact ⟨own, rfl⟩

/-- A worker has put the result it owed. -/
theorem Cellar.deliver {result : KvWork} (cellar : Cellar loc number cell requests (.owed request result)) :
    Cellar (Function.update loc request.fd (.put request result)) number { cell with place := .signalling } requests .free := by
  obtain ⟨own, here⟩ := cellar.owed.here
  constructor
  case queue => exact cellar.queue
  case queued => exact cellar.queued.move (by simp [here]) (by simp)
  case does => trivial
  case taken => exact cellar.taken.move (by simp [here]) (by simp)
  case owed => exact cellar.owed.tail (by simp)

/-- What every worker has after one cell has changed. -/
theorem cells_setCell {pool : Pool fileCount workers σ} (here : ∃ requests job, Cellar loc number cell requests job)
    (others : ∀ other, other ≠ number → ∃ requests job, Cellar loc other (pool.cells other) requests job) :
    ∀ other, ∃ requests job, Cellar loc other ((pool.setCell number cell).cells other) requests job :=
  (Function.forall_update_iff pool.cells fun other cell => ∃ requests job, Cellar loc other cell requests job).mpr ⟨here, others⟩

/-- A property of every place after one has changed. -/
theorem update_forall (good : Int → Loc fileCount workers → Prop) (here : good fd place)
    (others : ∀ other, other ≠ fd → good other (loc other)) : ∀ other, good other (Function.update loc fd place other) :=
  (Function.forall_update_iff loc good).mpr ⟨here, others⟩

section Turns

variable {sender after : Sender}

theorem start_turns (behind : Mem) : Turns (Sender.start behind) := by
  constructor <;> simp [Sender.start]

@[simp] theorem visit_queue (next : Option Int) : (sender.visit next).queue = sender.queue := by cases next <;> rfl

@[simp] theorem visit_owner (next : Option Int) : (sender.visit next).owner = sender.owner := by cases next <;> rfl

@[simp] theorem visit_bufs (next : Option Int) : (sender.visit next).bufs = sender.bufs := by cases next <;> rfl

@[simp] theorem visit_wire (next : Option Int) : (sender.visit next).wire = sender.wire := by cases next <;> rfl

@[simp] theorem visit_failures (next : Option Int) : (sender.visit next).failures = sender.failures := by cases next <;> rfl

@[simp] theorem follow_queue (next : Option Int) : (sender.follow next).queue = sender.queue := by cases next <;> rfl

@[simp] theorem follow_owner (next : Option Int) : (sender.follow next).owner = sender.owner := by cases next <;> rfl

@[simp] theorem follow_bufs (next : Option Int) : (sender.follow next).bufs = sender.bufs := by cases next <;> rfl

@[simp] theorem follow_wire (next : Option Int) : (sender.follow next).wire = sender.wire := by cases next <;> rfl

@[simp] theorem follow_failures (next : Option Int) : (sender.follow next).failures = sender.failures := by cases next <;> rfl

/-- The loop over `_res_bufs` runs without the lock. -/
private theorem Turns.visit (unheld : sender.owner ≠ some .sender) (signals : sender.owner = some .signalling → sender.queue ≠ [])
    (next : Option Int) : Turns (sender.visit next) := by
  cases next <;> exact ⟨iff_of_false unheld (by simp [Sender.visit]), nofun, nofun, signals, nofun⟩

/-- Wherever it leads, or to the end of the process. -/
private theorem Turns.follow (unheld : sender.owner ≠ some .sender)
    (signals : sender.owner = some .signalling → sender.queue ≠ []) (next : Option Int) : Turns (sender.follow next) := by
  cases next with
  | none => exact ⟨iff_of_false unheld (by simp [Sender.follow]), by simp [Sender.follow], by simp [Sender.follow], signals,
      by simp [Sender.follow]⟩
  | some fd =>
    rw [Sender.follow]
    split <;> exact ⟨iff_of_false unheld (by simp), by simp, by simp, signals, by simp⟩

/-- A sender that is woken by signals only, and does not crash, keeps its turns. -/
theorem Turns.step {act : Sender.Act} (turns : Turns sender) (signalled : act ≠ .spurious) (alive : after.place ≠ .crashed)
    (stepped : Sender.step act sender = some after) : Turns after := by
  cases Sender.step_cases stepped with
  | put result free =>
    have holds := turns.holds
    have asleep := turns.asleep
    rw [free] at holds asleep
    refine ⟨iff_of_false nofun (fun held => nomatch holds.mpr held), turns.getting, turns.woken, nofun, fun place => ?_⟩
    exact ⟨(asleep place).1, fun there => nomatch (asleep place).2 there⟩
  | enqueue owner =>
    have holds := turns.holds
    rw [owner] at holds
    have queue {entry : Int × KvWork} : sender.queue ++ [entry] ≠ [] := by simp
    refine ⟨iff_of_false nofun (fun held => nomatch holds.mpr held), fun _ => queue, fun _ => queue, fun _ => queue, ?_⟩
    exact fun place => ⟨(turns.asleep place).1, fun _ => rfl⟩
  | signal owner =>
    have holds := turns.holds
    have there := turns.signals owner
    rw [owner] at holds
    have outside : ¬ (sender.place = .testing ∨ sender.place = .getting ∨ sender.place = .unlocking) :=
      fun held => nomatch holds.mpr held
    by_cases asleep : sender.place = .asleep
    · rw [if_pos asleep]
      exact ⟨iff_of_false nofun (by simp), nofun, fun _ => there, nofun, nofun⟩
    · rw [if_neg asleep]
      exact ⟨iff_of_false nofun outside, turns.getting, turns.woken, nofun, fun place => absurd place asleep⟩
  | leave owner =>
    have holds := turns.holds
    have asleep := turns.asleep
    rw [owner] at holds asleep
    refine ⟨iff_of_false nofun (fun held => nomatch holds.mpr held), turns.getting, turns.woken, nofun, fun place => ?_⟩
    exact ⟨(asleep place).1, fun there => nomatch (asleep place).2 there⟩
  | wake => exact absurd rfl signalled
  | @visit fd outcome next place =>
    have unheld : sender.owner ≠ some .sender := fun held => by
      have inside := turns.holds.mp held
      simp [place] at inside
    unfold Sender.visitStep at alive ⊢
    split
    · split
      · split <;> exact ⟨iff_of_false unheld (by simp), nofun, nofun, turns.signals, nofun⟩
      · simp only
        split
        · apply Turns.follow
          · exact unheld
          · exact turns.signals
        · apply Turns.visit
          · exact unheld
          · exact turns.signals
    · rename_i other
      split at alive
      · rename_i work held
        exact absurd held (other work)
      · exact absurd rfl alive
  | lock => exact ⟨by simp, nofun, nofun, nofun, nofun⟩
  | sleep place empty idle => exact ⟨by simp, nofun, nofun, nofun, fun _ => ⟨idle, fun there => absurd empty there⟩⟩
  | pass place =>
    have held := turns.holds.mpr (.inl place)
    exact ⟨by simp [held], nofun, nofun, by simp [held], nofun⟩
  | find place results =>
    have held := turns.holds.mpr (.inl place)
    exact ⟨by simp [held], fun _ => results, nofun, by simp [held], nofun⟩
  | relock place => exact ⟨by simp, fun _ => turns.woken place, nofun, nofun, nofun⟩
  | crash => exact absurd rfl alive
  | take place =>
    have held := turns.holds.mpr (.inr (.inl place))
    exact ⟨by simp [held], nofun, nofun, by simp [held], nofun⟩
  | unlock =>
    apply Turns.visit
    · exact nofun
    · exact nofun

end Turns

section Sending

variable {result work : KvWork} {behind : Mem} {outcome : SendOutcome} {sent : Sent}

theorem fieldBytes_length {field : Option Buf} {len : Nat} (backed : len ≠ 0 → field.isSome) :
    (fieldBytes field len).length = len := by
  cases field with
  | none =>
    have none : len = 0 := by
      by_contra some
      cases backed some
    rw [none]
    rfl
  | some buf => exact Mem.slice_length ..

/-- What is there of a result behind its head decides whether it is whole. -/
theorem firstResult_head (head : KvWorkHead) (rest : List UInt8) : firstResult (head.bytes ++ rest) =
    if head.field1Len.toNat + head.field2Len.toNat ≤ rest.length then
      some (head.bytes ++ rest.take (head.field1Len.toNat + head.field2Len.toNat)) else none := by
  have length := head.bytes_length
  have first : (head.bytes ++ rest).take headSize = head.bytes := List.take_left' length
  simp only [firstResult, first, KvWorkHead.ofBytes_bytes, List.length_append, length]
  have enough : headSize ≤ headSize + rest.length ∧
      headSize + (head.field1Len.toNat + head.field2Len.toNat) ≤ headSize + rest.length ↔
      head.field1Len.toNat + head.field2Len.toNat ≤ rest.length := by omega
  simp only [enough]
  split
  · rw [← length, List.take_length_add_append]
  · rfl

theorem UnderWay.start (unsent : result.Unsent) : UnderWay result result := by
  obtain ⟨head, first, second⟩ := unsent
  constructor
  case progress =>
    refine ⟨rfl, rfl, rfl, by simp [head], by simp [first], by simp [second], ?_, ?_⟩
    · exact fun started => absurd first started
    · exact fun started => absurd second started
  case unfinished => exact fun complete => by simp [KvWork.Complete, head, headSize] at complete
  case headed => exact fun started => by simp [KvWork.HeadUnderWay, head] at started
  case backed1 => exact fun started => absurd first started
  case backed2 => exact fun started => absurd second started

/-- Of a result under way the head was sent or nothing. -/
theorem UnderWay.sent_cases (underWay : UnderWay result work) : work.sent = [] ∨
    work.headOffset.toNat = headSize ∧ work.sent = result.head.bytes ++
      (fieldBytes work.field1 work.field1Offset.toNat ++ fieldBytes work.field2 work.field2Offset.toNat) := by
  have part := underWay.progress.headPart
  by_cases headed : work.headOffset.toNat = headSize
  · refine .inr ⟨headed, ?_⟩
    rw [KvWork.sent, headed, List.take_of_length_le (Nat.le_of_eq work.head.bytes_length), underWay.progress.head]
  · have none : work.headOffset.toNat = 0 := by
      by_contra started
      exact underWay.headed ⟨Nat.pos_of_ne_zero started, Nat.lt_of_le_of_ne part headed⟩
    refine .inl ?_
    rw [KvWork.sent, none, underWay.progress.field1_unsent headed, underWay.progress.field2_unsent (.inl headed),
      KvWork.fieldBytes_zero, KvWork.fieldBytes_zero]
    rfl

/-- A result under way is not yet there as a whole. -/
theorem UnderWay.incomplete (underWay : UnderWay result work) : firstResult work.sent = none := by
  rcases underWay.sent_cases with none | ⟨headed, bytes⟩
  · rw [none]
    rfl
  · have first := UInt16.le_iff_toNat_le.mp underWay.progress.field1Part
    have second := UInt16.le_iff_toNat_le.mp underWay.progress.field2Part
    have nonzero (offset : UInt16) : offset.toNat ≠ 0 → offset ≠ 0 := fun some none => some (by rw [none]; rfl)
    rw [bytes, firstResult_head, List.length_append, fieldBytes_length fun some => underWay.backed1 (nonzero _ some),
      fieldBytes_length fun some => underWay.backed2 (nonzero _ some), if_neg]
    rw [← underWay.progress.head]
    intro enough
    refine underWay.unfinished ⟨headed, UInt16.toNat_inj.mp ?_, UInt16.toNat_inj.mp ?_⟩ <;> omega

/-- A result that was sent to its end is there as a whole. -/
theorem whole_of_complete (progress : KvWork.Progress result work) (complete : work.Complete)
    (backed1 : work.field1Offset ≠ 0 → work.field1.isSome) (backed2 : work.field2Offset ≠ 0 → work.field2.isSome) :
    firstResult result.bytes = some result.bytes := by
  have nonzero (offset : UInt16) : offset.toNat ≠ 0 → offset ≠ 0 := fun some none => some (by rw [none]; rfl)
  have len1 : (fieldBytes result.field1 result.head.field1Len.toNat).length = result.head.field1Len.toNat := by
    rw [← progress.field1, ← progress.head, ← complete.2.1]
    exact fieldBytes_length fun some => backed1 (nonzero _ some)
  have len2 : (fieldBytes result.field2 result.head.field2Len.toNat).length = result.head.field2Len.toNat := by
    rw [← progress.field2, ← progress.head, ← complete.2.2]
    exact fieldBytes_length fun some => backed2 (nonzero _ some)
  rw [KvWork.bytes, firstResult_head, List.length_append, len1, len2, if_pos (Nat.le_refl _), List.take_of_length_le]
  rw [List.length_append, len1, len2]

/-- One `_do_send` of a result whose head goes out as a whole. -/
theorem UnderWay.doSend (underWay : UnderWay result work)
    (whole : ∀ count, work.headOffset = 0 → outcome = .accepted count → headSize ≤ count)
    (ran : work.doSend behind outcome = some sent) :
    sent.work.sent = work.sent ++ sent.bytes ∧
      (sent.done = true ∧ firstResult result.bytes = some result.bytes ∧ sent.work.sent = result.bytes ∨
        sent.done = false ∧ UnderWay result sent.work) := by
  have right : work.HeadRight behind outcome := fun _ _ started => absurd started underWay.headed
  obtain ⟨progress, appended, _⟩ := underWay.progress.doSend right ran
  refine ⟨appended, ?_⟩
  -- What every part that may be sent comes to.
  have ends (headed : ¬ sent.work.HeadUnderWay) (backed1 : sent.work.field1Offset ≠ 0 → sent.work.field1.isSome)
      (backed2 : sent.work.field2Offset ≠ 0 → sent.work.field2.isSome) (done : sent.done = decide sent.work.Complete) :
      sent.done = true ∧ firstResult result.bytes = some result.bytes ∧ sent.work.sent = result.bytes ∨
        sent.done = false ∧ UnderWay result sent.work := by
    by_cases complete : sent.work.Complete
    · refine .inl ⟨by simp [done, complete], whole_of_complete progress complete backed1 backed2, ?_⟩
      exact progress.complete_sent complete
    · exact .inr ⟨by simp [done, complete], progress, complete, headed, backed1, backed2⟩
  have zero : work.headOffset.toNat ≠ headSize → work.headOffset = 0 := by
    intro headless
    have part := underWay.progress.headPart
    by_contra started
    refine underWay.headed ⟨Nat.pos_of_ne_zero fun none => started (UInt16.toNat_inj.mp none), ?_⟩
    exact Nat.lt_of_le_of_ne part headless
  unfold KvWork.doSend at ran
  split at ran
  · rename_i unfinished
    have none := zero (Nat.ne_of_lt unfinished)
    rcases KvWork.sendPart_cases ran with ⟨_, rfl⟩ | ⟨text, len, count, left, accepted, some_, rfl⟩
    · exact .inr ⟨rfl, underWay⟩
    · obtain rfl := Option.some.inj left
      have all := whole count none accepted
      rw [KvWork.headLeft_length, none] at some_
      have len : len = headSize := by
        simp only [headSize, UInt16.toNat_zero] at all some_ ⊢
        omega
      refine ends ?_ underWay.backed1 underWay.backed2 rfl
      intro started
      simp [KvWork.HeadUnderWay, none, len, headSize] at started
  · split at ran
    · rcases KvWork.sendPart_cases ran with ⟨_, rfl⟩ | ⟨text, len, count, left, _, _, rfl⟩
      · exact .inr ⟨rfl, underWay⟩
      · obtain ⟨buf, there, _⟩ := Option.map_eq_some_iff.mp left
        exact ends underWay.headed (fun _ => by simp [there]) underWay.backed2 rfl
    · split at ran
      · rcases KvWork.sendPart_cases ran with ⟨_, rfl⟩ | ⟨text, len, count, left, _, _, rfl⟩
        · exact .inr ⟨rfl, underWay⟩
        · obtain ⟨buf, there, _⟩ := Option.map_eq_some_iff.mp left
          exact ends underWay.headed underWay.backed1 (fun _ => by simp [there]) rfl
      · obtain rfl := Option.some.inj ran
        exact ends underWay.headed underWay.backed1 underWay.backed2 rfl

end Sending

end Service

end Pingkv
