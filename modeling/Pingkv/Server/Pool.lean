import Mathlib.Logic.Function.Basic
import Pingkv.Lib.Transition
import Pingkv.Route
import Pingkv.Server.Worker

/-! The poller thread and the workers of a server step by step: the requests
`_cb_read_sock` puts on the request queues, and `kv_worker::work`. -/

namespace Pingkv

/-- The key of a request, by the length in its head. -/
def KvWork.key (work : KvWork) : List UInt8 := fieldBytes work.field1 work.head.field1Len.toNat

/-- A request that `_cb_read_sock` has completed, of a kind that a worker knows
and with a queue that is there. -/
structure Request (fileCount : Int) (workers : Nat) where
  fd : Int
  work : KvWork
  kind : IndexCall.Kind
  connected : 0 < fd
  request : WorkFlag.Has work.head.flag WorkFlag.req
  stands : kindOf work.head.flag = some kind
  inside : 0 ≤ requestQueue fileCount work.key ∧ requestQueue fileCount work.key < workers

namespace Request

variable {fileCount : Int} {workers : Nat}

/-- `_req_queue[hash]`. -/
def queue (request : Request fileCount workers) : Fin workers :=
  ⟨(requestQueue fileCount request.work.key).toNat, by
    have inside := request.inside
    omega⟩

/-- What lies on the queue for a request. -/
def entry (request : Request fileCount workers) : Int × KvWork := (request.fd, request.work)

/-- The operation of a request. -/
def call (request : Request fileCount workers) : IndexCall := request.work.call request.kind

end Request

namespace Pool

/-- Who holds the mutex of a request queue. -/
inductive Holder where
  | poller
  | worker
  deriving DecidableEq, Repr

/-- Where the poller stands with the request it has read. -/
inductive PollerPlace (fileCount : Int) (workers : Nat) where
  | reading
  | locking (request : Request fileCount workers)
  | putting (request : Request fileCount workers)
  | signalling (request : Request fileCount workers)
  | unlocking (request : Request fileCount workers)

/-- Where a worker stands in `work`: from `locking` on in `_get_work`, and from
`answering` on in `_put_res`. -/
inductive WorkerPlace where
  | locking
  | testing
  | asleep
  | woken
  | unlocking (fd : Int) (req : Option KvWork)
  | operating (fd : Int) (req : KvWork)
  | answering (fd : Int) (res : KvWork)
  | putting (fd : Int) (res : KvWork)
  | signalling
  | leaving
  | aborted

/-- A worker with its request queue and its index. -/
structure Cell (σ : Type) where
  queue : List (Int × KvWork)
  holder : Option Holder
  place : WorkerPlace
  run : IndexRun σ

inductive Act (workers : Nat) where
  | poller
  | worker (number : Fin workers)
  /-- `pthread_cond_wait` of a worker returns without a signal. -/
  | spurious (number : Fin workers)

def Act.isSpurious {workers : Nat} : Act workers → Bool
  | .spurious _ => true
  | _ => false

end Pool

structure Pool (fileCount : Int) (workers : Nat) (σ : Type) where
  /-- The requests that the poller is still to complete, in their order. -/
  ahead : List (Request fileCount workers)
  poller : Pool.PollerPlace fileCount workers
  cells : Fin workers → Pool.Cell σ
  /-- The worker that holds the mutex of the result queue. -/
  resHolder : Option (Fin workers)
  results : List (Int × KvWork)

namespace Pool

variable {fileCount : Int} {workers : Nat} {σ : Type}

/-- Workers that have just been started on indexes in use, and requests to come. -/
def start (requests : List (Request fileCount workers)) (answer : Fin workers → IndexCall → σ → IndexAnswer × σ)
    (index : Fin workers → σ) : Pool fileCount workers σ where
  ahead := requests
  poller := .reading
  cells := fun number => ⟨[], none, .locking, answer number, index number, []⟩
  resHolder := none
  results := []

def setCell (pool : Pool fileCount workers σ) (number : Fin workers) (cell : Cell σ) : Pool fileCount workers σ :=
  { pool with cells := Function.update pool.cells number cell }

/-- A signal wakes the worker that waits for this queue. -/
def Cell.signal (cell : Cell σ) : Cell σ :=
  match cell.place with
  | .asleep => { cell with place := .woken }
  | _ => cell

/-- The next step of the poller, from a request read to the unlock of its queue. -/
def pollerStep (pool : Pool fileCount workers σ) : Option (Pool fileCount workers σ) :=
  match pool.poller with
  | .reading =>
    match pool.ahead with
    | [] => none
    | request :: rest => some { pool with ahead := rest, poller := .locking request }
  | .locking request =>
    let cell := pool.cells request.queue
    if cell.holder = none then
      some { pool.setCell request.queue { cell with holder := some .poller } with poller := .putting request }
    else none
  | .putting request =>
    let cell := pool.cells request.queue
    some { pool.setCell request.queue { cell with queue := cell.queue ++ [request.entry] } with
      poller := .signalling request }
  | .signalling request =>
    some { pool.setCell request.queue (pool.cells request.queue).signal with poller := .unlocking request }
  | .unlocking request =>
    let cell := pool.cells request.queue
    some { pool.setCell request.queue { cell with holder := none } with poller := .reading }

/-- The next step of a worker, unless it waits. -/
def workerStep (pool : Pool fileCount workers σ) (number : Fin workers) : Option (Pool fileCount workers σ) :=
  let cell := pool.cells number
  match cell.place with
  | .locking | .woken =>
    if cell.holder = none then some (pool.setCell number { cell with holder := some .worker, place := .testing })
    else none
  | .testing =>
    if cell.queue.isEmpty then some (pool.setCell number { cell with holder := none, place := .asleep })
    else
      let ((fd, req), rest) := getWork cell.queue
      some (pool.setCell number { cell with
        queue := rest, place := if fd = -1 then .aborted else .unlocking fd req })
  | .asleep => none
  | .unlocking fd req => some (pool.setCell number { cell with
      holder := none
      place := match req with
        | none => .locking
        | some req => if fd = 0 then .locking else .operating fd req })
  | .operating fd req =>
    match operate req cell.run with
    | (.ok res, run) => some (pool.setCell number { cell with run := run, place := .answering fd res })
    | (.error _, run) => some (pool.setCell number { cell with run := run, place := .aborted })
  | .answering fd res =>
    if pool.resHolder = none then
      some { pool.setCell number { cell with place := .putting fd res } with resHolder := some number }
    else none
  | .putting fd res => some { pool.setCell number { cell with place := .signalling } with
      results := pool.results ++ [(fd, res)] }
  | .signalling => some (pool.setCell number { cell with place := .leaving })
  | .leaving => some { pool.setCell number { cell with place := .locking } with resHolder := none }
  | .aborted => none

def step (act : Act workers) (pool : Pool fileCount workers σ) : Option (Pool fileCount workers σ) :=
  match act with
  | .poller => pool.pollerStep
  | .worker number => pool.workerStep number
  | .spurious number =>
    match (pool.cells number).place with
    | .asleep => some (pool.setCell number { pool.cells number with place := .woken })
    | _ => none

/-- What the poller does in a step. -/
inductive PollerStep (pool : Pool fileCount workers σ) : Pool fileCount workers σ → Prop where
  | complete {request : Request fileCount workers} {rest : List (Request fileCount workers)}
      (place : pool.poller = .reading) (ahead : pool.ahead = request :: rest) :
      PollerStep pool { pool with ahead := rest, poller := .locking request }
  | lock {request : Request fileCount workers} (place : pool.poller = .locking request)
      (free : (pool.cells request.queue).holder = none) :
      PollerStep pool { pool.setCell request.queue { pool.cells request.queue with holder := some .poller } with
        poller := .putting request }
  | put {request : Request fileCount workers} (place : pool.poller = .putting request) :
      PollerStep pool { pool.setCell request.queue { pool.cells request.queue with
        queue := (pool.cells request.queue).queue ++ [request.entry] } with poller := .signalling request }
  | signal {request : Request fileCount workers} (place : pool.poller = .signalling request) :
      PollerStep pool { pool.setCell request.queue (pool.cells request.queue).signal with poller := .unlocking request }
  | unlock {request : Request fileCount workers} (place : pool.poller = .unlocking request) :
      PollerStep pool { pool.setCell request.queue { pool.cells request.queue with holder := none } with
        poller := .reading }

/-- What a worker does in a step. -/
inductive WorkerStep (pool : Pool fileCount workers σ) (number : Fin workers) : Pool fileCount workers σ → Prop where
  | acquire (place : (pool.cells number).place = .locking ∨ (pool.cells number).place = .woken)
      (free : (pool.cells number).holder = none) :
      WorkerStep pool number (pool.setCell number { pool.cells number with holder := some .worker, place := .testing })
  | sleep (place : (pool.cells number).place = .testing) (empty : (pool.cells number).queue = []) :
      WorkerStep pool number (pool.setCell number { pool.cells number with holder := none, place := .asleep })
  | take {entry : Int × KvWork} {rest : List (Int × KvWork)} (place : (pool.cells number).place = .testing)
      (queue : (pool.cells number).queue = entry :: rest) :
      WorkerStep pool number (pool.setCell number { pool.cells number with
        queue := rest, place := if entry.1 = -1 then .aborted else .unlocking entry.1 (some entry.2) })
  | depart {fd : Int} {req : KvWork} (place : (pool.cells number).place = .unlocking fd (some req)) (connected : fd ≠ 0) :
      WorkerStep pool number (pool.setCell number { pool.cells number with holder := none, place := .operating fd req })
  | skip {fd : Int} {req : Option KvWork} (place : (pool.cells number).place = .unlocking fd req)
      (nothing : req = none ∨ fd = 0) :
      WorkerStep pool number (pool.setCell number { pool.cells number with holder := none, place := .locking })
  | operate {fd : Int} {req res : KvWork} {run : IndexRun σ} (place : (pool.cells number).place = .operating fd req)
      (operated : Pingkv.operate req (pool.cells number).run = (.ok res, run)) :
      WorkerStep pool number (pool.setCell number { pool.cells number with run := run, place := .answering fd res })
  | abort {fd : Int} {req : KvWork} {reason : Exec.Stop} {run : IndexRun σ}
      (place : (pool.cells number).place = .operating fd req)
      (operated : Pingkv.operate req (pool.cells number).run = (.error reason, run)) :
      WorkerStep pool number (pool.setCell number { pool.cells number with run := run, place := .aborted })
  | answer {fd : Int} {res : KvWork} (place : (pool.cells number).place = .answering fd res)
      (free : pool.resHolder = none) :
      WorkerStep pool number { pool.setCell number { pool.cells number with place := .putting fd res } with
        resHolder := some number }
  | putResult {fd : Int} {res : KvWork} (place : (pool.cells number).place = .putting fd res) :
      WorkerStep pool number { pool.setCell number { pool.cells number with place := .signalling } with
        results := pool.results ++ [(fd, res)] }
  | signal (place : (pool.cells number).place = .signalling) :
      WorkerStep pool number (pool.setCell number { pool.cells number with place := .leaving })
  | leave (place : (pool.cells number).place = .leaving) :
      WorkerStep pool number { pool.setCell number { pool.cells number with place := .locking } with resHolder := none }

variable {pool after : Pool fileCount workers σ} {number : Fin workers}

theorem pollerStep_cases (stepped : pool.pollerStep = some after) : pool.PollerStep after := by
  unfold pollerStep at stepped
  split at stepped
  case h_1 place =>
    split at stepped
    · cases stepped
    · rename_i request rest ahead
      obtain rfl := Option.some.inj stepped
      exact .complete place ahead
  case h_2 request place =>
    simp only at stepped
    split at stepped
    · rename_i free
      obtain rfl := Option.some.inj stepped
      exact .lock place free
    · cases stepped
  case h_3 request place =>
    obtain rfl := Option.some.inj stepped
    exact .put place
  case h_4 request place =>
    obtain rfl := Option.some.inj stepped
    exact .signal place
  case h_5 request place =>
    obtain rfl := Option.some.inj stepped
    exact .unlock place

theorem workerStep_cases (stepped : pool.workerStep number = some after) : pool.WorkerStep number after := by
  unfold workerStep at stepped
  simp only at stepped
  split at stepped
  case h_1 place =>
    split at stepped
    · rename_i free
      obtain rfl := Option.some.inj stepped
      exact .acquire (.inl place) free
    · cases stepped
  case h_2 place =>
    split at stepped
    · rename_i free
      obtain rfl := Option.some.inj stepped
      exact .acquire (.inr place) free
    · cases stepped
  case h_3 place =>
    cases queue : (pool.cells number).queue with
    | nil =>
      rw [queue] at stepped
      obtain rfl := Option.some.inj stepped
      exact queue ▸ .sleep place queue
    | cons entry rest =>
      simp only [queue, getWork, List.isEmpty_cons, Bool.false_eq_true, if_false] at stepped
      obtain rfl := Option.some.inj stepped
      exact .take place queue
  case h_4 => cases stepped
  case h_5 fd req place =>
    cases req with
    | none =>
      obtain rfl := Option.some.inj stepped
      exact .skip place (.inl rfl)
    | some req =>
      by_cases connected : fd = 0
      · simp only [connected, if_true] at stepped
        obtain rfl := Option.some.inj stepped
        exact .skip place (.inr connected)
      · simp only [connected, if_false] at stepped
        obtain rfl := Option.some.inj stepped
        exact .depart place connected
  case h_6 fd req place =>
    split at stepped
    · rename_i operated
      obtain rfl := Option.some.inj stepped
      exact .operate place operated
    · rename_i operated
      obtain rfl := Option.some.inj stepped
      exact .abort place operated
  case h_7 fd res place =>
    split at stepped
    · rename_i free
      obtain rfl := Option.some.inj stepped
      exact .answer place free
    · cases stepped
  case h_8 fd res place =>
    obtain rfl := Option.some.inj stepped
    exact .putResult place
  case h_9 place =>
    obtain rfl := Option.some.inj stepped
    exact .signal place
  case h_10 place =>
    obtain rfl := Option.some.inj stepped
    exact .leave place
  case h_11 => cases stepped

end Pool

end Pingkv
