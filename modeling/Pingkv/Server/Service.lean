import Pingkv.Lib.Simulation
import Pingkv.Server.PoolOrder
import Pingkv.Server.Sender

/-! The service as a whole: clients that wait for the result of one request before they
send the next, the poller, the workers, and the sender with whom the workers share the
queue of results. Beside it the service that clients are meant to see, which runs every
request at one moment between its being sent and its being answered. -/

namespace Pingkv

/-- The first result on a stream, once all of it is there. -/
def firstResult (stream : List UInt8) : Option (List UInt8) :=
  let head := KvWorkHead.ofBytes (stream.take headSize)
  let len := headSize + (head.field1Len.toNat + head.field2Len.toNat)
  if headSize ≤ stream.length ∧ len ≤ stream.length then some (stream.take len) else none

/-- The head of the result that is sent goes out as a whole. -/
def Sender.WholeHead (sender : Sender) (outcome : SendOutcome) : Prop := ∀ fd work count, sender.place = .visiting fd →
  sender.bufs.lookup fd = some (some work) → work.headOffset = 0 → outcome = .accepted count → headSize ≤ count

theorem Sender.wholeHead_again (sender : Sender) : sender.WholeHead .again := by
  rintro _ _ _ _ _ _ ⟨⟩

namespace Service

/-- Where a client stands: between two calls, or in one whose request is on its way or was read. -/
inductive ClientPlace (fileCount : Int) (workers : Nat) where
  | idle
  | sending (request : Request fileCount workers)
  | waiting

structure Client (fileCount : Int) (workers : Nat) where
  place : ClientPlace fileCount workers
  /-- The results it has received. -/
  heard : List UInt8

/-- What clients and the indexes show of a step. -/
inductive Event (fileCount : Int) (workers : Nat) where
  | ask (request : Request fileCount workers)
  | run (fd : Int) (req : KvWork)
  | hear (fd : Int) (result : List UInt8)
  /-- A wait of a worker returned without a signal. -/
  | wake
  /-- The process of the server ends. -/
  | die
  | silent

end Service

structure Service (fileCount : Int) (workers : Nat) (σ : Type) where
  /-- The clients, by the number of their connection. -/
  clients : Int → Service.Client fileCount workers
  pool : Pool fileCount workers σ
  sender : Sender

namespace Service

variable {fileCount : Int} {workers : Nat} {σ : Type}

/-- A server that was just started, over indexes in use. -/
def start (answer : Fin workers → IndexCall → σ → IndexAnswer × σ) (index : Fin workers → σ) (behind : Mem) :
    Service fileCount workers σ where
  clients := fun _ => ⟨.idle, []⟩
  pool := Pool.start [] answer index
  sender := Sender.start behind

/-- A worker in a step that others do not see: it holds no result and does not run a request. -/
def Apart : Pool.WorkerPlace → Prop
  | .operating _ _ | .answering _ _ | .putting _ _ | .signalling | .leaving => False
  | _ => True

/-- What can happen. A wait of the sender returns for a signal only, and the head of a result
is sent as a whole or not at all; a wait of a worker may return at any time, and an index
may drift with what the system refuses it. Where the sender ends the process, only its
clients go on. -/
inductive Step (drift : σ → σ → Prop) (before : Service fileCount workers σ) :
    Event fileCount workers → Service fileCount workers σ → Prop where
  | ask {request : Request fileCount workers} (idle : (before.clients request.fd).place = .idle) :
      Step drift before (.ask request) { before with
        clients := Function.update before.clients request.fd ⟨.sending request, (before.clients request.fd).heard⟩ }
  | arrive {fd : Int} {request : Request fileCount workers} (running : before.sender.place.alive)
      (sends : (before.clients fd).place = .sending request) :
      Step drift before .silent { before with
        clients := Function.update before.clients fd ⟨.waiting, (before.clients fd).heard⟩
        pool := { before.pool with ahead := before.pool.ahead ++ [request] } }
  | poller {pool : Pool fileCount workers σ} (running : before.sender.place.alive)
      (stepped : before.pool.pollerStep = some pool) :
      Step drift before .silent { before with pool := pool }
  | wake {number : Fin workers} {pool : Pool fileCount workers σ} (running : before.sender.place.alive)
      (stepped : Pool.step (.spurious number) before.pool = some pool) : Step drift before .wake { before with pool := pool }
  | worker {number : Fin workers} {pool : Pool fileCount workers σ} (running : before.sender.place.alive)
      (apart : Apart (before.pool.cells number).place)
      (stepped : before.pool.workerStep number = some pool) : Step drift before .silent { before with pool := pool }
  | run {number : Fin workers} {pool : Pool fileCount workers σ} {fd : Int} {req : KvWork}
      (running : before.sender.place.alive) (place : (before.pool.cells number).place = .operating fd req)
      (stepped : before.pool.workerStep number = some pool) : Step drift before (.run fd req) { before with pool := pool }
  | lock {number : Fin workers} {pool : Pool fileCount workers σ} {sender : Sender} {result : Result}
      (place : (before.pool.cells number).place = .answering result.fd result.work)
      (stepped : before.pool.workerStep number = some pool)
      (locked : Sender.step (.put result) before.sender = some sender) :
      Step drift before .silent { before with pool := pool, sender := sender }
  | pass {number : Fin workers} {pool : Pool fileCount workers σ} {sender : Sender}
      (place : (before.pool.cells number).place.HoldsResults) (stepped : before.pool.workerStep number = some pool)
      (passed : Sender.step .worker before.sender = some sender) :
      Step drift before .silent { before with pool := pool, sender := sender }
  | sender {outcome : SendOutcome} {next : Option Int} {sender : Sender} (whole : before.sender.WholeHead outcome)
      (stepped : Sender.step (.sender outcome next) before.sender = some sender) (stays : sender.place ≠ .killed) :
      Step drift before .silent { before with sender := sender }
  | die {outcome : SendOutcome} {next : Option Int} {sender : Sender} (whole : before.sender.WholeHead outcome)
      (stepped : Sender.step (.sender outcome next) before.sender = some sender) (ends : sender.place = .killed) :
      Step drift before .die { before with sender := sender }
  | hear {fd : Int} {result : List UInt8} (waits : (before.clients fd).place = .waiting)
      (there : firstResult ((before.sender.wire fd).drop (before.clients fd).heard.length) = some result) :
      Step drift before (.hear fd result) { before with
        clients := Function.update before.clients fd ⟨.idle, (before.clients fd).heard ++ result⟩ }
  | drift {number : Fin workers} {index : σ} (running : before.sender.place.alive)
      (drifts : drift (before.pool.cells number).run.index index) :
      Step drift before .silent { before with pool := before.pool.setCell number { before.pool.cells number with
        run := { (before.pool.cells number).run with index := index } } }

end Service

/-- The service that clients are meant to see: each connection has at most one request under
way, and one result for it once it was run. -/
structure AtomicService (fileCount : Int) (workers : Nat) (σ : Type) where
  pending : Int → Option (Request fileCount workers × Option KvWork)
  index : Fin workers → σ

namespace AtomicService

variable {fileCount : Int} {workers : Nat} {σ : Type}

def start (index : Fin workers → σ) : AtomicService fileCount workers σ := ⟨fun _ => none, index⟩

/-- Requests are sent, run on the index of their queue, and answered with the result of that run. -/
inductive Step (answer : Fin workers → IndexCall → σ → IndexAnswer × σ) (drift : σ → σ → Prop)
    (before : AtomicService fileCount workers σ) :
    Service.Event fileCount workers → AtomicService fileCount workers σ → Prop where
  | ask {request : Request fileCount workers} (idle : before.pending request.fd = none) :
      Step answer drift before (.ask request) { before with
        pending := Function.update before.pending request.fd (some (request, none)) }
  | run {fd : Int} {request : Request fileCount workers} (asked : before.pending fd = some (request, none)) :
      Step answer drift before (.run fd request.work) {
        pending := Function.update before.pending fd
          (some (request, some (resultOf request.kind (answer request.queue request.call (before.index request.queue)).1)))
        index := Function.update before.index request.queue
          (answer request.queue request.call (before.index request.queue)).2 }
  | hear {fd : Int} {request : Request fileCount workers} {result : KvWork}
      (ran : before.pending fd = some (request, some result)) :
      Step answer drift before (.hear fd result.bytes) { before with pending := Function.update before.pending fd none }
  | wake : Step answer drift before .wake before
  | die : Step answer drift before .die before
  | drift {number : Fin workers} {index : σ} (drifts : drift (before.index number) index) :
      Step answer drift before .silent { before with index := Function.update before.index number index }
  | silent : Step answer drift before .silent before

end AtomicService

end Pingkv
