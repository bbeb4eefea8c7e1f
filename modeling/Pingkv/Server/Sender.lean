import Mathlib.Logic.Function.Basic
import Mathlib.Data.Int.Order.Basic
import Pingkv.Lib.OrderedMap
import Pingkv.Lib.Transition
import Pingkv.Server.Send

/-! `kv_sender::thread_func` step by step, between the steps of the workers
that put results on its queue. -/

namespace Pingkv

/-- A result that `kv_worker::_put_res` puts for a connection, with nothing of it sent. -/
structure Result where
  fd : Int
  work : KvWork
  connected : 0 < fd
  unsent : work.Unsent

namespace Sender

/-- Who holds the mutex of the result queue; a worker in `_put_res` puts,
signals and leaves. -/
inductive Owner where
  | sender
  | putting (result : Result)
  | signalling
  | leaving

/-- Where `thread_func` stands: at an entry of `_res_bufs`, somewhere behind its loop
over them, or nowhere any more: it has aborted, or followed a null pointer, or the
system has ended the process. -/
inductive Place where
  | visiting (fd : Int)
  | locking
  | testing
  | asleep
  | woken
  | getting
  | unlocking
  | crashed
  | killed
  deriving DecidableEq, Repr

/-- The process is there. -/
def Place.alive : Place → Bool
  | .crashed | .killed => false
  | _ => true

end Sender

structure Sender where
  queue : List (Int × KvWork)
  owner : Option Sender.Owner
  /-- `_res_bufs`. -/
  bufs : OrderedMap Int (Option KvWork)
  place : Sender.Place
  /-- What lies behind the head of a work in memory. -/
  behind : Mem
  /-- The bytes sent on each connection. -/
  wire : Int → List UInt8
  /-- The results put so far. -/
  puts : List (Int × KvWork)
  /-- The connections of the sends that failed. -/
  failures : List Int

namespace Sender

def start (behind : Mem) : Sender :=
  { queue := [], owner := none, bufs := .empty, place := .locking, behind := behind, wire := fun _ => [], puts := []
    failures := [] }

inductive Act where
  /-- A worker locks the queue for a result. -/
  | put (result : Result)
  /-- The worker that has locked it goes on. -/
  | worker
  /-- `pthread_cond_wait` returns without a signal. -/
  | spurious
  /-- The sender goes on. If it sends, this is what comes of it; if that erases the
  entry the iterator stands on, `next` is what `it++` reads in the freed entry. -/
  | sender (outcome : SendOutcome) (next : Option Int)

/-- The loop over `_res_bufs` goes on at an entry, or ends. -/
def visit (sender : Sender) : Option Int → Sender
  | some fd => { sender with place := .visiting fd }
  | none => { sender with place := .locking }

/-- `it++` behind the `_res_bufs.erase(fd)` of `_do_send`. What it reads may lead it to an
entry or to the end; where it is neither, following it ends the process. -/
def follow (sender : Sender) : Option Int → Sender
  | some fd => { sender with place := if (sender.bufs.lookup fd).isSome then .visiting fd else .killed }
  | none => { sender with place := .locking }

/-- One turn of the loop over `_res_bufs`. -/
def visitStep (sender : Sender) (fd : Int) (outcome : SendOutcome) (next : Option Int) : Sender :=
  match sender.bufs.lookup fd with
  | some (some work) =>
    match work.doSend sender.behind outcome with
    | none =>
      if outcome = .pipe then { sender with place := .killed }
      else { sender with bufs := sender.bufs.erase fd, failures := sender.failures ++ [fd], place := .locking }
    | some sent =>
      let wire := Function.update sender.wire fd (sender.wire fd ++ sent.bytes)
      if sent.done then
        let bufs := sender.bufs.erase fd
        { sender with wire := wire, bufs := bufs }.follow next
      else
        let bufs := sender.bufs.assign fd (some sent.work)
        { sender with wire := wire, bufs := bufs }.visit (bufs.next fd)
  | _ => { sender with place := .crashed }

/-- The next step of `thread_func`, unless it waits. -/
def senderStep (sender : Sender) (outcome : SendOutcome) (next : Option Int) : Option Sender :=
  match sender.place with
  | .visiting fd => some (sender.visitStep fd outcome next)
  | .locking =>
    if sender.owner.isNone then some { sender with owner := some .sender, place := .testing } else none
  | .testing =>
    if sender.queue.isEmpty then
      if sender.bufs.entries.isEmpty then some { sender with owner := none, place := .asleep }
      else some { sender with place := .unlocking }
    else some { sender with place := .getting }
  | .asleep => none
  | .woken =>
    if sender.owner.isNone then some { sender with owner := some .sender, place := .getting } else none
  | .getting =>
    let ((fd, work), rest) := getWork sender.queue
    if fd = -1 then some { sender with place := .crashed }
    else some { sender with queue := rest, bufs := sender.bufs.assign fd work, place := .unlocking }
  | .unlocking => some ({ sender with owner := none }.visit sender.bufs.first)
  | .crashed | .killed => none

/-- The next step of the worker that holds the mutex. -/
def workerStep (sender : Sender) : Option Sender :=
  match sender.owner with
  | some (.putting result) => some { sender with
      queue := sender.queue ++ [(result.fd, result.work)]
      puts := sender.puts ++ [(result.fd, result.work)]
      owner := some .signalling }
  | some .signalling => some { sender with
      owner := some .leaving
      place := if sender.place = .asleep then .woken else sender.place }
  | some .leaving => some { sender with owner := none }
  | _ => none

/-- One step, while the process is there. -/
def step (act : Act) (sender : Sender) : Option Sender :=
  if sender.place.alive then
    match act with
    | .put result => if sender.owner.isNone then some { sender with owner := some (.putting result) } else none
    | .worker => sender.workerStep
    | .spurious => if sender.place = .asleep then some { sender with place := .woken } else none
    | .sender outcome next => sender.senderStep outcome next
  else none

/-- What a step does. -/
inductive Stepped (sender : Sender) : Act → Sender → Prop where
  | put (result : Result) (free : sender.owner = none) :
      Stepped sender (.put result) { sender with owner := some (.putting result) }
  | enqueue {result : Result} (owner : sender.owner = some (.putting result)) :
      Stepped sender .worker { sender with
        queue := sender.queue ++ [(result.fd, result.work)]
        puts := sender.puts ++ [(result.fd, result.work)]
        owner := some .signalling }
  | signal (owner : sender.owner = some .signalling) :
      Stepped sender .worker { sender with
        owner := some .leaving, place := if sender.place = .asleep then .woken else sender.place }
  | leave (owner : sender.owner = some .leaving) : Stepped sender .worker { sender with owner := none }
  | wake (place : sender.place = .asleep) : Stepped sender .spurious { sender with place := .woken }
  | visit {fd : Int} {outcome : SendOutcome} {next : Option Int} (place : sender.place = .visiting fd) :
      Stepped sender (.sender outcome next) (sender.visitStep fd outcome next)
  | lock {outcome : SendOutcome} {next : Option Int} (place : sender.place = .locking) (free : sender.owner = none) :
      Stepped sender (.sender outcome next) { sender with owner := some .sender, place := .testing }
  | sleep {outcome : SendOutcome} {next : Option Int} (place : sender.place = .testing) (empty : sender.queue = [])
      (idle : sender.bufs.entries = []) :
      Stepped sender (.sender outcome next) { sender with owner := none, place := .asleep }
  | pass {outcome : SendOutcome} {next : Option Int} (place : sender.place = .testing) (empty : sender.queue = [])
      (busy : sender.bufs.entries ≠ []) : Stepped sender (.sender outcome next) { sender with place := .unlocking }
  | find {outcome : SendOutcome} {next : Option Int} (place : sender.place = .testing) (results : sender.queue ≠ []) :
      Stepped sender (.sender outcome next) { sender with place := .getting }
  | relock {outcome : SendOutcome} {next : Option Int} (place : sender.place = .woken) (free : sender.owner = none) :
      Stepped sender (.sender outcome next) { sender with owner := some .sender, place := .getting }
  | crash {outcome : SendOutcome} {next : Option Int} (place : sender.place = .getting)
      (closed : (getWork sender.queue).1.1 = -1) :
      Stepped sender (.sender outcome next) { sender with place := .crashed }
  | take {outcome : SendOutcome} {next : Option Int} (place : sender.place = .getting)
      (connected : (getWork sender.queue).1.1 ≠ -1) :
      Stepped sender (.sender outcome next) { sender with
        queue := (getWork sender.queue).2
        bufs := sender.bufs.assign (getWork sender.queue).1.1 (getWork sender.queue).1.2
        place := .unlocking }
  | unlock {outcome : SendOutcome} {next : Option Int} (place : sender.place = .unlocking) :
      Stepped sender (.sender outcome next) ({ sender with owner := none }.visit sender.bufs.first)

variable {sender after : Sender}

theorem workerStep_cases (stepped : sender.workerStep = some after) : sender.Stepped .worker after := by
  unfold workerStep at stepped
  split at stepped
  case h_1 result owner =>
    obtain rfl := Option.some.inj stepped
    exact .enqueue owner
  case h_2 owner =>
    obtain rfl := Option.some.inj stepped
    exact .signal owner
  case h_3 owner =>
    obtain rfl := Option.some.inj stepped
    exact .leave owner
  case h_4 => cases stepped

theorem senderStep_cases {outcome : SendOutcome} {next : Option Int}
    (stepped : sender.senderStep outcome next = some after) : sender.Stepped (.sender outcome next) after := by
  unfold senderStep at stepped
  split at stepped
  case h_1 fd place =>
    obtain rfl := Option.some.inj stepped
    exact .visit place
  case h_2 place =>
    split at stepped
    · rename_i free
      obtain rfl := Option.some.inj stepped
      exact .lock place (Option.isNone_iff_eq_none.mp free)
    · cases stepped
  case h_3 place =>
    split at stepped
    · rename_i empty
      split at stepped
      · rename_i idle
        obtain rfl := Option.some.inj stepped
        exact .sleep place (List.isEmpty_iff.mp empty) (List.isEmpty_iff.mp idle)
      · rename_i busy
        obtain rfl := Option.some.inj stepped
        exact .pass place (List.isEmpty_iff.mp empty) fun idle => busy (List.isEmpty_iff.mpr idle)
    · rename_i results
      obtain rfl := Option.some.inj stepped
      exact .find place fun empty => results (List.isEmpty_iff.mpr empty)
  case h_4 => cases stepped
  case h_5 place =>
    split at stepped
    · rename_i free
      obtain rfl := Option.some.inj stepped
      exact .relock place (Option.isNone_iff_eq_none.mp free)
    · cases stepped
  case h_6 place =>
    simp only at stepped
    split at stepped
    · rename_i closed
      obtain rfl := Option.some.inj stepped
      exact .crash place closed
    · rename_i connected
      obtain rfl := Option.some.inj stepped
      exact .take place connected
  case h_7 place =>
    obtain rfl := Option.some.inj stepped
    exact .unlock place
  case h_8 => cases stepped
  case h_9 => cases stepped

theorem step_cases {act : Act} (stepped : step act sender = some after) : sender.Stepped act after := by
  unfold step at stepped
  split at stepped
  · cases act with
    | put result =>
      simp only at stepped
      split at stepped
      · rename_i free
        obtain rfl := Option.some.inj stepped
        exact .put result (Option.isNone_iff_eq_none.mp free)
      · cases stepped
    | worker => exact workerStep_cases stepped
    | spurious =>
      simp only at stepped
      split at stepped
      · rename_i place
        obtain rfl := Option.some.inj stepped
        exact .wake place
      · cases stepped
    | sender outcome next => exact senderStep_cases stepped
  · cases stepped

/-- The works of one connection. -/
def worksOf (fd : Int) (entries : List (Int × KvWork)) : List KvWork :=
  (entries.filter fun entry => decide (entry.1 = fd)).map Prod.snd

end Sender

end Pingkv
