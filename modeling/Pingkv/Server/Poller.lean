import Mathlib.Data.List.Dedup
import Mathlib.Logic.Function.Basic
import Pingkv.Server.Connection

/-! The thread of the poller: what `kv_poller` and the server keep about connections
that come and go, take over the descriptors of others, and are closed by the sender
behind the back of the poller. -/

namespace Pingkv

open Exec

/-! The flags of an `epoll_event`. -/

def epollIn : UInt32 := 0x001

def epollOut : UInt32 := 0x004

def epollErr : UInt32 := 0x008

def epollHup : UInt32 := 0x010

def epollEt : UInt32 := 0x80000000

def hasEvent (events flag : UInt32) : Bool := events &&& flag == flag

/-- The callbacks of `kv_server`. -/
inductive PollerCb where
  | cbAccept
  | cbReadSock
  deriving DecidableEq

/-- `kv_poller::poller_arg`. -/
structure PollerArg where
  fd : Int
  events : UInt32
  rcb : Option PollerCb
  wcb : Option PollerCb

/-- What reading on a connection comes to: the work of the connection goes to a queue
once it is a request. -/
inductive ReadOutcome where
  | failed
  | request
  | other

namespace Connection

/-- What a callback does to its connection, by what reading comes to. -/
inductive Comes (before after : Connection) : ReadOutcome → Prop where
  | failed (closed : after.closed = true) (queued : after.queued = before.queued) : Comes before after .failed
  | request {queue : Int} {work : KvWork} (closed : after.closed = before.closed) (renewed : after.work = newKvWork)
      (queued : after.queued = before.queued ++ [(queue, work)]) : Comes before after .request
  | other (closed : after.closed = before.closed) (queued : after.queued = before.queued) : Comes before after .other

/-- The same flag and the same works on queues. -/
private def Quiet (before after : Connection) : Prop := after.closed = before.closed ∧ after.queued = before.queued

private theorem recv_quiet (before : Connection) (asked : Nat) : Keeps (Quiet before) (recv asked) :=
  fun _ same => wp_within (wp_always.mono (fun _ _ _ => same) fun _ _ _ => same)

private theorem recvField_quiet (before : Connection) (field : Field) : Keeps (Quiet before) (recvField field) := by
  refine (keeps_read _).bind fun work => keeps_ite ?_ (keeps_pure _)
  have allocated : Keeps (Quiet before) (fieldBuf field (work.head.len field)) := by
    refine (keeps_read _).bind fun work => ?_
    split
    · exact keeps_pure _
    · exact (keeps_read _).bind fun _ => Keeps.bind (keeps_update fun _ same => same) fun _ => keeps_pure _
  refine allocated.bind fun buf => Keeps.bind (keeps_update fun _ same => same) fun _ => (recv_quiet before _).bind fun bytes => ?_
  refine keeps_ite (keeps_stop _) (Keeps.bind (keeps_update fun _ same => same) fun _ => ?_)
  exact keeps_ite (keeps_stop _) (keeps_pure _)

theorem cbReadSock_comes (connection : Connection) :
    wp cbReadSock (fun _ after => ∃ outcome, Comes connection after outcome) (fun _ _ => True) connection := by
  have dispatched (read : Connection) (same : Quiet connection read) :
      wp dispatch (fun _ after => ∃ outcome, Comes connection after outcome) (fun _ _ => False) read := by
    refine wp_bind_ok (read_run _ _) ?_
    split
    · exact wp_of_ok (update_run _ _) ⟨.request, .request same.1 rfl (congrArg (· ++ [_]) same.2)⟩
    · exact wp_pure ⟨.other, .other same.1 same.2⟩
  have received : wp (do recvHead; recvField .field1; recvField .field2; dispatch)
      (fun _ after => ∃ outcome, Comes connection after outcome) (fun _ after => Quiet connection after) connection := by
    have headed : Keeps (Quiet connection) recvHead := (recv_quiet connection headSize).bind fun _ => keeps_update fun _ same => same
    refine wp_bind (headed connection ⟨rfl, rfl⟩) fun _ _ same => ?_
    refine wp_bind (recvField_quiet connection .field1 _ same) fun _ _ same => ?_
    refine wp_bind (recvField_quiet connection .field2 _ same) fun _ read same => ?_
    exact (dispatched read same).mono (fun _ _ comes => comes) fun _ _ never => never.elim
  have attempted : wp (attempt do recvHead; recvField .field1; recvField .field2; dispatch)
      (fun done after => done ≠ none ∧ (∃ outcome, Comes connection after outcome) ∨ done = none ∧ Quiet connection after)
      (fun _ after => Quiet connection after) connection :=
    wp_attempt received (fun _ _ comes => .inl ⟨by simp, comes⟩) fun _ same => .inr ⟨rfl, same⟩
  refine wp_bind (attempted.loosen) ?_
  rintro done after (⟨some_, comes⟩ | ⟨rfl, same⟩)
  · rw [if_neg some_]
    exact wp_pure comes
  · rw [if_pos rfl]
    exact wp_of_ok (update_run _ _) ⟨.failed, .failed rfl same.2⟩

end Connection

/-- How a call into the operating system goes. Before it the sender may have closed
connections whose results it could not send. -/
structure KernelTurn where
  closes : List Int
  served : Bool
  fd : Int
  outcome : ReadOutcome
  ready : List (Int × UInt32)

structure KvPoller where
  schedule : Nat → KernelTurn
  turns : Nat
  /-- The descriptors in use. -/
  isOpen : Int → Bool
  /-- The descriptors that the kernel watches, each with the pointer it hands out with an event. -/
  watched : Int → Option Nat
  /-- The `poller_arg`s that are allocated, by address. -/
  args : Nat → Option PollerArg
  nextArg : Nat
  /-- `_emap`. -/
  emap : Int → Option (Option Nat)
  /-- `_work_bufs` of the server. -/
  workBufs : Int → Option Nat
  nextWork : Nat
  /-- The works put on request queues, each with its connection. -/
  queued : List (Int × Nat)

namespace KvPoller

def start (schedule : Nat → KernelTurn) (isOpen : Int → Bool) : KvPoller where
  schedule := schedule
  turns := 0
  isOpen := isOpen
  watched := fun _ => none
  args := fun _ => none
  nextArg := 0
  emap := fun _ => none
  workBufs := fun _ => none
  nextWork := 0
  queued := []

/-- A descriptor that is closed is no longer watched. -/
def closed (fd : Int) (poller : KvPoller) : KvPoller := { poller with
  isOpen := Function.update poller.isOpen fd false
  watched := Function.update poller.watched fd none }

def entered (poller : KvPoller) : KvPoller :=
  { (poller.schedule poller.turns).closes.foldr closed poller with turns := poller.turns + 1 }

def watching (fd : Int) (watched : Option Nat) (poller : KvPoller) : KvPoller :=
  { poller with watched := Function.update poller.watched fd watched }

/-- A call into the operating system. -/
def enter : Exec KvPoller KernelTurn := do
  let turn ← read fun poller => poller.schedule poller.turns
  update entered
  return turn

/-- `accept`, which returns a descriptor that is not in use, or -1. -/
def accept : Exec KvPoller Int := do
  let turn ← enter
  let isOpen ← read KvPoller.isOpen
  if turn.served ∧ 0 ≤ turn.fd ∧ isOpen turn.fd = false then
    update fun poller => { poller with isOpen := Function.update poller.isOpen turn.fd true }
    return turn.fd
  else return -1

def close (fd : Int) : Exec KvPoller Unit := do
  let _ ← enter
  update (closed fd)

/-- `epoll_ctl` with `EPOLL_CTL_ADD`. -/
def epollCtlAdd (fd : Int) (arg : Nat) : Exec KvPoller Bool := do
  let turn ← enter
  let poller ← read id
  if turn.served ∧ poller.isOpen fd ∧ poller.watched fd = none then
    update (watching fd (some arg))
    return true
  else return false

/-- `epoll_ctl` with `EPOLL_CTL_DEL`. -/
def epollCtlDel (fd : Int) : Exec KvPoller Bool := do
  let turn ← enter
  let watched ← read KvPoller.watched
  if turn.served ∧ watched fd ≠ none then
    update (watching fd none)
    return true
  else return false

/-- The length of `_evs`. -/
def evsLen : Nat := 81920

/-- What `epoll_wait` hands out of what is ready: at most one event of each watched descriptor. -/
def evs (ready : List (Int × UInt32)) (watched : Int → Option Nat) : List (Nat × UInt32) :=
  ((ready.pwFilter fun event other => event.1 ≠ other.1).filterMap fun event =>
    (watched event.1).map fun arg => (arg, event.2)).take evsLen

/-- `epoll_wait`. The loop goes on after `EINTR` as it does with no event. -/
def epollWait : Exec KvPoller (List (Nat × UInt32)) := do
  let turn ← enter
  if turn.served then return evs turn.ready (← read KvPoller.watched) else failed

/-- `_emap[fd]`, which makes an entry where there is none. -/
def emapAt (fd : Int) : Exec KvPoller (Option Nat) := do
  match ← read fun poller => poller.emap fd with
  | some arg => return arg
  | none =>
    update fun poller => { poller with emap := Function.update poller.emap fd (some none) }
    return none

/-- What a pointer to a `poller_arg` leads to. -/
def argAt (arg : Nat) : Exec KvPoller PollerArg := do
  match ← read fun poller => poller.args arg with
  | some content => return content
  | none => fault

/-- `delete` of a `poller_arg`. -/
def deleteArg : Option Nat → Exec KvPoller Unit
  | none => pure ()
  | some arg => do
    let _ ← argAt arg
    update fun poller => { poller with args := Function.update poller.args arg none }

def withArg (content : PollerArg) (poller : KvPoller) : KvPoller := { poller with
  args := Function.update poller.args poller.nextArg (some content)
  nextArg := poller.nextArg + 1
  emap := Function.update poller.emap content.fd (some (some poller.nextArg)) }

/-- `kv_poller::_regist`. -/
def regist (fd : Int) (events : UInt32) (rcb wcb : Option PollerCb) : Exec KvPoller Unit := do
  let arg ← read KvPoller.nextArg
  update (withArg ⟨fd, events ||| epollEt, rcb, wcb⟩)
  if ← epollCtlAdd fd arg then return () else failed

/-- `kv_poller::regist_r`. -/
def registR (fd : Int) (cb : PollerCb) : Exec KvPoller Unit := regist fd epollIn (some cb) none

/-- `kv_poller::_unregist`. -/
def unregist (fd : Int) : Exec KvPoller Unit := do
  let _ ← emapAt fd
  if ← epollCtlDel fd then
    deleteArg (← emapAt fd)
    update fun poller => { poller with emap := Function.update poller.emap fd none }
  else failed

def withWork (fd : Int) (poller : KvPoller) : KvPoller := { poller with
  workBufs := Function.update poller.workBufs fd (some poller.nextWork)
  nextWork := poller.nextWork + 1 }

/-- `kv_server::_new_work_buf`. -/
def newWorkBuf (fd : Int) : Exec KvPoller Unit := update (withWork fd)

/-- The way out of a callback whose connection is of no use. -/
def drop (fd : Int) : Exec KvPoller Unit := do
  close fd
  let _ ← attempt (unregist fd)

/-- Whether there is a new connection, and the poller has it. -/
def registered (cfd : Int) : Exec KvPoller Bool :=
  if cfd < 0 then return false else return (← attempt (registR cfd .cbReadSock)).isSome

/-- `kv_server::_cb_accept`. -/
def cbAccept (fd : Int) : Exec KvPoller Unit := do
  let cfd ← accept
  if ← registered cfd then newWorkBuf cfd
  else if 0 < fd then drop cfd

/-- `kv_server::_cb_read_sock`. -/
def cbReadSock (fd : Int) : Exec KvPoller Unit := do
  match ← read fun poller => poller.workBufs fd with
  | none => fault
  | some work =>
    match (← enter).outcome with
    | .failed => drop fd
    | .request =>
      update fun poller => { poller with queued := poller.queued ++ [(fd, work)] }
      newWorkBuf fd
    | .other => pure ()

/-- The call of a callback. One that is not set is a fault. -/
def runCb : Option PollerCb → Int → Exec KvPoller Unit
  | some .cbAccept, fd => cbAccept fd
  | some .cbReadSock, fd => cbReadSock fd
  | none, _ => fault

/-- What `kv_poller::loop` does with an event. The `poller_arg` is looked at again after
the first callback. -/
def handle (event : Nat × UInt32) : Exec KvPoller Unit := do
  let pa ← argAt event.1
  if hasEvent event.2 epollErr ∨ hasEvent event.2 epollHup then
    let _ ← attempt (unregist pa.fd)
  else
    if hasEvent pa.events epollIn then runCb pa.rcb pa.fd
    let pa ← argAt event.1
    if hasEvent pa.events epollOut then runCb pa.wcb pa.fd

/-- Some rounds of `kv_poller::loop`. -/
def loop : Nat → Exec KvPoller Unit
  | 0 => pure ()
  | rounds + 1 => do
    (← epollWait).forM handle
    loop rounds

/-- `kv_server::serv` on the thread of the poller. -/
def serv (listenSock : Int) (rounds : Nat) : Exec KvPoller Unit := do
  registR listenSock .cbAccept
  loop rounds

end KvPoller

end Pingkv
