import Mathlib.Logic.Function.Basic
import Pingkv.Server.Connection
import Pingkv.Server.Worker

/-! The calls of `kv_client` over the connection to one server, down to the
index call its worker makes and back. -/

namespace Pingkv

open Exec

/-- A client and the server behind one of its sockets. -/
structure Exchange (σ : Type) where
  connection : Connection
  /-- `_req_queue.size()`. -/
  queues : Nat
  run : IndexRun σ
  results : List KvWork
  /-- What the server has sent and the client has not received. -/
  inbox : List UInt8
  /-- What fresh memory of the client holds. -/
  junk : Mem
  /-- What the flag of a work reads as after the work was deleted. -/
  left : UInt16
  v : Option Buf
  vLen : Int

/-- A client: the sockets by the number of their server, as `_socks` has them. -/
structure KvClient (σ : Type) where
  serverCount : Int
  socks : Int → Exchange σ

namespace Exchange

variable {σ : Type}

/-- `send`, which sends all it is given. -/
def send (bytes : List UInt8) : Exec (Exchange σ) Nat := do
  update fun exchange => { exchange with connection := { exchange.connection with
    socket := { exchange.connection.socket with
      arriving := exchange.connection.socket.arriving ++ [bytes] } } }
  pure bytes.length

/-- The worker of a queue takes a work and sends back its result. There is no
queue behind an index outside `_req_queue`. -/
def serveOne (entry : Int × KvWork) : Exec (Exchange σ) Unit := do
  if 0 ≤ entry.1 ∧ entry.1 < (← read Exchange.queues) then
    let result ← within Exchange.run (fun run exchange => { exchange with run := run }) (operate entry.2)
    update fun exchange => { exchange with
      results := exchange.results ++ [result], inbox := exchange.inbox ++ result.bytes }
  else fault

def serveAll : List (Int × KvWork) → Exec (Exchange σ) Unit
  | [] => pure ()
  | entry :: rest => do
    serveOne entry
    serveAll rest

/-- The server handles one notification and the works that come of it. -/
def serve : Exec (Exchange σ) Unit := do
  let queued ← read fun exchange => exchange.connection.queued.length
  within Exchange.connection (fun connection exchange => { exchange with connection := connection })
    Connection.cbReadSock
  serveAll ((← read fun exchange => exchange.connection.queued).drop queued)

/-- With nothing to receive the client waits for the server. -/
def await : Exec (Exchange σ) Unit := do
  if (← read Exchange.inbox) = [] then serve

/-- `recv`, which returns all there is of what it is asked for. -/
def recv (asked : Nat) : Exec (Exchange σ) (List UInt8) := do
  await
  let inbox ← read Exchange.inbox
  if inbox = [] then exhausted
  else
    update fun exchange => { exchange with inbox := inbox.drop asked }
    pure (inbox.take asked)

/-- A field is sent if it is not empty. -/
def sendField (field : Option Buf) (len : Nat) : Exec (Exchange σ) Unit := do
  if 0 < len then
    let sent ← send (fieldBytes field len)
    if sent ≠ len then failed

/-- `kv_client::_send_work`. -/
def sendWork (work : KvWork) : Exec (Exchange σ) Unit := do
  let sent ← send work.head.bytes
  if sent ≠ headSize then failed
  else
    sendField work.field1 work.head.field1Len.toNat
    sendField work.field2 work.head.field2Len.toNat

/-- `recv` of all of a field into a buffer. -/
def recvInto (buf : Buf) (len : Nat) : Exec (Exchange σ) Buf := do
  if 0 < len then
    let bytes ← recv len
    if bytes.length ≠ len then failed
    else if buf.len < len then fault
    else pure ⟨buf.len, buf.byte.copy 0 (Buf.ofList bytes).byte len⟩
  else pure buf

/-- The second field has only the buffer the call has set; none is an address `recv` refuses. -/
def recvSecond : Option Buf → Nat → Exec (Exchange σ) (Option Buf)
  | some buf, len => some <$> recvInto buf len
  | none, len => if 0 < len then failed else pure none

/-- `kv_client::_recv_result`. -/
def recvResult (work : KvWork) : Exec (Exchange σ) KvWork := do
  let bytes ← recv headSize
  if bytes.length ≠ headSize then failed
  else
    let head := KvWorkHead.ofBytes bytes
    let field1 ← recvInto ⟨head.field1Len.toNat, ← read Exchange.junk⟩ head.field1Len.toNat
    let field2 ← recvSecond work.field2 head.field2Len.toNat
    pure { work with head := head, field1 := some field1, field2 := field2 }

/-- `strcpy`, which copies up to the first zero byte of the source; neither
buffer may be left on the way. -/
def strcpy (target source : Buf) : Exec (Exchange σ) Buf :=
  match source.toList.idxOf? 0 with
  | none => fault
  | some last =>
    if last < target.len then pure ⟨target.len, target.byte.copy 0 source.byte (last + 1)⟩ else fault

/-- `return (w->head.flag & KV_WORK_FLAG_SUC == KV_WORK_FLAG_SUC)` after `delete w`,
where `==` binds tighter than `&`. -/
def outcome : Exec (Exchange σ) Int := do
  let flag ← read Exchange.left
  pure (flag &&& (if WorkFlag.suc = WorkFlag.suc then 1 else 0)).toNat

/-- The work a call sends. -/
def request (flag : UInt16) (key : List UInt8) (value : Option (List UInt8)) : KvWork :=
  { newKvWork with
    head := ⟨flag ||| WorkFlag.req, .ofInt key.length, .ofInt (value.getD []).length⟩
    field1 := some (Buf.ofList key), field2 := value.map Buf.ofList }

/-- `kv_client::get`, behind the choice of the server. -/
def get (key : List UInt8) : Exec (Exchange σ) Int := do
  let work := request WorkFlag.get key none
  sendWork work
  let work ← recvResult work
  let len := work.head.field1Len.toNat
  update fun exchange => { exchange with vLen := len }
  let target : Buf := ⟨len, ← read Exchange.junk⟩
  let v ← strcpy target (work.field1.getD ⟨0, fun _ => 0⟩)
  update fun exchange => { exchange with v := some v }
  outcome

/-- `kv_client::set`. -/
def set (key value : List UInt8) : Exec (Exchange σ) Int := do
  let work := request WorkFlag.set key (some value)
  sendWork work
  let _ ← recvResult work
  outcome

/-- `kv_client::del`, which sends the flag of a get. -/
def del (key : List UInt8) : Exec (Exchange σ) Int := do
  let work := request WorkFlag.get key none
  sendWork work
  let _ ← recvResult work
  outcome

end Exchange

namespace KvClient

variable {σ : Type}

inductive Call where
  | get (key : List UInt8)
  | set (key value : List UInt8)
  | del (key : List UInt8)

def Call.key : Call → List UInt8
  | .get key => key
  | .set key _ => key
  | .del key => key

/-- The call on the socket of its server. -/
def Call.exchange : Call → Exec (Exchange σ) Int
  | .get key => Exchange.get key
  | .set key value => Exchange.set key value
  | .del key => Exchange.del key

/-- The socket of the server a call is sent to. -/
def socket (client : KvClient σ) (call : Call) : Exchange σ :=
  client.socks (getServerNo client.serverCount (some call.key))

/-- The number of that server lies inside `_socks`. -/
def HasServer (client : KvClient σ) (call : Call) : Prop :=
  0 ≤ getServerNo client.serverCount (some call.key) ∧
    getServerNo client.serverCount (some call.key) < client.serverCount

instance (client : KvClient σ) (call : Call) : Decidable (client.HasServer call) := inferInstanceAs (Decidable (_ ∧ _))

/-- A call on `_socks[server_no]`. -/
def perform (call : Call) : Exec (KvClient σ) Int := do
  if (← read id).HasServer call then
    within (fun client => client.socket call)
      (fun exchange client => { client with
        socks := Function.update client.socks (getServerNo client.serverCount (some call.key)) exchange })
      call.exchange
  else fault

end KvClient

end Pingkv
