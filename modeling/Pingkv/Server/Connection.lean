import Pingkv.Lib.Exec
import Pingkv.Route
import Pingkv.Server.Work

/-! One connection on the server: the byte stream that arrives on its socket,
and `kv_server::_cb_read_sock`, which the poller calls for each notification. -/

namespace Pingkv

open Exec

/-- The receiving side of a socket. Before each `recv` some more segments may
arrive, and `recv` may return less than is there; `schedule` says both for each
`recv`. The socket is blocking: with nothing there, `recv` waits for a segment. -/
structure Socket where
  arriving : List (List UInt8)
  unread : List UInt8
  schedule : Nat → Nat × Nat
  recvs : Nat
  /-- Whether some `recv` returned fewer bytes than it was asked for, with more to come. -/
  short : Bool

namespace Socket

/-- Everything that is still to be read. -/
def stream (socket : Socket) : List UInt8 := socket.unread ++ socket.arriving.flatten

/-- Wait until there is something to read. -/
def await : List UInt8 → List (List UInt8) → List UInt8 × List (List UInt8)
  | [], segment :: rest => await segment rest
  | unread, arriving => (unread, arriving)

/-- `recv(fd, .., asked, 0)`. -/
def recv (asked : Nat) : Exec Socket (List UInt8) := do
  let socket ← read id
  let choice := socket.schedule socket.recvs
  let (unread, arriving) := await (socket.unread ++ (socket.arriving.take choice.1).flatten)
    (socket.arriving.drop choice.1)
  if unread = [] then exhausted
  else
    let count := max 1 (min choice.2 (min asked unread.length))
    let bytes := unread.take count
    update fun socket => { socket with
      arriving := arriving
      unread := unread.drop count
      recvs := socket.recvs + 1
      short := socket.short || decide (bytes.length < asked ∧ unread.drop count ++ arriving.flatten ≠ []) }
    pure bytes

theorem await_stream (unread : List UInt8) (arriving : List (List UInt8)) :
    (await unread arriving).1 ++ (await unread arriving).2.flatten = unread ++ arriving.flatten := by
  induction arriving generalizing unread with
  | nil => cases unread <;> rfl
  | cons segment rest ih =>
    cases unread with
    | nil => rw [await, ih, List.nil_append, List.flatten_cons]
    | cons byte unread => rfl

/-- With nothing to read after the wait, nothing more arrives. -/
theorem await_nil {unread : List UInt8} {arriving : List (List UInt8)} (none_ : (await unread arriving).1 = []) :
    unread ++ arriving.flatten = [] := by
  rw [← await_stream]
  induction arriving generalizing unread with
  | nil => cases unread <;> simp_all [await]
  | cons segment rest ih =>
    cases unread with
    | nil => exact ih none_
    | cons byte unread => simp [await] at none_

/-- A `recv` takes a prefix of the stream, at most what it was asked for. -/
theorem recv_spec {asked : Nat} (positive : 0 < asked) (socket : Socket) :
    wp (recv asked)
      (fun bytes after => socket.stream = bytes ++ after.stream ∧ 0 < bytes.length ∧ bytes.length ≤ asked ∧
        after.short = (socket.short || decide (bytes.length < asked ∧ after.stream ≠ [])))
      (fun reason after => reason = .exhausted ∧ socket.stream = [] ∧ after = socket) socket := by
  have kept : (await (socket.unread ++ (socket.arriving.take (socket.schedule socket.recvs).1).flatten)
      (socket.arriving.drop (socket.schedule socket.recvs).1)).1 ++
      (await (socket.unread ++ (socket.arriving.take (socket.schedule socket.recvs).1).flatten)
        (socket.arriving.drop (socket.schedule socket.recvs).1)).2.flatten = socket.stream := by
    rw [await_stream, stream, List.append_assoc, ← List.flatten_append, List.take_append_drop]
  unfold recv
  refine wp_bind_ok (read_run id socket) ?_
  simp only [id]
  split
  · rename_i none_
    apply wp_of_error (exhausted_run socket)
    refine ⟨rfl, ?_, rfl⟩
    rw [← kept, await_stream]
    exact await_nil none_
  · rename_i present
    have counted := List.length_pos_iff.mpr present
    refine wp_bind_ok (update_run _ socket) (wp_pure ⟨?_, ?_, ?_, ?_⟩)
    · rw [← kept]
      simp only [stream, ← List.append_assoc, List.take_append_drop]
    · rw [List.length_take]
      omega
    · rw [List.length_take]
      omega
    · rfl

/-- Once set, the mark of a short `recv` stays. -/
theorem recv_short (asked : Nat) : Keeps (fun socket : Socket => socket.short = true) (recv asked) := by
  intro socket short
  unfold recv
  refine wp_bind_ok (read_run id socket) ?_
  simp only [id]
  split
  · exact wp_of_error (exhausted_run socket) short
  · refine wp_bind_ok (update_run _ socket) (wp_pure ?_)
    simp only at short ⊢
    rw [short, Bool.true_or]

/-- All that will come has come by the next `recv`, which returns all it is asked for. -/
def Prompt (socket : Socket) : Prop :=
  socket.short = false ∧ ∀ recv, socket.arriving.length ≤ (socket.schedule recv).1 ∧ 65536 ≤ (socket.schedule recv).2

/-- On such a socket only the end of the stream cuts a `recv` short. -/
theorem recv_prompt {asked : Nat} (short : asked < 65536) : Keeps Prompt (recv asked) := by
  intro socket prompt
  have bounds := prompt.2 socket.recvs
  have none_ : socket.arriving.drop (socket.schedule socket.recvs).1 = [] := List.drop_eq_nil_of_le bounds.1
  have waited (unread : List UInt8) : await unread [] = (unread, []) := by cases unread <;> rfl
  unfold recv
  refine wp_bind_ok (read_run id socket) ?_
  simp only [id, none_, waited]
  split
  · exact wp_of_error (exhausted_run socket) prompt
  · rename_i present
    refine wp_bind_ok (update_run _ socket) (wp_pure ⟨?_, fun _ => ⟨Nat.zero_le _, (prompt.2 _).2⟩⟩)
    have counted := List.length_pos_iff.mpr present
    simp only [prompt.1, Bool.false_or, decide_eq_false_iff_not, List.length_take, List.flatten_nil, List.append_nil]
    rintro ⟨few, more⟩
    have left := List.length_pos_iff.mpr more
    rw [List.length_drop] at left
    omega

/-- Each of some `recv`s made one after the other returns all it is asked for. -/
def Gives : List Nat → Socket → Prop
  | [], _ => True
  | asked :: rest, socket =>
    (recv asked socket).1.toOption.map List.length = some asked ∧ Gives rest (recv asked socket).2

instance Gives.decidable : (asks : List Nat) → (socket : Socket) → Decidable (Gives asks socket)
  | [], _ => isTrue trivial
  | asked :: rest, socket =>
    have := Gives.decidable rest (recv asked socket).2
    inferInstanceAs (Decidable (_ ∧ _))

/-- The same of a socket on which no `recv` has been short. -/
def Plenty (asks : List Nat) (socket : Socket) : Prop := socket.short = false ∧ Gives asks socket

theorem recv_plenty {asked : Nat} {rest : List Nat} (positive : 0 < asked) {socket : Socket}
    (plenty : Plenty (asked :: rest) socket) : wp (recv asked) (fun _ => Plenty rest) (fun _ _ => False) socket := by
  obtain ⟨unshort, whole, later⟩ := plenty
  rcases (recv_spec positive socket).cases with ⟨bytes, after, run, _, _, _, short⟩ | ⟨reason, after, run, _⟩
  · rw [run] at whole later
    have len : bytes.length = asked := Option.some.inj whole
    apply wp_of_ok run
    refine ⟨?_, later⟩
    simp only [short, unshort, len, Nat.lt_irrefl, false_and, decide_false, Bool.or_self]
  · rw [run] at whole
    cases whole

end Socket

/-- What `_cb_read_sock` works on for one connection. -/
structure Connection where
  socket : Socket
  fileCount : Int
  /-- `_work_bufs[fd]`. -/
  work : KvWork
  /-- What fresh memory holds. -/
  junk : Mem
  /-- The works put on request queues, with the index into `_req_queue`. -/
  queued : List (Int × KvWork)
  /-- For each `recv` into a field the bytes asked for and the size of its buffer. -/
  asks : List (Nat × Nat)
  closed : Bool

namespace Connection

/-- A connection as `_cb_accept` sets it up, with the stream that will arrive. -/
def accept (fileCount : Int) (junk : Mem) (segments : List (List UInt8)) (schedule : Nat → Nat × Nat) :
    Connection :=
  { socket := { arriving := segments, unread := [], schedule := schedule, recvs := 0, short := false }
    fileCount := fileCount, work := newKvWork, junk := junk, queued := [], asks := [], closed := false }

def recv (asked : Nat) : Exec Connection (List UInt8) :=
  within Connection.socket (fun socket connection => { connection with socket := socket }) (Socket.recv asked)

/-- The result of this `recv` is compared with -1 only: a head of fewer bytes
leaves the rest of the old one in place. -/
def recvHead : Exec Connection Unit := do
  let bytes ← recv headSize
  update fun connection => { connection with
    work := { connection.work with
      head := .ofBytes (bytes ++ connection.work.head.bytes.drop bytes.length) } }

/-- The buffer of a field, allocated for `len` bytes if there is none. -/
def fieldBuf (field : Field) (len : Nat) : Exec Connection Buf := do
  match (← read Connection.work).buf field with
  | some buf => pure buf
  | none =>
    let buf : Buf := ⟨len, ← read Connection.junk⟩
    update fun connection => { connection with work := connection.work.withBuf field buf }
    pure buf

/-- `recv` into a field. Bytes behind the end of its buffer are a fault. -/
def recvField (field : Field) : Exec Connection Unit := do
  let len := (← read Connection.work).head.len field
  if len ≠ 0 then
    let buf ← fieldBuf field len
    update fun connection => { connection with asks := connection.asks ++ [(len, buf.len)] }
    let bytes ← recv len
    if buf.len < bytes.length then fault
    else
      update fun connection => { connection with
        work := connection.work.withBuf field
          ⟨buf.len, buf.byte.copy 0 (Buf.ofList bytes).byte bytes.length⟩ }
      if bytes.length ≠ len then failed

/-- A request goes to a queue and the connection gets a new work; anything else
stays in the work of the connection. -/
def dispatch : Exec Connection Unit := do
  let work ← read Connection.work
  if WorkFlag.Has work.head.flag WorkFlag.req then
    update fun connection => { connection with
      queued := connection.queued ++
        [(requestQueue connection.fileCount (fieldBytes work.field1 work.head.field1Len.toNat), work)]
      work := newKvWork }

/-- `kv_server::_cb_read_sock`, which closes the connection where it fails. -/
def cbReadSock : Exec Connection Unit := do
  let done ← attempt do
    recvHead
    recvField .field1
    recvField .field2
    dispatch
  if done = none then update fun connection => { connection with closed := true }

/-- The poller calls back once for each of so many notifications, while the
connection is registered. -/
def notices : Nat → Exec Connection Unit
  | 0 => pure ()
  | count + 1 => do
    if (← read Connection.closed) = false then
      cbReadSock
      notices count

/-- The index of a request lies inside `_req_queue`. -/
def Inside (fileCount : Int) (queues : Nat) (request : Message) : Prop :=
  0 ≤ requestQueue fileCount request.field1 ∧ requestQueue fileCount request.field1 < queues

section Keeps

variable {good : Socket → Prop}

/-- A property of the socket of a connection. -/
def OnSocket (good : Socket → Prop) (connection : Connection) : Prop := good connection.socket

theorem recv_keeps {asked : Nat} (kept : Keeps good (Socket.recv asked)) : Keeps (OnSocket good) (recv asked) :=
  fun connection holds => wp_within ((kept connection.socket holds).mono (fun _ _ holds => holds) fun _ _ holds => holds)

variable (kept : ∀ asked < 65536, Keeps good (Socket.recv asked))

include kept

theorem recvHead_keeps : Keeps (OnSocket good) recvHead :=
  (recv_keeps (kept headSize (by decide))).bind fun _ => keeps_update fun _ holds => holds

omit kept in
theorem fieldBuf_keeps (field : Field) (len : Nat) : Keeps (OnSocket good) (fieldBuf field len) := by
  refine (keeps_read _).bind fun work => ?_
  split
  · exact keeps_pure _
  · refine (keeps_read _).bind fun junk => ?_
    exact Keeps.bind (keeps_update fun _ holds => holds) fun _ => keeps_pure _

theorem recvField_keeps (field : Field) : Keeps (OnSocket good) (recvField field) := by
  refine (keeps_read _).bind fun work => ?_
  apply keeps_ite _ (keeps_pure _)
  refine (fieldBuf_keeps field _).bind fun buf => ?_
  refine Keeps.bind (keeps_update fun _ holds => holds) fun _ => ?_
  refine (recv_keeps (kept _ (work.head.len_lt field))).bind fun bytes => ?_
  apply keeps_ite (keeps_stop _)
  refine Keeps.bind (keeps_update fun _ holds => holds) fun _ => ?_
  exact keeps_ite (keeps_stop _) (keeps_pure _)

omit kept in
theorem dispatch_keeps : Keeps (OnSocket good) dispatch :=
  (keeps_read _).bind fun _ => keeps_ite (keeps_update fun _ holds => holds) (keeps_pure _)

theorem cbReadSock_keeps : Keeps (OnSocket good) cbReadSock := by
  refine Keeps.bind (Keeps.attempt ?_) fun done => keeps_ite (keeps_update fun _ holds => holds) (keeps_pure _)
  refine (recvHead_keeps kept).bind fun _ => (recvField_keeps kept .field1).bind fun _ => ?_
  exact (recvField_keeps kept .field2).bind fun _ => dispatch_keeps

end Keeps

/-- A `recv` has returned fewer bytes than it was asked for, with more to come. -/
def Short : Connection → Prop := OnSocket fun socket => socket.short = true

theorem recv_short (asked : Nat) : Keeps Short (recv asked) := recv_keeps (Socket.recv_short asked)

theorem recvField_short (field : Field) : Keeps Short (recvField field) :=
  recvField_keeps (fun asked _ => Socket.recv_short asked) field

theorem dispatch_short : Keeps Short dispatch := dispatch_keeps

theorem cbReadSock_short : Keeps Short cbReadSock := cbReadSock_keeps fun asked _ => Socket.recv_short asked

theorem notices_short (count : Nat) : Keeps Short (notices count) := by
  induction count with
  | zero => exact keeps_pure _
  | succ count ih =>
    refine (keeps_read _).bind fun closed => ?_
    exact keeps_ite (cbReadSock_short.bind fun _ => ih) (keeps_pure _)

end Connection

end Pingkv
