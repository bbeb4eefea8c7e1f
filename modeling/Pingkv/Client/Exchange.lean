import Pingkv.Client.Calls
import Pingkv.Server.Receive

/-! One call of a client that is sent and received whole: the work it sends,
the index call it becomes on the server, and the result that comes back. -/

namespace Pingkv

open Exec

theorem fieldBytes_ofList {bytes : List UInt8} {count : Nat} (within : count ≤ bytes.length) :
    fieldBytes (some (Buf.ofList bytes)) count = bytes.take count := by
  apply List.ext_getElem
  · simp [fieldBytes, within]
  · intro place below inside
    simp only [List.length_take] at inside
    have present : place < bytes.length := by omega
    simp [fieldBytes, Mem.slice_getElem, Buf.ofList, List.getD_eq_getElem?_getD, present]

/-- A length converted to `uint16_t`. -/
theorem toNat_ofInt (len : Nat) : (UInt16.ofInt len).toNat = len % 65536 := by
  have cast : ((len : Int) % 2 ^ 16).toNat = len % 65536 := by omega
  rw [UInt16.ofInt, cast, UInt16.toNat_ofNat', Nat.mod_mod]

namespace Exchange

variable {σ : Type}

/-- The message of a call: its lengths are cut to 16 bits, and its fields with them. -/
def message (flag : UInt16) (key value : List UInt8) : Message where
  flag := flag ||| WorkFlag.req
  field1 := key.take (key.length % 65536)
  field2 := value.take (value.length % 65536)
  short1 := by
    rw [List.length_take]
    omega
  short2 := by
    rw [List.length_take]
    omega

theorem take_length (bytes : List UInt8) : (bytes.take (bytes.length % 65536)).length = bytes.length % 65536 := by
  rw [List.length_take]
  omega

theorem request_head (flag : UInt16) (key : List UInt8) (value : Option (List UInt8)) :
    (request flag key value).head = (message flag key (value.getD [])).head := by
  have narrow (bytes : List UInt8) :
      UInt16.ofInt bytes.length = UInt16.ofNat (bytes.take (bytes.length % 65536)).length := by
    apply UInt16.toNat_inj.mp
    rw [toNat_ofInt, take_length, UInt16.toNat_ofNat', Nat.mod_mod]
  simp only [request, message, Message.head, narrow]

/-- A connection with nothing under way. -/
structure Idle (exchange : Exchange σ) : Prop where
  stream : exchange.connection.socket.stream = []
  work : exchange.connection.work = newKvWork
  inbox : exchange.inbox = []

section Keeps

variable {good : Socket → Prop}

/-- A property of the socket of the server. -/
def OnSocket (good : Socket → Prop) (exchange : Exchange σ) : Prop := exchange.connection.OnSocket good

variable (kept : ∀ asked < 65536, Keeps good (Socket.recv asked))

theorem serveAll_keeps (entries : List (Int × KvWork)) :
    Keeps (OnSocket good) (serveAll entries : Exec (Exchange σ) Unit) := by
  induction entries with
  | nil => exact keeps_pure ()
  | cons entry rest ih =>
    refine Keeps.bind ((keeps_read _).bind fun queues => ?_) fun _ => ih
    refine keeps_ite (Keeps.bind (fun exchange holds => ?_) fun result => keeps_update fun _ holds => holds)
      (keeps_stop _)
    exact wp_within (wp_always.mono (fun _ _ _ => holds) fun _ _ _ => holds)

include kept

theorem serve_keeps : Keeps (OnSocket good) (serve : Exec (Exchange σ) Unit) := by
  refine (keeps_read _).bind fun queued => Keeps.bind (fun exchange holds => ?_) fun _ =>
    (keeps_read _).bind fun entries => serveAll_keeps _
  exact wp_within ((Connection.cbReadSock_keeps kept exchange.connection holds).mono (fun _ _ holds => holds)
    fun _ _ holds => holds)

theorem recv_keeps (asked : Nat) : Keeps (OnSocket good) (recv asked : Exec (Exchange σ) (List UInt8)) := by
  have awaited : Keeps (OnSocket good) (await : Exec (Exchange σ) Unit) :=
    (keeps_read _).bind fun inbox => keeps_ite (serve_keeps kept) (keeps_pure ())
  refine awaited.bind fun _ => (keeps_read _).bind fun inbox => keeps_ite (keeps_stop _) ?_
  exact Keeps.bind (keeps_update fun _ holds => holds) fun _ => keeps_pure _

theorem recvInto_keeps (buf : Buf) (len : Nat) :
    Keeps (OnSocket good) (recvInto buf len : Exec (Exchange σ) Buf) := by
  refine keeps_ite ((recv_keeps kept len).bind fun bytes => ?_) (keeps_pure _)
  exact keeps_ite (keeps_stop _) (keeps_ite (keeps_stop _) (keeps_pure _))

theorem recvSecond_keeps (field : Option Buf) (len : Nat) :
    Keeps (OnSocket good) (recvSecond field len : Exec (Exchange σ) (Option Buf)) := by
  cases field with
  | none => exact keeps_ite (keeps_stop _) (keeps_pure _)
  | some buf => exact (recvInto_keeps kept buf len).bind fun _ => keeps_pure _

/-- What is received behind the head of a result. -/
theorem recvFields_keeps (work : KvWork) (head : KvWorkHead) : Keeps (OnSocket good) (do
    let field1 ← recvInto ⟨head.field1Len.toNat, ← read Exchange.junk⟩ head.field1Len.toNat
    let field2 ← recvSecond work.field2 head.field2Len.toNat
    pure { work with head := head, field1 := some field1, field2 := field2 } : Exec (Exchange σ) KvWork) :=
  (keeps_read _).bind fun _ => (recvInto_keeps kept _ _).bind fun _ =>
    (recvSecond_keeps kept _ _).bind fun _ => keeps_pure _

theorem recvResult_keeps (work : KvWork) :
    Keeps (OnSocket good) (recvResult work : Exec (Exchange σ) KvWork) :=
  (recv_keeps kept _).bind fun _ => keeps_ite (keeps_stop _) (recvFields_keeps kept work _)

omit kept in
theorem strcpy_keeps (target source : Buf) :
    Keeps (OnSocket good) (strcpy target source : Exec (Exchange σ) Buf) := by
  unfold strcpy
  split
  · exact keeps_stop _
  · exact keeps_ite (keeps_pure _) (keeps_stop _)

omit kept in
theorem outcome_keeps : Keeps (OnSocket good) (outcome : Exec (Exchange σ) Int) :=
  (keeps_read _).bind fun _ => keeps_pure _

omit kept in
/-- What a get does with its result. -/
theorem copyValue_keeps (received : KvWork) : Keeps (OnSocket good) (do
    let len := received.head.field1Len.toNat
    update fun exchange => { exchange with vLen := len }
    let target : Buf := ⟨len, ← read Exchange.junk⟩
    let v ← strcpy target (received.field1.getD ⟨0, fun _ => 0⟩)
    update fun exchange => { exchange with v := some v }
    outcome : Exec (Exchange σ) Int) := by
  refine Keeps.bind (keeps_update fun _ holds => holds) fun _ => (keeps_read _).bind fun junk => ?_
  exact (strcpy_keeps _ _).bind fun _ => Keeps.bind (keeps_update fun _ holds => holds) fun _ => outcome_keeps

end Keeps

/-- Some `recv` of the server returned fewer bytes than it was asked for, with more to come. -/
def Short (exchange : Exchange σ) : Prop := OnSocket (fun socket => socket.short = true) exchange

instance (exchange : Exchange σ) : Decidable exchange.Short :=
  inferInstanceAs (Decidable (exchange.connection.socket.short = true))

theorem short_kept (asked : Nat) (_ : asked < 65536) :
    Keeps (fun socket : Socket => socket.short = true) (Socket.recv asked) := Socket.recv_short asked

/-- An exchange after more segments were sent. -/
def arrive (exchange : Exchange σ) (segments : List (List UInt8)) : Exchange σ :=
  { exchange with connection := { exchange.connection with
      socket := { exchange.connection.socket with arriving := exchange.connection.socket.arriving ++ segments } } }

/-- More bytes were sent, in at most so many segments. -/
def Sent (sends : Nat) (before after : Exchange σ) (bytes : List UInt8) : Prop :=
  ∃ segments, segments.length ≤ sends ∧ segments.flatten = bytes ∧ after = before.arrive segments

theorem arrive_stream (exchange : Exchange σ) (segments : List (List UInt8)) :
    (exchange.arrive segments).connection.socket.stream =
      exchange.connection.socket.stream ++ segments.flatten := by
  simp only [arrive, Socket.stream, List.flatten_append, List.append_assoc]

theorem Sent.nothing (exchange : Exchange σ) : Sent 1 exchange exchange [] := by
  refine ⟨[], Nat.zero_le _, rfl, ?_⟩
  simp only [arrive, List.append_nil]

theorem send_run (exchange : Exchange σ) (bytes : List UInt8) :
    ∃ after, send bytes exchange = (.ok bytes.length, after) ∧ Sent 1 exchange after bytes :=
  ⟨_, rfl, [bytes], Nat.le_refl _, List.flatten_singleton, rfl⟩

theorem Sent.trans {sends more : Nat} {before middle after : Exchange σ} {bytes later : List UInt8}
    (first : Sent sends before middle bytes) (second : Sent more middle after later) :
    Sent (sends + more) before after (bytes ++ later) := by
  obtain ⟨segments, few, rfl, rfl⟩ := first
  obtain ⟨segments', few', rfl, rfl⟩ := second
  refine ⟨segments ++ segments', ?_, List.flatten_append, ?_⟩
  · rw [List.length_append]
    exact Nat.add_le_add few few'
  · simp only [arrive, List.append_assoc]

/-- A field is sent whole, or not at all when it is empty. -/
theorem sendField_run (exchange : Exchange σ) (field : Option Buf) (len : Nat) (held : 0 < len → field.isSome) :
    ∃ after, sendField field len exchange = (.ok (), after) ∧ Sent 1 exchange after (fieldBytes field len) := by
  unfold sendField
  cases field with
  | none =>
    have empty : ¬ 0 < len := fun positive => absurd (held positive) (by decide)
    rw [if_neg empty]
    exact ⟨exchange, rfl, Sent.nothing exchange⟩
  | some buf =>
    split
    · obtain ⟨after, run, sent⟩ := send_run exchange (fieldBytes (some buf) len)
      refine ⟨after, ?_, sent⟩
      have whole : ¬ (fieldBytes (some buf) len).length ≠ len := fun short => short (Mem.slice_length ..)
      rw [bind_ok run, if_neg whole]
      rfl
    · rename_i empty
      obtain rfl : len = 0 := by omega
      exact ⟨exchange, rfl, Sent.nothing exchange⟩

/-- `_send_work` sends the message of its call. -/
theorem sendWork_run (exchange : Exchange σ) (flag : UInt16) (key : List UInt8) (value : Option (List UInt8)) :
    ∃ after, sendWork (request flag key value) exchange = (.ok (), after) ∧
      Sent 3 exchange after (message flag key (value.getD [])).bytes := by
  obtain ⟨first, run1, sent1⟩ := send_run exchange (request flag key value).head.bytes
  obtain ⟨second, run2, sent2⟩ := sendField_run first (some (Buf.ofList key))
    (request flag key value).head.field1Len.toNat fun _ => rfl
  obtain ⟨third, run3, sent3⟩ := sendField_run second (value.map Buf.ofList)
    (request flag key value).head.field2Len.toNat fun positive => by
      cases value with
      | none => exact absurd positive (Nat.lt_irrefl 0)
      | some value => rfl
  refine ⟨third, ?_, ?_⟩
  · have whole : ¬ (request flag key value).head.bytes.length ≠ headSize := fun short => short rfl
    rw [sendWork, bind_ok run1, if_neg whole]
    exact (bind_ok run2).trans run3
  · have text1 : fieldBytes (some (Buf.ofList key)) (request flag key value).head.field1Len.toNat =
        (message flag key (value.getD [])).field1 := by
      rw [request, toNat_ofInt]
      exact fieldBytes_ofList (Nat.mod_le ..)
    have text2 : fieldBytes (value.map Buf.ofList) (request flag key value).head.field2Len.toNat =
        (message flag key (value.getD [])).field2 := by
      rw [request, toNat_ofInt]
      cases value with
      | none => rfl
      | some value => exact fieldBytes_ofList (Nat.mod_le ..)
    have whole := (sent1.trans sent2).trans sent3
    rwa [text1, text2, request_head, List.append_assoc] at whole

/-- What the index answers to a call now. -/
def answer (exchange : Exchange σ) (call : IndexCall) : IndexAnswer := (exchange.run.answer call exchange.run.index).1

/-- The result of the call a message stands for. -/
def result (exchange : Exchange σ) (message : Message) (kind : IndexCall.Kind) : KvWork :=
  resultOf kind (exchange.answer (message.call kind))

/-- What an idle exchange has become once the server has handled a message:
one call on its index, and the result of that call on its way back. -/
structure Served (before after : Exchange σ) (message : Message) (kind : IndexCall.Kind) : Prop where
  inside : Connection.Inside before.connection.fileCount before.queues message
  calls : after.run.calls = before.run.calls ++ [message.call kind]
  results : after.results = before.results ++ [result before message kind]
  stream : after.connection.socket.stream = []
  junk : after.junk = before.junk
  left : after.left = before.left

/-- A message whose index lies outside `_req_queue` ends the server. -/
structure Lost (before after : Exchange σ) (message : Message) (reason : Stop) : Prop where
  reason : reason = .fault
  outside : ¬ Connection.Inside before.connection.fileCount before.queues message
  run : after.run = before.run

theorem serveOne_inside {exchange : Exchange σ} {entry : Int × KvWork} {result : KvWork} {run : IndexRun σ}
    (inside : 0 ≤ entry.1 ∧ entry.1 < exchange.queues) (operated : operate entry.2 exchange.run = (.ok result, run)) :
    serveOne entry exchange = (.ok (), { exchange with
      run := run, results := exchange.results ++ [result], inbox := exchange.inbox ++ result.bytes }) := by
  have ran : within Exchange.run (fun run exchange => { exchange with run := run }) (operate entry.2) exchange =
      (.ok result, { exchange with run := run }) := by
    simp only [within, operated]
  rw [serveOne, read_bind_run, if_pos inside, bind_ok ran]
  rfl

theorem serveOne_outside {exchange : Exchange σ} {entry : Int × KvWork}
    (outside : ¬ (0 ≤ entry.1 ∧ entry.1 < exchange.queues)) :
    serveOne entry exchange = (.error .fault, exchange) := by
  rw [serveOne, read_bind_run, if_neg outside]
  rfl

theorem serve_spec {exchange : Exchange σ} {message : Message} {kind : IndexCall.Kind}
    (ahead : exchange.connection.socket.stream = message.bytes) (work : exchange.connection.work = newKvWork)
    (inbox : exchange.inbox = [])
    (request : message.IsRequest)
    (stands : kindOf message.flag = some kind) :
    wp serve (fun _ after => after.Short ∨ Served exchange after message kind ∧
        after.inbox = (result exchange message kind).bytes)
      (fun reason after => after.Short ∨ Lost exchange after message reason) exchange := by
  have sizes : exchange.connection.sizes = fun _ => none := by
    funext field
    rw [Connection.sizes, work]
    cases field <;> rfl
  have last : exchange.connection.socket.stream = message.bytes ++ [] := by rw [ahead, List.append_nil]
  have called : wp (within Exchange.connection (fun connection exchange => { exchange with connection := connection })
        Connection.cbReadSock)
      (fun _ after => after.Short ∨ ∃ connection, Connection.Received exchange.connection connection message [] ∧
        after = { exchange with connection := connection })
      (fun reason after => after.Short ∨ Lost exchange after message reason) exchange := by
    apply wp_within
    apply (Connection.cbReadSock_spec last).mono
    · intro _ connection holds
      exact holds.imp_right fun received => ⟨connection, received, rfl⟩
    · rintro _ connection (short | exceeded)
      · exact .inl short
      · obtain ⟨field, misfit⟩ := exceeded.misfit
        rw [sizes] at misfit
        exact absurd misfit (Nat.lt_irrefl _)
  refine wp_bind_ok (read_run _ exchange) ?_
  refine wp_bind called ?_
  · rintro _ after (short | ⟨connection, received, rfl⟩)
    · have kept := ((keeps_read fun exchange : Exchange σ => exchange.connection.queued).bind fun entries =>
        serveAll_keeps (entries.drop exchange.connection.queued.length)) after short
      exact kept.mono (fun _ _ => .inl) fun _ _ => .inl
    · obtain ⟨fresh, work, holds, queued⟩ := received.request request
      have entries : connection.queued.drop exchange.connection.queued.length =
          [(requestQueue exchange.connection.fileCount message.field1, work)] := by
        rw [queued, List.drop_left]
      refine wp_bind_ok (read_run _ _) ?_
      simp only [entries, serveAll]
      have flag : kindOf work.head.flag = some kind := by rwa [holds.head]
      have operated := operate_run flag exchange.run
      rw [holds.call] at operated
      by_cases inside : Connection.Inside exchange.connection.fileCount exchange.queues message
      · refine wp_bind_ok (serveOne_inside inside operated) (wp_pure (.inr ⟨?_, ?_⟩))
        · exact ⟨inside, rfl, rfl, received.stream, rfl, rfl⟩
        · rw [inbox, List.nil_append]
          rfl
      · exact wp_of_error (bind_error (serveOne_outside inside)) (.inr ⟨rfl, inside, rfl⟩)

/-- A connection with nothing more to come leaves the server waiting. -/
theorem serve_idle {exchange : Exchange σ} (stream : exchange.connection.socket.stream = []) :
    serve exchange = (.error .exhausted, exchange) := by
  have idle : within Exchange.connection (fun connection exchange => { exchange with connection := connection })
      Connection.cbReadSock exchange = (.error .exhausted, exchange) := by
    simp only [within, Connection.cbReadSock_idle stream]
  rw [serve, read_bind_run]
  exact bind_error idle

theorem recv_run {exchange : Exchange σ} (some_ : exchange.inbox ≠ []) (asked : Nat) :
    recv asked exchange =
      (.ok (exchange.inbox.take asked), { exchange with inbox := exchange.inbox.drop asked }) := by
  have awaited : await exchange = (.ok (), exchange) := by
    rw [await, read_bind_run, if_neg some_]
    rfl
  rw [recv, bind_ok awaited, read_bind_run, if_neg some_]
  rfl

/-- A field that has come is received into a buffer of its length. -/
theorem recvInto_run {exchange : Exchange σ} {buf : Buf} (size : buf.len = exchange.inbox.length) :
    ∃ filled, recvInto buf buf.len exchange = (.ok filled, { exchange with inbox := [] }) ∧
      filled.len = buf.len ∧ filled.toList = exchange.inbox := by
  unfold recvInto
  split
  · rename_i positive
    rw [size] at positive
    have some_ := List.ne_nil_of_length_pos positive
    have all : exchange.inbox.take buf.len = exchange.inbox := by rw [size, List.take_length]
    refine ⟨⟨buf.len, buf.byte.copy 0 (Buf.ofList exchange.inbox).byte buf.len⟩, ?_, rfl, ?_⟩
    · rw [bind_ok (recv_run some_ buf.len), all, if_neg (by omega), if_neg (Nat.lt_irrefl _), size, List.drop_length]
      rfl
    · rw [Buf.toList, Mem.slice_copy, size]
      exact Buf.toList_ofList exchange.inbox
  · rename_i empty
    have none_ : exchange.inbox = [] := List.length_eq_zero_iff.mp (by omega)
    refine ⟨buf, ?_, rfl, ?_⟩
    · rw [← none_]
      rfl
    · rw [none_, ← List.length_eq_zero_iff, Buf.toList_length]
      omega

theorem resultOf_field2 (kind : IndexCall.Kind) (answer : IndexAnswer) :
    (resultOf kind answer).field2 = none ∧ (resultOf kind answer).head.field2Len.toNat = 0 := by
  unfold resultOf
  split
  · cases kind <;> exact ⟨rfl, rfl⟩
  · exact ⟨rfl, rfl⟩

theorem result_field2 (exchange : Exchange σ) (message : Message) (kind : IndexCall.Kind) :
    (exchange.result message kind).field2 = none ∧ (exchange.result message kind).head.field2Len.toNat = 0 :=
  resultOf_field2 kind _

/-- The client holds the result of its call: the head, and the field in a buffer of its length. -/
structure Holds (work : KvWork) (result : KvWork) : Prop where
  head : work.head = result.head
  field1 : ∃ buf, work.field1 = some buf ∧ buf.len = result.head.field1Len.toNat ∧
    buf.toList = fieldBytes result.field1 result.head.field1Len.toNat
  whole : 0 < result.head.field1Len.toNat → result.field1.isSome

/-- A server that has handled what was sent just before. -/
theorem Served.ofArrived {before after : Exchange σ} {segments : List (List UInt8)} {message : Message}
    {kind : IndexCall.Kind} (served : Served (before.arrive segments) after message kind) :
    Served before after message kind :=
  ⟨served.inside, served.calls, served.results, served.stream, served.junk, served.left⟩

theorem Served.withValue {before after : Exchange σ} {message : Message} {kind : IndexCall.Kind}
    (served : Served before after message kind) (v : Option Buf) (vLen : Int) :
    Served before { after with v := v, vLen := vLen } message kind :=
  ⟨served.inside, served.calls, served.results, served.stream, served.junk, served.left⟩

theorem Served.withInbox {before after : Exchange σ} {message : Message} {kind : IndexCall.Kind}
    (served : Served before after message kind) (inbox : List UInt8) :
    Served before { after with inbox := inbox } message kind :=
  ⟨served.inside, served.calls, served.results, served.stream, served.junk, served.left⟩

/-- A `recv` of the head of a result lets the server handle the message first. -/
theorem recvHead_spec {exchange : Exchange σ} {message : Message} {kind : IndexCall.Kind}
    (ahead : exchange.connection.socket.stream = message.bytes) (idle : exchange.connection.work = newKvWork)
    (inbox : exchange.inbox = []) (request : message.IsRequest) (stands : kindOf message.flag = some kind) :
    wp (recv headSize)
      (fun bytes after => after.Short ∨ Served exchange after message kind ∧
        bytes = (result exchange message kind).head.bytes ∧
        after.inbox = fieldBytes (result exchange message kind).field1 (result exchange message kind).head.field1Len.toNat)
      (fun reason after => after.Short ∨ Lost exchange after message reason) exchange := by
  have awaited : wp await
      (fun _ after => after.Short ∨ Served exchange after message kind ∧
        after.inbox = (result exchange message kind).bytes)
      (fun reason after => after.Short ∨ Lost exchange after message reason) exchange := by
    refine wp_bind_ok (read_run _ exchange) ?_
    rw [if_pos inbox]
    exact serve_spec ahead idle inbox request stands
  refine wp_bind_unless awaited ?_ fun _ => (keeps_read _).bind fun inbox => keeps_ite (keeps_stop _)
    (Keeps.bind (keeps_update fun _ short => short) fun _ => keeps_pure _)
  rintro _ after ⟨served, came⟩
  have some_ : after.inbox ≠ [] := by
    rw [came]
    exact List.cons_ne_nil _ _
  refine wp_bind_ok (read_run _ after) ?_
  rw [if_neg some_]
  refine wp_bind_ok (update_run _ after) (wp_pure (.inr ⟨served.withInbox _, ?_, ?_⟩))
  · rw [came, KvWork.bytes]
    exact List.take_left' rfl
  · have rest := result_field2 exchange message kind
    simp only [came, KvWork.bytes, rest.1, rest.2, fieldBytes, List.append_nil]
    exact List.drop_left' rfl

/-- The bytes of a field that never come. -/
theorem recvInto_waits {exchange : Exchange σ} (stream : exchange.connection.socket.stream = [])
    (inbox : exchange.inbox = []) (buf : Buf) {len : Nat} (positive : 0 < len) :
    recvInto buf len exchange = (.error .exhausted, exchange) := by
  have waits : recv len exchange = (.error .exhausted, exchange) := by
    rw [recv]
    apply bind_error
    rw [await, read_bind_run, if_pos inbox, serve_idle stream]
  rw [recvInto, if_pos positive]
  exact bind_error waits

/-- What is received behind the head of a result, once its field has come. -/
theorem recvFields_run {exchange : Exchange σ} {work result : KvWork}
    (bare : result.field2 = none ∧ result.head.field2Len.toNat = 0)
    (came : exchange.inbox = fieldBytes result.field1 result.head.field1Len.toNat)
    (whole : 0 < result.head.field1Len.toNat → result.field1.isSome) :
    ∃ received, (do
        let field1 ← recvInto ⟨result.head.field1Len.toNat, ← read Exchange.junk⟩ result.head.field1Len.toNat
        let field2 ← recvSecond work.field2 result.head.field2Len.toNat
        pure { work with head := result.head, field1 := some field1, field2 := field2 } : Exec (Exchange σ) KvWork)
      exchange = (.ok received, { exchange with inbox := [] }) ∧ Holds received result := by
  have size : result.head.field1Len.toNat = exchange.inbox.length := by
    rw [came]
    cases held : result.field1 with
    | none =>
      have zero : ¬ 0 < result.head.field1Len.toNat := by
        intro positive
        have := whole positive
        rw [held] at this
        cases this
      simp only [fieldBytes, List.length_nil]
      omega
    | some buf => simp only [fieldBytes, Mem.slice_length]
  obtain ⟨filled, run, len, text⟩ := recvInto_run
    (show Buf.len ⟨result.head.field1Len.toNat, exchange.junk⟩ = exchange.inbox.length from size)
  have second : recvSecond work.field2 result.head.field2Len.toNat { exchange with inbox := [] } =
      (.ok work.field2, { exchange with inbox := [] }) := by
    rw [bare.2]
    cases work.field2 <;> rfl
  have holds : Holds { work with head := result.head, field1 := some filled } result :=
    ⟨rfl, ⟨filled, rfl, len, text.trans came⟩, whole⟩
  refine ⟨_, ?_, holds⟩
  rw [read_bind_run, bind_ok run, bind_ok second]
  rfl

/-- `_recv_result` over an exchange in which a message was sent. It waits for
ever where the worker has answered a value without its bytes. -/
theorem recvResult_spec {exchange : Exchange σ} {message : Message} {kind : IndexCall.Kind} {work : KvWork}
    (ahead : exchange.connection.socket.stream = message.bytes) (idle : exchange.connection.work = newKvWork)
    (inbox : exchange.inbox = []) (request : message.IsRequest)
    (stands : kindOf message.flag = some kind) :
    wp (recvResult work)
      (fun received after => after.Short ∨ Served exchange after message kind ∧
        Holds received (result exchange message kind))
      (fun reason after => after.Short ∨ Lost exchange after message reason ∨ Served exchange after message kind ∧
        0 < (result exchange message kind).head.field1Len.toNat ∧ (result exchange message kind).field1 = none) exchange := by
  have headed := recvHead_spec ahead idle inbox request stands
  refine wp_bind_unless (headed.mono (fun _ _ holds => holds) fun _ _ halts => halts.imp_right .inl) ?_
    fun bytes => keeps_ite (keeps_stop _) (recvFields_keeps short_kept work _)
  rintro bytes after ⟨served, rfl, came⟩
  have whole : ¬ (result exchange message kind).head.bytes.length ≠ headSize := fun few => few rfl
  rw [if_neg whole, KvWorkHead.ofBytes_bytes]
  by_cases absent : 0 < (result exchange message kind).head.field1Len.toNat ∧ (result exchange message kind).field1 = none
  · have empty : after.inbox = [] := by rw [came, absent.2, fieldBytes]
    refine wp_bind_ok (read_run _ after) ?_
    apply wp_of_error (bind_error (recvInto_waits served.stream empty _ absent.1))
    exact .inr (.inr ⟨served, absent⟩)
  · have there (positive : 0 < (result exchange message kind).head.field1Len.toNat) :
        (result exchange message kind).field1.isSome := by
      cases held : (result exchange message kind).field1 with
      | none => exact absurd ⟨positive, held⟩ absent
      | some buf => rfl
    obtain ⟨received, run, holds⟩ := @recvFields_run _ after work _ (result_field2 exchange message kind) came there
    exact wp_of_ok run (.inr ⟨served.withInbox [], holds⟩)

end Exchange

end Pingkv
