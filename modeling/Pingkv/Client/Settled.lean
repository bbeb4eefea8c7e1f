import Pingkv.Client.Outcome

/-! What a call of `kv_client` that returns leaves behind: its connection idle again, and
the index of the server as the one call on it has left it. -/

namespace Pingkv

open Exec

namespace Exchange

variable {σ : Type}

/-- An exchange whose server has handled one call, and has nothing more to handle. -/
structure Settled (before after : Exchange σ) (call : IndexCall) : Prop where
  stream : after.connection.socket.stream = []
  work : after.connection.work = newKvWork
  fileCount : after.connection.fileCount = before.connection.fileCount
  queues : after.queues = before.queues
  answer : after.run.answer = before.run.answer
  index : after.run.index = (before.run.answer call before.run.index).2

theorem Settled.withInbox {before after : Exchange σ} {call : IndexCall} (settled : Settled before after call)
    (inbox : List UInt8) : Settled before { after with inbox := inbox } call :=
  ⟨settled.stream, settled.work, settled.fileCount, settled.queues, settled.answer, settled.index⟩

theorem Settled.withValue {before after : Exchange σ} {call : IndexCall} (settled : Settled before after call)
    (v : Option Buf) (vLen : Int) : Settled before { after with v := v, vLen := vLen } call :=
  ⟨settled.stream, settled.work, settled.fileCount, settled.queues, settled.answer, settled.index⟩

theorem Settled.ofArrived {before after : Exchange σ} {segments : List (List UInt8)} {call : IndexCall}
    (settled : Settled (before.arrive segments) after call) : Settled before after call :=
  ⟨settled.stream, settled.work, settled.fileCount, settled.queues, settled.answer, settled.index⟩

section Result

variable {exchange : Exchange σ} {message : Message} {kind : IndexCall.Kind}
  (ahead : exchange.connection.socket.stream = message.bytes) (idle : exchange.connection.work = newKvWork)
  (inbox : exchange.inbox = []) (request : message.IsRequest) (stands : kindOf message.flag = some kind)

include ahead request stands

theorem serve_settles : wp serve (fun _ after => after.Short ∨ Settled exchange after (message.call kind))
    (fun _ after => after.Short ∨ True) exchange := by
  have last : exchange.connection.socket.stream = message.bytes ++ [] := by rw [ahead, List.append_nil]
  have called : wp (within Exchange.connection (fun connection exchange => { exchange with connection := connection })
        Connection.cbReadSock)
      (fun _ after => after.Short ∨ ∃ connection, Connection.Received exchange.connection connection message [] ∧
        after = { exchange with connection := connection }) (fun _ after => after.Short ∨ True) exchange :=
    wp_within ((Connection.cbReadSock_spec last).mono
      (fun _ connection => Or.imp_right fun received => ⟨connection, received, rfl⟩) fun _ _ _ => .inr trivial)
  refine wp_bind_ok (read_run _ exchange) (wp_bind_unless called ?_ fun _ => (keeps_read _).bind fun entries => serveAll_keeps _)
  rintro _ _ ⟨connection, received, rfl⟩
  obtain ⟨fresh, work, holds, queued⟩ := received.request request
  have entries : connection.queued.drop exchange.connection.queued.length =
      [(requestQueue exchange.connection.fileCount message.field1, work)] := by
    rw [queued, List.drop_left]
  refine wp_bind_ok (read_run _ _) ?_
  simp only [entries, serveAll]
  have flag : kindOf work.head.flag = some kind := by rwa [holds.head]
  have operated := operate_run flag exchange.run
  rw [holds.call] at operated
  by_cases inside : Connection.Inside exchange.connection.fileCount exchange.queues message
  · refine wp_bind_ok (serveOne_inside inside operated) (wp_pure (.inr ?_))
    exact ⟨received.stream, fresh, received.fileCount, rfl, rfl, rfl⟩
  · exact wp_of_error (bind_error (serveOne_outside inside)) (.inr trivial)

include inbox

/-- The head of a result is received once the server has handled the call. -/
theorem recvHead_settles : wp (recv headSize) (fun _ after => after.Short ∨ Settled exchange after (message.call kind))
    (fun _ after => after.Short ∨ True) exchange := by
  have awaited : wp await (fun _ after => after.Short ∨ Settled exchange after (message.call kind))
      (fun _ after => after.Short ∨ True) exchange := by
    refine wp_bind_ok (read_run _ exchange) ?_
    rw [if_pos inbox]
    exact serve_settles ahead request stands
  refine wp_bind_unless awaited ?_ fun _ => (keeps_read _).bind fun inbox => keeps_ite (keeps_stop _)
    (Keeps.bind (keeps_update fun _ short => short) fun _ => keeps_pure _)
  intro _ after settled
  refine wp_bind_ok (read_run _ after) ?_
  split
  · exact wp_of_error rfl (.inr trivial)
  · exact wp_bind_ok (update_run _ after) (wp_pure (.inr (settled.withInbox _)))

include idle

theorem recvResult_settles (work : KvWork) : wp (recvResult work)
    (fun _ after => after.Short ∨ Settled exchange after (message.call kind) ∧ after.inbox = [])
    (fun _ after => after.Short ∨ True) exchange := by
  have headed : wp (recv headSize)
      (fun bytes after => after.Short ∨ Settled exchange after (message.call kind) ∧
        bytes = (result exchange message kind).head.bytes ∧
        after.inbox = fieldBytes (result exchange message kind).field1 (result exchange message kind).head.field1Len.toNat)
      (fun _ after => after.Short ∨ True) exchange := by
    refine ((recvHead_settles ahead inbox request stands).and (recvHead_spec ahead idle inbox request stands)).mono ?_
      fun _ _ _ => .inr trivial
    rintro bytes after ⟨short | settled, short | ⟨_, came⟩⟩
    · exact .inl short
    · exact .inl short
    · exact .inl short
    · exact .inr ⟨settled, came⟩
  refine wp_bind_unless headed ?_ fun bytes => keeps_ite (keeps_stop _) (recvFields_keeps short_kept work _)
  rintro _ after ⟨settled, rfl, came⟩
  have whole : ¬ (result exchange message kind).head.bytes.length ≠ headSize := fun few => few rfl
  rw [if_neg whole, KvWorkHead.ofBytes_bytes]
  by_cases absent : 0 < (result exchange message kind).head.field1Len.toNat ∧ (result exchange message kind).field1 = none
  · have empty : after.inbox = [] := by rw [came, absent.2, fieldBytes]
    refine wp_bind_ok (read_run _ after) ?_
    exact wp_of_error (bind_error (recvInto_waits settled.stream empty _ absent.1)) (.inr trivial)
  · have there (positive : 0 < (result exchange message kind).head.field1Len.toNat) :
        (result exchange message kind).field1.isSome := by
      cases held : (result exchange message kind).field1 with
      | none => exact absurd ⟨positive, held⟩ absent
      | some buf => rfl
    obtain ⟨received, run, _⟩ := @recvFields_run _ after work _ (result_field2 exchange message kind) came there
    exact wp_of_ok run (.inr ⟨settled.withInbox [], rfl⟩)

end Result

/-- `strcpy` works on its buffers only. -/
theorem strcpy_same (target source : Buf) (exchange : Exchange σ) : wp (strcpy target source)
    (fun _ after => after = exchange) (fun _ after => after.Short ∨ True) exchange := by
  unfold strcpy
  split
  · exact wp_of_error rfl (.inr trivial)
  · split
    · exact wp_pure rfl
    · exact wp_of_error rfl (.inr trivial)

/-- A call up to its result. -/
theorem call_settles {exchange : Exchange σ} (idle : exchange.Idle) {flag : UInt16} {kind : IndexCall.Kind}
    (request : WorkFlag.Has (flag ||| WorkFlag.req) WorkFlag.req) (stands : kindOf (flag ||| WorkFlag.req) = some kind)
    (key : List UInt8) (value : Option (List UInt8)) :
    wp (do
        sendWork (Exchange.request flag key value)
        recvResult (Exchange.request flag key value))
      (fun _ after => after.Short ∨ Settled exchange after ((message flag key (value.getD [])).call kind) ∧ after.inbox = [])
      (fun _ after => after.Short ∨ True) exchange := by
  obtain ⟨_, run, segments, _, whole, rfl⟩ := sendWork_run exchange flag key value
  have ahead := arrive_stream exchange segments
  rw [idle.stream, List.nil_append, whole] at ahead
  refine wp_bind_ok run ((recvResult_settles ahead idle.work idle.inbox request stands _).mono ?_ fun _ _ holds => holds)
  exact fun _ after => Or.imp_right fun settled => ⟨settled.1.ofArrived, settled.2⟩

end Exchange

namespace KvClient

variable {σ : Type}

/-- The index call that is made for a call: a deletion is sent as a get. -/
def Call.sent : Call → IndexCall
  | .get key => Exchange.callFor .get key []
  | .set key value => Exchange.callFor .set key value
  | .del key => Exchange.callFor .get key []

open Exchange in
/-- A call that returns has been handled, and leaves its connection idle. -/
theorem Call.exchange_settles {call : Call} {exchange after : Exchange σ} {code : Int} (idle : exchange.Idle)
    (keyLen : call.key.length ≤ 32767) (valueLen : call.value.length ≤ 65535)
    (ran : call.exchange exchange = (.ok code, after)) (whole : ¬ after.Short) :
    Settled exchange after call.sent ∧ after.Idle := by
  have flags := message_flags
  have spec : wp call.exchange (fun _ after => after.Short ∨ Settled exchange after call.sent ∧ after.inbox = [])
      (fun _ after => after.Short ∨ True) exchange := by
    have came {received : Exchange σ} {sent : IndexCall} (settled : Settled exchange received sent ∧ received.inbox = []) :
        wp outcome (fun _ after => after.Short ∨ Settled exchange after sent ∧ after.inbox = [])
          (fun _ after => after.Short ∨ True) received := wp_of_ok (outcome_run received) (.inr settled)
    cases call with
    | get key =>
      have short : key.length ≤ 32767 := keyLen
      have settles := call_settles idle flags.1 flags.2.1 key none
      rw [Option.getD_none, message_call short (by decide)] at settles
      have split : Exchange.get key exchange = ((do
          sendWork (request WorkFlag.get key none)
          recvResult (request WorkFlag.get key none)) >>= fun work => do
            let len := work.head.field1Len.toNat
            update fun exchange => { exchange with vLen := len }
            let target : Buf := ⟨len, ← read Exchange.junk⟩
            let v ← strcpy target (work.field1.getD ⟨0, fun _ => 0⟩)
            update fun exchange => { exchange with v := some v }
            outcome) exchange := by
        rw [Exchange.get, bind_assoc]
      apply wp.congr _ split
      refine wp_bind_unless settles ?_ fun received => copyValue_keeps received
      rintro work after ⟨settled, inbox⟩
      refine wp_bind_ok (update_run _ after) (wp_bind_ok (read_run _ _) (wp_bind (strcpy_same _ _ _) ?_))
      rintro v _ rfl
      exact wp_bind_ok (update_run _ _) (came ⟨settled.withValue _ _, inbox⟩)
    | set key value =>
      have short : key.length ≤ 32767 := keyLen
      have fits : value.length < 65536 := Nat.lt_succ_of_le valueLen
      have settles := call_settles idle flags.2.2.1 flags.2.2.2 key (some value)
      rw [Option.getD_some, message_call short fits] at settles
      have split : Exchange.set key value exchange = ((do
          sendWork (request WorkFlag.set key (some value))
          recvResult (request WorkFlag.set key (some value))) >>= fun _ => outcome) exchange := by
        rw [Exchange.set, bind_assoc]
      exact wp.congr (wp_bind_unless settles (fun _ _ settled => came settled) fun _ => outcome_keeps) split
    | del key =>
      have short : key.length ≤ 32767 := keyLen
      have settles := call_settles idle flags.1 flags.2.1 key none
      rw [Option.getD_none, message_call short (by decide)] at settles
      have split : Exchange.del key exchange = ((do
          sendWork (request WorkFlag.get key none)
          recvResult (request WorkFlag.get key none)) >>= fun _ => outcome) exchange := by
        rw [Exchange.del, bind_assoc]
      exact wp.congr (wp_bind_unless settles (fun _ _ settled => came settled) fun _ => outcome_keeps) split
  obtain ⟨settled, inbox⟩ := (spec.ok ran).resolve_left whole
  exact ⟨settled, settled.stream, settled.work, inbox⟩

end KvClient

end Pingkv
