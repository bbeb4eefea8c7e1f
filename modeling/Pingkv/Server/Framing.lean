import Mathlib.Data.List.DropRight
import Mathlib.Data.List.Forall2
import Pingkv.Server.Receive

/-! Runs of `_cb_read_sock` over the messages of a connection: which of them
reach the request queues, and whether their fields fit the buffers. -/

namespace Pingkv

open Exec

namespace Connection

/-- The messages that came after the last request. -/
def sinceRequest (messages : List Message) : List Message :=
  messages.rtakeWhile fun message => !decide message.IsRequest

/-- The first length other than 0 a field had. -/
def firstLen (field : Field) (messages : List Message) : Option Nat :=
  (messages.map fun message => (message.text field).length).find? fun len => len ≠ 0

/-- No message has a field longer than the first non-empty one that came for it
since the last request. -/
def FieldsFit (messages : List Message) : Prop :=
  ∀ before message after, messages = before ++ message :: after →
    ∀ field, ∀ len ∈ firstLen field (sinceRequest before), (message.text field).length ≤ len

/-- The same, message by message, from buffers of given sizes. -/
def FitFrom (sizes : Field → Option Nat) : List Message → Prop
  | [] => True
  | message :: rest =>
    (∀ field, (message.text field).length ≤ capacity (sizes field) (message.text field).length) ∧
      FitFrom (if message.IsRequest then fun _ => none
        else fun field => nextSize (sizes field) (message.text field).length) rest

/-- Every `recv` into a field asked for no more than its buffer holds. -/
def Bounded (connection : Connection) : Prop := ∀ ask ∈ connection.asks, ask.1 ≤ ask.2

instance (connection : Connection) : Decidable connection.Bounded :=
  inferInstanceAs (Decidable (∀ ask ∈ connection.asks, ask.1 ≤ ask.2))

theorem firstLen_concat (field : Field) (messages : List Message) (message : Message) :
    firstLen field (messages ++ [message]) = nextSize (firstLen field messages) (message.text field).length := by
  rw [firstLen, List.map_append, List.find?_append, ← firstLen]
  by_cases empty : message.text field = []
  · simp [nextSize, empty]
  · cases firstLen field messages <;> simp [nextSize, empty, capacity]

/-- The sizes the buffers have after `messages`, and after one more. -/
theorem firstLen_since (field : Field) (messages : List Message) (message : Message) :
    firstLen field (sinceRequest (messages ++ [message])) =
      (if message.IsRequest then fun _ => none else fun field =>
        nextSize (firstLen field (sinceRequest messages)) (message.text field).length) field := by
  by_cases request : message.IsRequest
  · simp only [sinceRequest, List.rtakeWhile_concat, request, decide_true, Bool.not_true, if_true]
    rfl
  · simp only [sinceRequest, List.rtakeWhile_concat, request, decide_false, Bool.not_false, if_true, if_false]
    exact firstLen_concat ..

theorem fitFrom_iff (earlier messages : List Message) :
    FitFrom (fun field => firstLen field (sinceRequest earlier)) messages ↔
      ∀ before message after, messages = before ++ message :: after →
        ∀ field, ∀ len ∈ firstLen field (sinceRequest (earlier ++ before)), (message.text field).length ≤ len := by
  induction messages generalizing earlier with
  | nil => simp [FitFrom]
  | cons first rest ih =>
    have sizes : (if first.IsRequest then fun _ => none else fun field =>
        nextSize (firstLen field (sinceRequest earlier)) (first.text field).length) =
          fun field => firstLen field (sinceRequest (earlier ++ [first])) :=
      funext fun field => (firstLen_since field earlier first).symm
    rw [FitFrom, sizes, ih (earlier ++ [first])]
    constructor
    · rintro ⟨head, tail⟩ before message after split field len present
      cases before with
      | nil =>
        obtain ⟨rfl, rfl⟩ := List.cons.inj split
        rw [List.append_nil] at present
        have fits := head field
        rwa [capacity, Option.mem_def.mp present, Option.getD_some] at fits
      | cons old before =>
        obtain ⟨rfl, later⟩ := List.cons.inj split
        apply tail before message after later field len
        rwa [List.append_assoc, List.singleton_append]
    · intro all
      constructor
      · intro field
        cases size : firstLen field (sinceRequest earlier) with
        | none => exact Nat.le_refl _
        | some len => exact all [] first rest rfl field len (by rw [List.append_nil]; exact size)
      · intro before message after split field len present
        apply all (first :: before) message after (by rw [split]; rfl) field len
        rwa [List.append_assoc, List.singleton_append] at present

theorem accept_sizes (fileCount : Int) (junk : Mem) (segments : List (List UInt8))
    (schedule : Nat → Nat × Nat) : (accept fileCount junk segments schedule).sizes = fun _ => none := by
  funext field
  cases field <;> rfl

theorem fitFrom_start (messages : List Message) : FitFrom (fun _ => none) messages ↔ FieldsFit messages :=
  fitFrom_iff [] messages

theorem fieldAsks_bounded {size : Option Nat} {len : Nat} (fits : len ≤ capacity size len) :
    ∀ ask ∈ fieldAsks size len, ask.1 ≤ ask.2 := by
  unfold fieldAsks
  split
  · simp
  · simpa using fits

theorem Received.bounded {before after : Connection} {message : Message} {rest : List UInt8}
    (received : Received before after message rest) (bounded : before.Bounded) : after.Bounded := by
  intro ask member
  rw [received.asks] at member
  rcases List.mem_append.mp member with member | second
  · rcases List.mem_append.mp member with old | first
    · exact bounded ask old
    · exact fieldAsks_bounded (received.fits .field1) ask first
  · exact fieldAsks_bounded (received.fits .field2) ask second

/-- After a message the sizes of the buffers are those it leaves behind. -/
theorem Received.sizes {before after : Connection} {message : Message} {rest : List UInt8}
    (received : Received before after message rest) :
    after.sizes = if message.IsRequest then fun _ => none
      else fun field => nextSize (before.sizes field) (message.text field).length := by
  funext field
  split
  · rename_i request
    rw [Connection.sizes, (received.request request).1]
    cases field <;> rfl
  · rename_i other
    exact (received.other other).2 field

theorem Exceeded.unfit {before after : Connection} {message : Message} (exceeded : Exceeded before after message)
    (messages : List Message) : after.Bounded ↔ FitFrom before.sizes (message :: messages) := by
  obtain ⟨field, misfit⟩ := exceeded.misfit
  obtain ⟨ask, member, beyond⟩ := exceeded.asks
  constructor
  · intro bounded
    exact absurd (bounded ask member) (Nat.not_le_of_gt beyond)
  · intro fits
    exact absurd (fits.1 field) (Nat.not_le_of_gt misfit)

/-- One callback for each message that lies ahead. -/
theorem notices_bounded {connection : Connection} {messages : List Message}
    (ahead : connection.socket.stream = messages.flatMap Message.bytes) (registered : connection.closed = false)
    (bounded : connection.Bounded) :
    wp (notices messages.length)
      (fun _ after => Short after ∨ (after.Bounded ↔ FitFrom connection.sizes messages))
      (fun _ after => Short after ∨ (after.Bounded ↔ FitFrom connection.sizes messages)) connection := by
  induction messages generalizing connection with
  | nil => exact wp_pure (.inr ⟨fun _ => trivial, fun _ => bounded⟩)
  | cons message rest ih =>
    rw [List.length_cons, notices]
    refine wp_bind_ok (read_run _ connection) ?_
    rw [if_pos registered]
    have first : connection.socket.stream = message.bytes ++ rest.flatMap Message.bytes := ahead
    refine wp_bind_unless ((cbReadSock_spec first).mono (fun _ _ holds => holds) fun _ _ halts =>
      halts.imp_right fun exceeded => exceeded.unfit rest) ?_ fun _ => notices_short _
    intro _ after received
    have whole : FitFrom connection.sizes (message :: rest) ↔ FitFrom after.sizes rest := by
      rw [FitFrom, received.sizes]
      exact and_iff_right received.fits
    rw [whole]
    exact ih received.stream (received.closed.trans registered) (received.bounded bounded)

/-- The fields of the messages of a connection are received within their
buffers exactly when no message has a longer field than an earlier one left
room for: a work that is not handed on is used again with its old buffers. -/
theorem bounded_iff (fileCount : Int) (junk : Mem) (segments : List (List UInt8)) (schedule : Nat → Nat × Nat)
    (messages : List Message) (arriving : segments.flatten = messages.flatMap Message.bytes)
    (whole : (notices messages.length (accept fileCount junk segments schedule)).2.socket.short = false) :
    (notices messages.length (accept fileCount junk segments schedule)).2.Bounded ↔ FieldsFit messages := by
  have ahead : (accept fileCount junk segments schedule).socket.stream = messages.flatMap Message.bytes := arriving
  have run := (notices_bounded ahead rfl (by simp [Bounded, accept])).left
  rw [accept_sizes, fitFrom_start] at run
  rcases run with short | bounded
  · exact absurd (whole.symm.trans short) (by decide)
  · exact bounded

/-- Two empty commands with a key of one byte each, in one segment each. -/
theorem bounded_two : (notices 2 (accept 4 (fun _ => 0)
    [[0, 8, 1, 0, 0, 0, 7], [0, 8, 1, 0, 0, 0, 9]] fun _ => (1, 65535))).2.Bounded ↔
      FieldsFit [⟨0x800, [7], [], by decide, by decide⟩, ⟨0x800, [9], [], by decide, by decide⟩] :=
  bounded_iff 4 (fun _ => 0) _ (fun _ => (1, 65535))
    [⟨0x800, [7], [], by decide, by decide⟩, ⟨0x800, [9], [], by decide, by decide⟩] (by decide)
    (by decide +kernel)

/-- After a command with a field of one byte, one with two bytes is received
into the same buffer. -/
theorem second_command_exceeds : [[0, 8, 1, 0, 0, 0, 7], [0, 8, 2, 0, 0, 0, 8, 9]].flatten =
      [⟨0x800, [7], [], by decide, by decide⟩, ⟨0x800, [8, 9], [], by decide, by decide⟩].flatMap Message.bytes ∧
    (notices 2 (accept 4 (fun _ => 0) [[0, 8, 1, 0, 0, 0, 7], [0, 8, 2, 0, 0, 0, 8, 9]]
      fun _ => (1, 65535))).2.asks = [(1, 1), (2, 1)] ∧
    (notices 2 (accept 4 (fun _ => 0) [[0, 8, 1, 0, 0, 0, 7], [0, 8, 2, 0, 0, 0, 8, 9]]
      fun _ => (1, 65535))).2.socket.short = false ∧
    ¬ (notices 2 (accept 4 (fun _ => 0) [[0, 8, 1, 0, 0, 0, 7], [0, 8, 2, 0, 0, 0, 8, 9]]
      fun _ => (1, 65535))).2.Bounded := by
  decide

/-- A work on the queue its key is hashed to, with the request it came from. -/
structure Queued (fileCount : Int) (entry : Int × KvWork) (request : Message) : Prop where
  index : entry.1 = requestQueue fileCount request.field1
  holds : entry.2.Holds request

/-- The works on the `queues` request queues are these requests, each once and in order. -/
def Delivered (queues : Nat) (connection : Connection) (requests : List Message) : Prop :=
  List.Forall₂ (fun (entry : Int × KvWork) request => (0 ≤ entry.1 ∧ entry.1 < queues) ∧ entry.2.Holds request)
    connection.queued requests

/-- Callbacks over requests that lie ahead, one request each. -/
theorem notices_queued (count : Nat) {connection : Connection} {requests : List Message}
    (all : ∀ request ∈ requests, request.IsRequest)
    (ahead : connection.socket.stream = requests.flatMap Message.bytes) (registered : connection.closed = false)
    (fresh : connection.work = newKvWork) :
    (notices count connection).2.Short ∨ ∃ entries,
      (notices count connection).2.queued = connection.queued ++ entries ∧
      List.Forall₂ (Queued connection.fileCount) entries (requests.take count) := by
  induction count generalizing connection requests with
  | zero => exact .inr ⟨[], (List.append_nil _).symm, .nil⟩
  | succ count ih =>
    cases requests with
    | nil =>
      have idle : notices (count + 1) connection = (.error .exhausted, connection) := by
        rw [notices, read_bind_run, if_pos registered, bind_error (cbReadSock_idle ahead)]
      rw [idle]
      exact .inr ⟨[], (List.append_nil _).symm, .nil⟩
    | cons request rest =>
      have sizes : connection.sizes = fun _ => none := by
        funext field
        rw [Connection.sizes, fresh]
        cases field <;> rfl
      have first : connection.socket.stream = request.bytes ++ rest.flatMap Message.bytes := ahead
      have step := cbReadSock_spec first
      have unfold : notices (count + 1) connection = (cbReadSock >>= fun _ => notices count) connection := by
        rw [notices, read_bind_run, if_pos registered]
      rcases step.cases with ⟨_, after, run, short | received⟩ | ⟨_, after, run, short | exceeded⟩
      · left
        rw [unfold, bind_ok run]
        exact (notices_short count after short).left
      · rw [unfold, bind_ok run]
        obtain ⟨anew, work, holds, queued⟩ := received.request (all request List.mem_cons_self)
        rcases ih (fun request member => all request (List.mem_cons_of_mem _ member)) received.stream
          (received.closed.trans registered) anew with short | ⟨entries, later, matched⟩
        · exact .inl short
        · refine .inr ⟨(requestQueue connection.fileCount request.field1, work) :: entries, ?_, ?_⟩
          · rw [later, queued, List.append_assoc, List.singleton_append]
          · rw [received.fileCount] at matched
            exact .cons ⟨rfl, holds⟩ matched
      · left
        rw [unfold, bind_error run]
        exact short
      · -- A fresh work has no buffers a field could be too long for.
        obtain ⟨field, misfit⟩ := exceeded.misfit
        rw [sizes] at misfit
        exact absurd misfit (Nat.lt_irrefl _)

private theorem forall_inside {fileCount : Int} {queues : Nat} {entries : List (Int × KvWork)}
    {requests : List Message} (matched : List.Forall₂ (Queued fileCount) entries requests) :
    List.Forall₂ (fun (entry : Int × KvWork) request => (0 ≤ entry.1 ∧ entry.1 < queues) ∧ entry.2.Holds request)
      entries requests ↔ ∀ request ∈ requests, Inside fileCount queues request := by
  induction matched with
  | nil => simp
  | cons head _ ih =>
    rw [List.forall₂_cons, ih, List.forall_mem_cons, Inside, ← head.index]
    simp only [head.holds, and_true]

/-- Where every part of the requests comes whole, no callback on them is short of bytes. -/
theorem notices_plenty (count : Nat) {connection : Connection} {requests : List Message}
    (all : ∀ request ∈ requests, request.IsRequest)
    (ahead : connection.socket.stream = requests.flatMap Message.bytes) (registered : connection.closed = false)
    (fresh : connection.work = newKvWork)
    (plenty : OnSocket (Socket.Plenty (requests.flatMap Message.parts)) connection) :
    (notices count connection).2.Unshort := by
  induction count generalizing connection requests with
  | zero => exact plenty.1
  | succ count ih =>
    have unfold : notices (count + 1) connection = (cbReadSock >>= fun _ => notices count) connection := by
      rw [notices, read_bind_run, if_pos registered]
    rw [unfold]
    cases requests with
    | nil =>
      rw [bind_error (cbReadSock_idle ahead)]
      exact plenty.1
    | cons request rest =>
      have first : connection.socket.stream = request.bytes ++ rest.flatMap Message.bytes := ahead
      have step := (cbReadSock_spec first).and (cbReadSock_plenty first plenty)
      rcases step.cases with ⟨_, after, run, short | received, plenty⟩ | ⟨_, after, run, _, unshort⟩
      · exact absurd (plenty.1.symm.trans short) (by decide)
      · rw [bind_ok run]
        exact ih (fun request member => all request (List.mem_cons_of_mem _ member)) received.stream
          (received.closed.trans registered) (received.request (all request List.mem_cons_self)).1 plenty
      · rw [bind_error run]
        exact unshort

/-- Where every `recv` for a part of a request returns the whole part, the
requests of a connection reach the request queues exactly when there are at
least as many notifications as requests and each index lies inside
`_req_queue`: a callback reads one request, however many have arrived. -/
theorem delivered_iff (fileCount : Int) (queues : Nat) (junk : Mem) (segments : List (List UInt8))
    (schedule : Nat → Nat × Nat) (requests : List Message) (all : ∀ request ∈ requests, request.IsRequest)
    (arriving : segments.flatten = requests.flatMap Message.bytes)
    (whole : (accept fileCount junk segments schedule).socket.Gives (requests.flatMap Message.parts)) (count : Nat) :
    (notices count (accept fileCount junk segments schedule)).2.Delivered queues requests ↔
      requests.length ≤ count ∧ ∀ request ∈ requests, Inside fileCount queues request := by
  have ahead : (accept fileCount junk segments schedule).socket.stream = requests.flatMap Message.bytes := arriving
  have unshort := notices_plenty count all ahead rfl rfl ⟨rfl, whole⟩
  rcases notices_queued count all ahead rfl rfl with
    short | ⟨entries, queued, matched⟩
  · exact absurd (unshort.symm.trans short) (by decide)
  · rw [Delivered, queued, show (accept fileCount junk segments schedule).queued = [] from rfl, List.nil_append]
    have matched : List.Forall₂ (Queued fileCount) entries (requests.take count) := matched
    constructor
    · intro delivered
      have counted := matched.length_eq
      rw [delivered.length_eq, List.length_take] at counted
      have enough : requests.length ≤ count := by omega
      rw [List.take_of_length_le enough] at matched
      exact ⟨enough, (forall_inside matched).mp delivered⟩
    · rintro ⟨enough, inside⟩
      rw [List.take_of_length_le enough] at matched
      exact (forall_inside matched).mpr inside

/-- Two requests in a segment each, and a notification for each. -/
theorem delivered_two : (notices 2 (accept 4 (fun _ => 0)
    [[0, 17, 1, 0, 0, 0, 49], [0, 17, 1, 0, 0, 0, 50]] fun _ => (1, 65535))).2.Delivered 4
      [⟨0x1100, [49], [], by decide, by decide⟩, ⟨0x1100, [50], [], by decide, by decide⟩] :=
  (delivered_iff 4 4 (fun _ => 0) _ (fun _ => (1, 65535))
    [⟨0x1100, [49], [], by decide, by decide⟩, ⟨0x1100, [50], [], by decide, by decide⟩] (by decide)
    (by decide) (by decide) 2).mpr
      ⟨by decide, by unfold Inside; decide⟩

/-- Two requests that arrive in one segment: the second stays unread. -/
theorem second_request_unread :
    [[0, 17, 1, 0, 0, 0, 49, 0, 17, 1, 0, 0, 0, 50]].flatten =
      [⟨0x1100, [49], [], by decide, by decide⟩, ⟨0x1100, [50], [], by decide, by decide⟩].flatMap Message.bytes ∧
    (notices 1 (accept 4 (fun _ => 0) [[0, 17, 1, 0, 0, 0, 49, 0, 17, 1, 0, 0, 0, 50]]
      fun _ => (1, 65535))).2.socket.unread = [0, 17, 1, 0, 0, 0, 50] ∧
    ¬ (notices 1 (accept 4 (fun _ => 0) [[0, 17, 1, 0, 0, 0, 49, 0, 17, 1, 0, 0, 0, 50]]
      fun _ => (1, 65535))).2.Delivered 4
        [⟨0x1100, [49], [], by decide, by decide⟩, ⟨0x1100, [50], [], by decide, by decide⟩] := by
  refine ⟨by decide, by decide, fun delivered => ?_⟩
  have counted := delivered.length_eq
  exact absurd counted (by decide)

end Connection

end Pingkv
