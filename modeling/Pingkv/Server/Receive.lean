import Pingkv.Server.Connection

/-! What `_cb_read_sock` does with one message that lies ahead in the stream,
as long as every `recv` returns all it is asked for. -/

namespace Pingkv

open Exec

namespace Connection

/-- The size of the buffer a field of so many bytes is received into: that of
the buffer the work has, or a fresh one of this length. -/
def capacity (size : Option Nat) (len : Nat) : Nat := size.getD len

/-- The size of the buffer of a field after one more `recv` into it. -/
def nextSize (size : Option Nat) (len : Nat) : Option Nat := if len = 0 then size else some (capacity size len)

/-- What a field of a message asks of its buffer. -/
def fieldAsks (size : Option Nat) (len : Nat) : List (Nat × Nat) :=
  if len = 0 then [] else [(len, capacity size len)]

/-- The sizes of the buffers of the work of the connection. -/
def sizes (connection : Connection) (field : Field) : Option Nat := (connection.work.buf field).map Buf.len

/-- A field has been received into its buffer; everything else is as before. -/
structure Filled (before after : Connection) (field : Field) (bytes rest : List UInt8) : Prop where
  stream : after.socket.stream = rest
  head : after.work.head = before.work.head
  text : fieldBytes (after.work.buf field) bytes.length = bytes
  size : after.sizes field = nextSize (before.sizes field) bytes.length
  others : ∀ other, other ≠ field → after.work.buf other = before.work.buf other
  asks : after.asks = before.asks ++ fieldAsks (before.sizes field) bytes.length
  queued : after.queued = before.queued
  fileCount : after.fileCount = before.fileCount
  closed : after.closed = before.closed
  fits : bytes.length ≤ capacity (before.sizes field) bytes.length

/-- A field has been asked for that is longer than its buffer. -/
structure Overrun (before after : Connection) (field : Field) (len : Nat) : Prop where
  asks : after.asks = before.asks ++ [(len, capacity (before.sizes field) len)]
  exceeds : capacity (before.sizes field) len < len

/-- What a whole `recv` returns. -/
theorem recv_whole {connection : Connection} {bytes rest : List UInt8} (some_ : bytes ≠ [])
    (ahead : connection.socket.stream = bytes ++ rest) :
    wp (recv bytes.length)
      (fun got after => Short after ∨ (got = bytes ∧ ∃ socket, socket.stream = rest ∧
        after = { connection with socket := socket }))
      (fun _ _ => False) connection := by
  have positive := List.length_pos_iff.mpr some_
  apply wp_within
  apply (Socket.recv_spec positive connection.socket).mono
  · rintro got socket ⟨taken, _, atMost, short⟩
    by_cases few : got.length < bytes.length ∧ socket.stream ≠ []
    · left
      rw [decide_eq_true few, Bool.or_true] at short
      exact short
    · right
      have same : got.length = bytes.length := by
        have total := congrArg List.length (taken.symm.trans ahead)
        rw [List.length_append, List.length_append] at total
        by_contra different
        have none_ : socket.stream = [] := by
          by_contra more
          exact few ⟨by omega, more⟩
        rw [none_, List.length_nil] at total
        omega
      have split := List.append_inj (taken.symm.trans ahead) same
      exact ⟨split.1, socket, split.2, rfl⟩
  · rintro reason socket ⟨_, none_, _⟩
    rw [ahead] at none_
    exact some_ (List.append_eq_nil_iff.mp none_).1

theorem recvHead_spec {connection : Connection} {head : KvWorkHead} {rest : List UInt8}
    (ahead : connection.socket.stream = head.bytes ++ rest) :
    wp recvHead
      (fun _ after => Short after ∨ ∃ socket, socket.stream = rest ∧
        after = { connection with socket := socket, work := { connection.work with head := head } })
      (fun _ after => Short after ∨ False) connection := by
  have received := recv_whole (show head.bytes ≠ [] from List.cons_ne_nil _ _) ahead
  rw [KvWorkHead.bytes_length] at received
  apply wp_bind_unless (received.mono (fun _ _ holds => holds) fun _ _ never => .inr never)
  · rintro got after ⟨rfl, socket, stream, rfl⟩
    refine .inr ⟨socket, stream, ?_⟩
    have whole : head.bytes ++ connection.work.head.bytes.drop head.bytes.length = head.bytes := by
      rw [KvWorkHead.bytes_length, List.drop_eq_nil_of_le (Nat.le_of_eq (KvWorkHead.bytes_length _)), List.append_nil]
    simp only [whole, KvWorkHead.ofBytes_bytes]
  · exact fun _ => keeps_update fun _ short => short

theorem fieldBuf_spec (connection : Connection) (field : Field) (len : Nat) :
    ∃ buf work, fieldBuf field len connection = (.ok buf, { connection with work := work }) ∧
      buf.len = capacity (connection.sizes field) len ∧ work.head = connection.work.head ∧
      ∀ buf, work.withBuf field buf = connection.work.withBuf field buf := by
  cases held : connection.work.buf field with
  | some buf =>
    refine ⟨buf, connection.work, ?_, ?_, rfl, fun _ => rfl⟩
    · simp only [fieldBuf, read_bind_run, held, pure_run]
    · simp only [capacity, sizes, held, Option.map_some, Option.getD_some]
  | none =>
    refine ⟨⟨len, connection.junk⟩, connection.work.withBuf field ⟨len, connection.junk⟩, ?_, ?_,
      KvWork.withBuf_head .., ?_⟩
    · simp only [fieldBuf, read_bind_run, held, update_bind_run, pure_run]
    · simp only [capacity, sizes, held, Option.map_none, Option.getD_none]
    · intro buf
      cases field <;> rfl

/-- A field that lies ahead whole is received, unless it is longer than its buffer. -/
theorem recvField_spec {connection : Connection} {field : Field} {bytes rest : List UInt8}
    (len : connection.work.head.len field = bytes.length)
    (ahead : connection.socket.stream = bytes ++ rest) :
    wp (recvField field)
      (fun _ after => Short after ∨ Filled connection after field bytes rest)
      (fun reason after => Short after ∨ (reason = .fault ∧ Overrun connection after field bytes.length))
      connection := by
  rw [recvField]
  simp only [wp, read_bind_run, len]
  by_cases none_ : bytes = []
  · subst none_
    exact .inr ⟨ahead, rfl, by cases connection.work.buf field <;> rfl, rfl, fun _ _ => rfl,
      (List.append_nil _).symm, rfl, rfl, rfl, Nat.zero_le _⟩
  have positive := List.length_pos_iff.mpr none_
  have nonzero : bytes.length ≠ 0 := Nat.ne_of_gt positive
  obtain ⟨buf, work, allocated, size, head, same⟩ := fieldBuf_spec connection field bytes.length
  simp only [if_pos nonzero]
  rw [bind_ok allocated]
  simp only [update_bind_run]
  have received := @recv_whole { connection with
    work := work, asks := connection.asks ++ [(bytes.length, buf.len)] } bytes rest none_ ahead
  refine wp_bind_unless (received.mono (fun _ _ holds => holds) fun _ _ never => .inr never.elim) ?_ ?_
  · rintro got after ⟨rfl, socket, stream, rfl⟩
    by_cases exceeds : buf.len < got.length
    · simp only [if_pos exceeds]
      exact .inr ⟨rfl, by rw [← size], by rwa [← size]⟩
    · simp only [if_neg exceeds, update_bind_run, wp, ne_eq, not_true_eq_false, if_false, pure_run]
      right
      constructor
      · exact stream
      · exact (KvWork.withBuf_head ..).trans head
      · simp only [KvWork.withBuf_buf, fieldBytes, Mem.slice_copy]
        exact Buf.toList_ofList got
      · simp only [sizes, KvWork.withBuf_buf, Option.map_some, nextSize, if_neg nonzero, size]
      · intro other different
        simp only [same, KvWork.withBuf_other different]
      · simp only [fieldAsks, if_neg nonzero, size]
      · rfl
      · rfl
      · rfl
      · rw [← size]
        exact Nat.le_of_not_lt exceeds
  · intro got
    apply keeps_ite (keeps_stop _)
    refine Keeps.bind (keeps_update fun _ short => short) fun _ => ?_
    exact keeps_ite (keeps_stop _) (keeps_pure _)

/-- A message has been received, and put on a queue if it is a request. -/
structure Received (before after : Connection) (message : Message) (rest : List UInt8) : Prop where
  stream : after.socket.stream = rest
  fileCount : after.fileCount = before.fileCount
  closed : after.closed = before.closed
  asks : after.asks = before.asks ++ fieldAsks (before.sizes .field1) message.field1.length ++
    fieldAsks (before.sizes .field2) message.field2.length
  fits : ∀ field, (message.text field).length ≤ capacity (before.sizes field) (message.text field).length
  request : message.IsRequest → after.work = newKvWork ∧ ∃ work, work.Holds message ∧
    after.queued = before.queued ++ [(requestQueue before.fileCount message.field1, work)]
  other : ¬ message.IsRequest → after.queued = before.queued ∧
    ∀ field, after.sizes field = nextSize (before.sizes field) (message.text field).length

/-- Some field of a message is longer than the buffer it was asked for. -/
structure Exceeded (before after : Connection) (message : Message) : Prop where
  misfit : ∃ field, capacity (before.sizes field) (message.text field).length < (message.text field).length
  asks : ∃ ask ∈ after.asks, ask.2 < ask.1

theorem Filled.sizes {before after : Connection} {field other : Field} {bytes rest : List UInt8}
    (filled : Filled before after field bytes rest) (different : other ≠ field) :
    after.sizes other = before.sizes other := by
  rw [Connection.sizes, Connection.sizes, filled.others other different]

theorem Overrun.ask {before after : Connection} {field : Field} {len : Nat}
    (overrun : Overrun before after field len) : ∃ ask ∈ after.asks, ask.2 < ask.1 := by
  refine ⟨(len, capacity (before.sizes field) len), ?_, overrun.exceeds⟩
  rw [overrun.asks]
  exact List.mem_append_right _ (List.mem_singleton.mpr rfl)

theorem dispatch_run (connection : Connection) : dispatch connection = (.ok (),
    if WorkFlag.Has connection.work.head.flag WorkFlag.req then { connection with
      queued := connection.queued ++ [(requestQueue connection.fileCount
        (fieldBytes connection.work.field1 connection.work.head.field1Len.toNat), connection.work)]
      work := newKvWork }
    else connection) := by
  simp only [dispatch, read_bind_run]
  split <;> rfl

/-- The whole of a message lies in the work. -/
structure Taken (before after : Connection) (message : Message) (rest : List UInt8) : Prop where
  stream : after.socket.stream = rest
  fileCount : after.fileCount = before.fileCount
  closed : after.closed = before.closed
  asks : after.asks = before.asks ++ fieldAsks (before.sizes .field1) message.field1.length ++
    fieldAsks (before.sizes .field2) message.field2.length
  fits : ∀ field, (message.text field).length ≤ capacity (before.sizes field) (message.text field).length
  holds : after.work.Holds message
  queued : after.queued = before.queued
  sizes : ∀ field, after.sizes field = nextSize (before.sizes field) (message.text field).length

/-- The head and both fields of a message have come. -/
theorem Filled.taken {connection second third : Connection} {socket : Socket} {message : Message} {middle rest : List UInt8}
    (first : Filled { connection with socket := socket, work := { connection.work with head := message.head } }
      second .field1 message.field1 middle)
    (last : Filled second third .field2 message.field2 rest) : Taken connection third message rest := by
  have size : second.sizes .field2 = connection.sizes .field2 := first.sizes (by decide)
  constructor
  · exact last.stream
  · exact last.fileCount.trans first.fileCount
  · exact last.closed.trans first.closed
  · rw [last.asks, first.asks, size]
    rfl
  · intro field
    cases field with
    | field1 => exact first.fits
    | field2 =>
      rw [← size]
      exact last.fits
  · refine ⟨last.head.trans first.head, fun field => ?_⟩
    cases field with
    | field1 =>
      rw [last.others .field1 (by decide)]
      exact first.text
    | field2 => exact last.text
  · exact last.queued.trans first.queued
  · intro field
    cases field with
    | field1 => exact (last.sizes (by decide)).trans first.size
    | field2 =>
      rw [last.size, size]
      rfl

/-- A message in the work is put on a queue if it is a request. -/
theorem Taken.dispatched {before after : Connection} {message : Message} {rest : List UInt8}
    (taken : Taken before after message rest) : Received before (dispatch after).2 message rest := by
  have flag : after.work.head.flag = message.flag := congrArg KvWorkHead.flag taken.holds.head
  have key : fieldBytes after.work.field1 after.work.head.field1Len.toNat = message.field1 := by
    rw [taken.holds.head, show message.head.field1Len.toNat = _ from message.head_len .field1]
    exact taken.holds.fields .field1
  rw [dispatch_run, flag]
  by_cases request : WorkFlag.Has message.flag WorkFlag.req
  · rw [if_pos request]
    refine ⟨taken.stream, taken.fileCount, taken.closed, taken.asks, taken.fits,
      fun _ => ⟨rfl, after.work, taken.holds, ?_⟩, fun other => absurd request other⟩
    simp only [taken.queued, key, taken.fileCount]
  · rw [if_neg request]
    exact ⟨taken.stream, taken.fileCount, taken.closed, taken.asks, taken.fits,
      fun queued => absurd queued request, fun _ => ⟨taken.queued, taken.sizes⟩⟩

/-- A message that lies ahead whole is read to its end, unless a field of it is
longer than the buffer an earlier message left behind. -/
theorem body_spec {connection : Connection} {message : Message} {rest : List UInt8}
    (ahead : connection.socket.stream = message.bytes ++ rest) :
    wp (do
        recvHead
        recvField .field1
        recvField .field2
        dispatch)
      (fun _ after => Short after ∨ Received connection after message rest)
      (fun reason after => Short after ∨ (reason = .fault ∧ Exceeded connection after message)) connection := by
  rw [Message.bytes, List.append_assoc, List.append_assoc] at ahead
  refine wp_bind_unless ((recvHead_spec ahead).mono (fun _ _ holds => holds) fun _ _ halts =>
    halts.imp_right False.elim) ?_ fun _ => ?_
  · rintro _ first ⟨socket, stream, rfl⟩
    refine wp_bind_unless ((recvField_spec (message.head_len .field1) stream).mono (fun _ _ holds => holds)
      fun _ _ halts => halts.imp_right fun overrun => ⟨overrun.1, ⟨.field1, overrun.2.exceeds⟩, overrun.2.ask⟩) ?_
      fun _ => ?_
    · intro _ second filled
      have len : second.work.head.len .field2 = message.field2.length := by
        rw [filled.head]
        exact message.head_len .field2
      have size : second.sizes .field2 = connection.sizes .field2 := filled.sizes (by decide)
      refine wp_bind_unless ((recvField_spec len filled.stream).mono (fun _ _ holds => holds)
        fun _ _ halts => halts.imp_right fun overrun => ⟨overrun.1, ⟨.field2, ?_⟩, overrun.2.ask⟩) ?_
        fun _ => dispatch_short
      · rw [← size]
        exact overrun.2.exceeds
      · intro _ third filled2
        have run : dispatch third = (.ok (), (dispatch third).2) := by rw [dispatch_run]
        exact wp_of_ok run (.inr (filled.taken filled2).dispatched)
    · exact (recvField_short .field2).bind fun _ => dispatch_short
  · exact (recvField_short .field1).bind fun _ => (recvField_short .field2).bind fun _ => dispatch_short

/-- One callback on a message that lies ahead whole. -/
theorem cbReadSock_spec {connection : Connection} {message : Message} {rest : List UInt8}
    (ahead : connection.socket.stream = message.bytes ++ rest) :
    wp cbReadSock
      (fun _ after => Short after ∨ Received connection after message rest)
      (fun _ after => Short after ∨ Exceeded connection after message) connection := by
  have attempted : wp (attempt do
      recvHead
      recvField .field1
      recvField .field2
      dispatch)
      (fun done after => Short after ∨ (done = some () ∧ Received connection after message rest))
      (fun reason after => Short after ∨ (reason = .fault ∧ Exceeded connection after message)) connection :=
    wp_attempt (body_spec ahead) (fun _ _ holds => holds.imp_right fun received => ⟨rfl, received⟩)
      (fun _ halts => halts.imp_right fun exceeded => absurd exceeded.1 (by decide))
  refine wp_bind_unless (attempted.mono (fun _ _ holds => holds) fun _ _ halts => halts.imp_right And.right) ?_
    fun _ => keeps_ite (keeps_update fun _ short => short) (keeps_pure _)
  rintro done after ⟨rfl, received⟩
  rw [if_neg (by simp)]
  exact wp_pure (.inr received)

section Plenty

open Socket (Plenty)

variable {connection : Connection} {more : List Nat}

/-- No `recv` has been short so far. -/
def Unshort : Connection → Prop := OnSocket fun socket => socket.short = false

theorem recv_plenty {asked : Nat} (positive : 0 < asked) (plenty : OnSocket (Plenty (asked :: more)) connection) :
    wp (recv asked) (fun _ => OnSocket (Plenty more)) (fun _ => Unshort) connection :=
  wp_within ((Socket.recv_plenty positive plenty).mono (fun _ _ holds => holds) fun _ _ never => never.elim)

theorem recvHead_plenty (plenty : OnSocket (Plenty (headSize :: more)) connection) :
    wp recvHead (fun _ => OnSocket (Plenty more)) (fun _ => Unshort) connection :=
  wp_bind (recv_plenty (by decide) plenty) fun _ _ holds => holds

theorem recvField_plenty {field : Field} {len : Nat} (head : connection.work.head.len field = len)
    (plenty : OnSocket (Plenty (Message.fieldPart len ++ more)) connection) :
    wp (recvField field) (fun _ => OnSocket (Plenty more)) (fun _ => Unshort) connection := by
  refine wp_bind_ok (read_run _ connection) ?_
  rw [head]
  by_cases none_ : len = 0
  · rw [if_neg (not_not_intro none_)]
    rwa [Message.fieldPart, if_pos none_] at plenty
  · rw [if_pos none_]
    rw [Message.fieldPart, if_neg none_] at plenty
    refine wp_bind ((fieldBuf_keeps field len connection plenty).mono (fun _ _ holds => holds) fun _ _ holds => holds.1) ?_
    intro buf first holds
    refine wp_bind_ok (update_run _ first) ?_
    refine wp_bind (recv_plenty (Nat.pos_of_ne_zero none_) holds) fun bytes second holds => ?_
    have rest : Keeps (OnSocket (Plenty more)) (if buf.len < bytes.length then fault
        else do
          update fun connection => { connection with
            work := connection.work.withBuf field
              ⟨buf.len, buf.byte.copy 0 (Buf.ofList bytes).byte bytes.length⟩ }
          if bytes.length ≠ len then failed) :=
      keeps_ite (keeps_stop _) (Keeps.bind (keeps_update fun _ holds => holds) fun _ =>
        keeps_ite (keeps_stop _) (keeps_pure _))
    exact (rest second holds).mono (fun _ _ holds => holds) fun _ _ holds => holds.1

/-- A callback on a message all of whose parts come whole. -/
theorem cbReadSock_plenty {message : Message} {rest : List UInt8}
    (ahead : connection.socket.stream = message.bytes ++ rest)
    (plenty : OnSocket (Plenty (message.parts ++ more)) connection) :
    wp cbReadSock (fun _ => OnSocket (Plenty more)) (fun _ => Unshort) connection := by
  have whole := ahead
  rw [Message.bytes, List.append_assoc, List.append_assoc] at ahead
  rw [Message.parts, List.cons_append, List.append_assoc] at plenty
  have body : wp (do
      recvHead
      recvField .field1
      recvField .field2
      dispatch) (fun _ => OnSocket (Plenty more)) (fun _ => Unshort) connection := by
    refine wp_bind (((recvHead_spec ahead).and (recvHead_plenty plenty)).mono (fun _ _ holds => holds)
      fun _ _ halts => halts.2) ?_
    rintro _ _ ⟨short | ⟨socket, stream, rfl⟩, plenty⟩
    · exact absurd (plenty.1.symm.trans short) (by decide)
    have len1 := message.head_len .field1
    refine wp_bind (((recvField_spec len1 stream).and (recvField_plenty len1 plenty)).mono (fun _ _ holds => holds)
      fun _ _ halts => halts.2) ?_
    rintro _ second ⟨short | filled, plenty⟩
    · exact absurd (plenty.1.symm.trans short) (by decide)
    have len2 : second.work.head.len .field2 = message.field2.length := by
      rw [filled.head]
      exact message.head_len .field2
    refine wp_bind (recvField_plenty len2 plenty) fun _ third plenty => ?_
    exact (dispatch_keeps third plenty).mono (fun _ _ holds => holds) fun _ _ holds => holds.1
  have attempted : wp (attempt do
      recvHead
      recvField .field1
      recvField .field2
      dispatch) (fun done after => done = some () ∧ OnSocket (Plenty more) after) (fun _ => Unshort) connection := by
    have done := (body_spec whole).and body
    rcases done.cases with ⟨_, after, run, _, plenty⟩ | ⟨_, after, run, short | ⟨rfl, _⟩, unshort⟩
    · exact wp_of_ok (attempt_ok run) ⟨rfl, plenty⟩
    · exact absurd (unshort.symm.trans short) (by decide)
    · exact wp_of_error (show attempt _ connection = (.error .fault, after) by simp only [attempt, run]) unshort
  refine wp_bind attempted ?_
  rintro done after ⟨rfl, plenty⟩
  rwa [if_neg (by simp)]

end Plenty

/-- With nothing to come a callback never returns and changes nothing. -/
theorem cbReadSock_idle {connection : Connection} (none_ : connection.socket.stream = []) :
    cbReadSock connection = (.error .exhausted, connection) := by
  have idle : wp (recv headSize) (fun _ _ => False)
      (fun reason after => reason = .exhausted ∧ after = connection) connection := by
    apply wp_within
    apply (Socket.recv_spec (show 0 < headSize by decide) connection.socket).mono
    · rintro bytes socket ⟨taken, some_, _, _⟩
      rw [none_] at taken
      exact List.ne_nil_of_length_pos some_ (List.append_eq_nil_iff.mp taken.symm).1
    · rintro reason socket ⟨exhausted, _, rfl⟩
      exact ⟨exhausted, rfl⟩
  rcases idle.cases with ⟨_, _, _, never⟩ | ⟨_, _, stopped, rfl, same⟩
  · exact never.elim
  · rw [same] at stopped
    have head : recvHead connection = (.error .exhausted, connection) := bind_error stopped
    have body : (do
        recvHead
        recvField .field1
        recvField .field2
        dispatch) connection = (.error .exhausted, connection) := bind_error head
    apply bind_error
    rw [attempt, body]

end Connection

end Pingkv
