import Pingkv.Client.Exchange

/-! What the calls of `kv_client` come to: the operation that runs on the
server, the value a get copies, and what a call returns. -/

namespace Pingkv

open Exec

namespace Exchange

variable {σ : Type}

/-- The index call of a client call whose lengths fit their types. -/
def callFor (kind : IndexCall.Kind) (key value : List UInt8) : IndexCall where
  kind := kind
  key := key
  keyLen := key.length
  value := if kind = .set then value else []
  valueLen := if kind = .set then value.length else 0

/-- `left & 1`: what a call returns, whatever its result. -/
def Odd (exchange : Exchange σ) : Prop := exchange.left &&& 1 ≠ 0

instance (exchange : Exchange σ) : Decidable exchange.Odd := inferInstanceAs (Decidable (_ ≠ _))

theorem message_short {flag : UInt16} {key value : List UInt8} (short1 : key.length < 65536)
    (short2 : value.length < 65536) :
    (message flag key value).field1 = key ∧ (message flag key value).field2 = value := by
  simp only [message, Nat.mod_eq_of_lt short1, Nat.mod_eq_of_lt short2, List.take_length, and_self]

theorem message_call {flag : UInt16} {key value : List UInt8} (short1 : key.length ≤ 32767)
    (short2 : value.length < 65536) (kind : IndexCall.Kind) :
    (message flag key value).call kind = callFor kind key value := by
  have texts := @message_short flag key value (by omega) short2
  have len : wrap 16 (key.length : Int) = key.length := wrap_16_of_range (by omega) (by omega)
  simp only [Message.call, texts.1, texts.2, len, callFor]

theorem outcome_run (exchange : Exchange σ) : outcome exchange = (.ok (exchange.left &&& 1).toNat, exchange) := rfl

theorem outcome_odd (exchange : Exchange σ) : ((exchange.left &&& 1).toNat : Int) ≠ 0 ↔ exchange.Odd := by
  rw [Odd, ne_eq, ne_eq, not_iff_not, Int.natCast_eq_zero, ← UInt16.toNat_inj]
  rfl

/-- A call up to its result. -/
theorem call_spec {exchange : Exchange σ} (idle : exchange.Idle) {flag : UInt16} {kind : IndexCall.Kind}
    (request : WorkFlag.Has (flag ||| WorkFlag.req) WorkFlag.req) (stands : kindOf (flag ||| WorkFlag.req) = some kind)
    (key : List UInt8) (value : Option (List UInt8)) :
    wp (do
        sendWork (Exchange.request flag key value)
        recvResult (Exchange.request flag key value))
      (fun received after => after.Short ∨ Served exchange after (message flag key (value.getD [])) kind ∧
        Holds received (exchange.result (message flag key (value.getD [])) kind))
      (fun reason after => after.Short ∨ Lost exchange after (message flag key (value.getD [])) reason ∨
        Served exchange after (message flag key (value.getD [])) kind ∧
        0 < (exchange.result (message flag key (value.getD [])) kind).head.field1Len.toNat ∧
        (exchange.result (message flag key (value.getD [])) kind).field1 = none) exchange := by
  obtain ⟨ready, run, sent⟩ := sendWork_run exchange flag key value
  obtain ⟨segments, _, whole, rfl⟩ := sent
  have ahead := arrive_stream exchange segments
  rw [idle.stream, List.nil_append, whole] at ahead
  refine wp_bind_ok run ?_
  apply (recvResult_spec ahead idle.work idle.inbox request stands).mono
  · rintro received after (short | ⟨served, holds⟩)
    · exact .inl short
    · exact .inr ⟨served.ofArrived, holds⟩
  · rintro _ after (short | lost | ⟨served, absent⟩)
    · exact .inl short
    · exact .inr (.inl ⟨lost.reason, lost.outside, lost.run⟩)
    · exact .inr (.inr ⟨served.ofArrived, absent⟩)

/-- `strcpy` from a buffer without a zero byte leaves it. -/
theorem strcpy_fault {target source : Buf} (absent : 0 ∉ source.toList) (exchange : Exchange σ) :
    strcpy target source exchange = (.error .fault, exchange) := by
  rw [strcpy, List.idxOf?_eq_none_iff.mpr absent]
  rfl

/-- Otherwise it copies up to the first one. -/
theorem strcpy_run {target source : Buf} (present : 0 ∈ source.toList) (room : source.len ≤ target.len)
    (exchange : Exchange σ) : strcpy target source exchange =
      (.ok ⟨target.len, target.byte.copy 0 source.byte (source.toList.idxOf 0 + 1)⟩, exchange) := by
  have found : source.toList.idxOf? 0 = some (source.toList.idxOf 0) :=
    List.findIdx?_eq_some_of_exists ⟨0, present, beq_self_eq_true 0⟩
  have inside := List.idxOf_lt_length_of_mem present
  rw [Buf.toList_length] at inside
  rw [strcpy, found]
  simp only [if_pos (Nat.lt_of_lt_of_le inside room)]
  rfl

theorem message_flags : WorkFlag.Has (WorkFlag.get ||| WorkFlag.req) WorkFlag.req ∧
    kindOf (WorkFlag.get ||| WorkFlag.req) = some .get ∧
    WorkFlag.Has (WorkFlag.set ||| WorkFlag.req) WorkFlag.req ∧
    kindOf (WorkFlag.set ||| WorkFlag.req) = some .set := by
  decide

/-- A get ends with an answer exactly when a zero byte comes back with its value. -/
theorem get_spec {exchange : Exchange σ} (idle : exchange.Idle) (key : List UInt8) :
    wp (get key)
      (fun code after => after.Short ∨ Served exchange after (message WorkFlag.get key []) .get ∧
        0 ∈ (exchange.answer ((message WorkFlag.get key []).call .get)).sent ∧ code = (exchange.left &&& 1).toNat ∧
        after.vLen = (exchange.result (message WorkFlag.get key []) .get).head.field1Len.toNat ∧
        ∃ source : Buf, source.toList = (exchange.answer ((message WorkFlag.get key []).call .get)).sent ∧
          after.v = some ⟨source.len, exchange.junk.copy 0 source.byte (source.toList.idxOf 0 + 1)⟩)
      (fun reason after => after.Short ∨ Lost exchange after (message WorkFlag.get key []) reason ∨
        Served exchange after (message WorkFlag.get key []) .get ∧
        0 ∉ (exchange.answer ((message WorkFlag.get key []).call .get)).sent) exchange := by
  have flags := message_flags
  have spec := call_spec idle flags.1 flags.2.1 key none
  have sent := resultOf_get (exchange.answer ((message WorkFlag.get key []).call .get))
  have split : get key exchange = ((do
      sendWork (request WorkFlag.get key none)
      recvResult (request WorkFlag.get key none)) >>= fun work => do
        let len := work.head.field1Len.toNat
        update fun exchange => { exchange with vLen := len }
        let target : Buf := ⟨len, ← read Exchange.junk⟩
        let v ← strcpy target (work.field1.getD ⟨0, fun _ => 0⟩)
        update fun exchange => { exchange with v := some v }
        outcome) exchange := by
    rw [get, bind_assoc]
  apply wp.congr _ split
  refine wp_bind_unless (spec.mono (fun _ _ holds => holds) fun _ _ halts => halts.imp_right ?_) ?_ ?_
  · rintro (lost | ⟨served, _, absent⟩)
    · exact .inl lost
    refine .inr ⟨served, ?_⟩
    have none_ : (resultOf .get (exchange.answer ((message WorkFlag.get key []).call .get))).field1 = none := absent
    rw [← sent, none_]
    exact List.not_mem_nil
  · rintro received after ⟨served, holds⟩
    obtain ⟨source, held, len, text⟩ := holds.field1
    have text : source.toList = (exchange.answer ((message WorkFlag.get key []).call .get)).sent := text.trans sent
    have target : received.head.field1Len.toNat = source.len := by rw [holds.head, len]
    simp only [held, Option.getD_some, target]
    refine wp_bind_ok (update_run _ after) (wp_bind_ok (read_run _ _) ?_)
    by_cases present : 0 ∈ (exchange.answer ((message WorkFlag.get key []).call .get)).sent
    · refine wp_bind_ok (strcpy_run (by rwa [text])
        (show source.len ≤ (⟨source.len, after.junk⟩ : Buf).len from Nat.le_refl _) _) (wp_bind_ok (update_run _ _) ?_)
      apply wp_of_ok (outcome_run _)
      refine .inr ⟨served.withValue _ _, present, ?_, ?_, source, text, ?_⟩
      · rw [← served.left]
      · exact congrArg (fun len : Nat => (len : Int)) len
      · rw [← served.junk]
    · apply wp_of_error (bind_error (strcpy_fault (by rwa [text]) _))
      exact .inr (.inr ⟨served.withValue _ _, present⟩)
  · exact fun received => copyValue_keeps received

theorem set_spec {exchange : Exchange σ} (idle : exchange.Idle) (key value : List UInt8) :
    wp (set key value)
      (fun code after => after.Short ∨ Served exchange after (message WorkFlag.set key value) .set ∧
        code = (exchange.left &&& 1).toNat)
      (fun reason after => after.Short ∨ Lost exchange after (message WorkFlag.set key value) reason) exchange := by
  have flags := message_flags
  have spec := call_spec idle flags.2.2.1 flags.2.2.2 key (some value)
  have split : set key value exchange = ((do
      sendWork (request WorkFlag.set key (some value))
      recvResult (request WorkFlag.set key (some value))) >>= fun _ => outcome) exchange := by
    rw [set, bind_assoc]
  apply wp.congr _ split
  refine wp_bind_unless (spec.mono (fun _ _ holds => holds) fun _ _ halts => halts.imp_right ?_) ?_
    fun _ => outcome_keeps
  · rintro (lost | ⟨_, positive, _⟩)
    · exact lost
    have bare : (exchange.result (message WorkFlag.set key value) .set).head.field1Len = 0 := by
      rw [result, resultOf]
      split <;> rfl
    exact absurd positive (by simp [bare])
  · rintro _ after ⟨served, _⟩
    apply wp_of_ok (outcome_run after)
    exact .inr ⟨served, by rw [← served.left]⟩

/-- The server handles a deletion as a get. -/
theorem del_spec {exchange : Exchange σ} (idle : exchange.Idle) (key : List UInt8) :
    wp (del key) (fun _ after => after.Short ∨ Served exchange after (message WorkFlag.get key []) .get)
      (fun reason after => after.Short ∨ Lost exchange after (message WorkFlag.get key []) reason ∨
        Served exchange after (message WorkFlag.get key []) .get) exchange := by
  have flags := message_flags
  have spec := call_spec idle flags.1 flags.2.1 key none
  have split : del key exchange = ((do
      sendWork (request WorkFlag.get key none)
      recvResult (request WorkFlag.get key none)) >>= fun _ => outcome) exchange := by
    rw [del, bind_assoc]
  apply wp.congr _ split
  refine wp_bind_unless (spec.mono (fun _ _ holds => holds) fun _ _ halts => halts.imp_right (·.imp_right And.left)) ?_
    fun _ => outcome_keeps
  rintro _ after ⟨served, _⟩
  exact wp_of_ok (outcome_run after) (.inr served)

/-- Everything sent on this socket arrives at once and is received whole. -/
def Quick (exchange : Exchange σ) : Prop := OnSocket (fun socket => socket.short = false ∧
  ∀ recv, socket.arriving.length + 3 ≤ (socket.schedule recv).1 ∧ 65536 ≤ (socket.schedule recv).2) exchange

theorem sendWork_prompt {exchange : Exchange σ} (quick : exchange.Quick) (flag : UInt16) (key : List UInt8)
    (value : Option (List UInt8)) : wp (sendWork (request flag key value)) (fun _ => OnSocket Socket.Prompt)
      (fun _ => OnSocket Socket.Prompt) exchange := by
  obtain ⟨_, run, segments, few, _, rfl⟩ := sendWork_run exchange flag key value
  apply wp_of_ok run
  refine ⟨quick.1, fun recv => ⟨?_, (quick.2 recv).2⟩⟩
  have bound := (quick.2 recv).1
  simp only [arrive, List.length_append]
  omega

end Exchange

namespace KvClient

variable {σ : Type}

/-- On such a socket every call is received whole. -/
theorem Call.exchange_prompt {exchange : Exchange σ} (quick : exchange.Quick) (call : Call) :
    ¬ (call.exchange exchange).2.Short := by
  have kept : ∀ asked < 65536, Keeps Socket.Prompt (Socket.recv asked) := fun asked short => Socket.recv_prompt short
  have prompt : Exchange.OnSocket Socket.Prompt (call.exchange exchange).2 := by
    apply wp.left
    cases call with
    | get key =>
      refine wp_bind (Exchange.sendWork_prompt quick _ _ _) fun _ after prompt => ?_
      exact ((Exchange.recvResult_keeps kept _).bind fun received => Exchange.copyValue_keeps received) after prompt
    | set key value =>
      refine wp_bind (Exchange.sendWork_prompt quick _ _ _) fun _ after prompt => ?_
      exact ((Exchange.recvResult_keeps kept _).bind fun _ => Exchange.outcome_keeps) after prompt
    | del key =>
      refine wp_bind (Exchange.sendWork_prompt quick _ _ _) fun _ after prompt => ?_
      exact ((Exchange.recvResult_keeps kept _).bind fun _ => Exchange.outcome_keeps) after prompt
  intro short
  exact absurd (prompt.1.symm.trans short) (by decide)

def Call.kind : Call → IndexCall.Kind
  | .get _ => .get
  | .set _ _ => .set
  | .del _ => .del

def Call.value : Call → List UInt8
  | .get _ => []
  | .set _ value => value
  | .del _ => []

/-- The index operation a call asks for. -/
def Call.operation (call : Call) : IndexCall := Exchange.callFor call.kind call.key call.value

/-- One operation has run on the server, the one the call asks for, and what
the call returned says whether it succeeded. -/
structure Mirrors (call : Call) (before after : Exchange σ) (outcome : Except Stop Int) : Prop where
  ran : after.run.calls = before.run.calls ++ [call.operation]
  reports : ∃ result code, after.results = before.results ++ [result] ∧ outcome = .ok code ∧
    (code ≠ 0 ↔ WorkFlag.Has result.head.flag WorkFlag.suc)

theorem perform_run {call : Call} {client : KvClient σ} (server : client.HasServer call) :
    (perform call client).1 = (call.exchange (client.socket call)).1 ∧
      (perform call client).2.socket call = (call.exchange (client.socket call)).2 := by
  have ran : perform call client = within (fun client => client.socket call) (fun exchange client => { client with
      socks := Function.update client.socks (getServerNo client.serverCount (some call.key)) exchange })
      call.exchange client := by
    rw [perform, read_bind_run]
    exact congrFun (if_pos server) client
  rw [ran]
  exact ⟨rfl, Function.update_self ..⟩

/-- A server number outside `_socks`. -/
theorem perform_outside {call : Call} {client : KvClient σ} (outside : ¬ client.HasServer call) :
    perform call client = (.error .fault, client) := by
  rw [perform, read_bind_run]
  exact congrFun (if_neg outside) client

/-- The message a call sends. -/
def Call.message : Call → Message
  | .get key => Exchange.message WorkFlag.get key []
  | .set key value => Exchange.message WorkFlag.set key value
  | .del key => Exchange.message WorkFlag.get key []

/-- The server that the key of a call picks and the queue there are both in range. -/
def Reaches (client : KvClient σ) (call : Call) : Prop :=
  client.HasServer call ∧
    Connection.Inside (client.socket call).connection.fileCount (client.socket call).queues call.message

/-- A client of one server with one queue that is idle and whose segments arrive at once. -/
def fresh (answer : IndexCall → σ → IndexAnswer × σ) (index : σ) (left : UInt16) : KvClient σ where
  serverCount := 1
  socks := fun _ =>
    { connection := .accept 1 (fun _ => 0) [] fun _ => (3, 65536), queues := 1
      run := ⟨answer, index, []⟩, results := [], inbox := [], junk := fun _ => 0, left := left, v := none, vLen := 0 }

theorem fresh_reaches (answer : IndexCall → σ → IndexAnswer × σ) (index : σ) (left : UInt16) (call : Call) :
    (fresh answer index left).Reaches call := by
  have server : getServerNo 1 (some call.key) = 0 := by
    rw [getServerNo_eq (Int.le_refl 1) (by decide), Int.tmod_one]
  have queue : requestQueue 1 call.message.field1 = 0 := Int.tmod_one _
  refine ⟨?_, ?_⟩
  · change 0 ≤ getServerNo 1 (some call.key) ∧ getServerNo 1 (some call.key) < 1
    rw [server]
    decide
  · change 0 ≤ requestQueue 1 call.message.field1 ∧ requestQueue 1 call.message.field1 < 1
    rw [queue]
    decide

theorem fresh_idle (answer : IndexCall → σ → IndexAnswer × σ) (index : σ) (left : UInt16) (call : Call) :
    ((fresh answer index left).socket call).Idle := ⟨rfl, rfl, rfl⟩

theorem fresh_quick (answer : IndexCall → σ → IndexAnswer × σ) (index : σ) (left : UInt16) (call : Call) :
    ((fresh answer index left).socket call).Quick := ⟨rfl, fun _ => ⟨Nat.le_refl _, Nat.le_refl _⟩⟩

theorem fresh_whole (answer : IndexCall → σ → IndexAnswer × σ) (index : σ) (left : UInt16) (call : Call) :
    ¬ ((perform call (fresh answer index left)).2.socket call).Short := by
  rw [(perform_run (fresh_reaches answer index left call).1).2]
  exact call.exchange_prompt (fresh_quick answer index left call)

/-- An index that keeps its values in a list. -/
def listAnswer (call : IndexCall) (entries : List (List UInt8 × List UInt8)) :
    IndexAnswer × List (List UInt8 × List UInt8) :=
  match call.kind with
  | .get =>
    match entries.lookup call.key with
    | some value => (⟨value.length, some (Buf.ofList value)⟩, entries)
    | none => (⟨0, none⟩, entries)
  | .set => (⟨0, none⟩, (call.key, call.value) :: entries)
  | .del => (⟨0, none⟩, entries.filter fun entry => entry.1 ≠ call.key)

/-- When a call does what it should: a deletion never; a set where the word
left behind by the freed work is odd exactly when the index succeeded; a get
where the index succeeded, the value has a zero byte and that word is odd. -/
def Call.Faithful (exchange : Exchange σ) (call : Call) : Prop :=
  match call with
  | .get _ => 0 ≤ (exchange.answer call.operation).code ∧ 0 ∈ (exchange.answer call.operation).sent ∧ exchange.Odd
  | .set _ _ => exchange.Odd ↔ (exchange.answer call.operation).code ≠ -1
  | .del _ => False

/-- Once the operation has run, a call is right where the word left behind is. -/
theorem mirrors_of_ran {call : Call} {before after : Exchange σ} {result : KvWork}
    (ran : after.run.calls = before.run.calls ++ [call.operation])
    (results : after.results = before.results ++ [result]) :
    Mirrors call before after (.ok ((before.left &&& 1).toNat : Int)) ↔
      (before.Odd ↔ WorkFlag.Has result.head.flag WorkFlag.suc) := by
  constructor
  · rintro ⟨_, reported, code, appended, returned, told⟩
    obtain rfl := Except.ok.inj returned
    have same := List.append_cancel_left (results.symm.trans appended)
    obtain rfl := (List.cons.inj same).1
    rwa [Exchange.outcome_odd] at told
  · intro told
    exact ⟨ran, result, _, results, rfl, (Exchange.outcome_odd before).trans told⟩

/-- A call that stops is wrong. -/
theorem not_mirrors {call : Call} {before after : Exchange σ} {reason : Stop} :
    ¬ Mirrors call before after (.error reason) := by
  rintro ⟨_, _, _, _, returned, _⟩
  cases returned

/-- A call on its socket. -/
theorem Call.exchange_mirrors (call : Call) {exchange : Exchange σ} (idle : exchange.Idle)
    (keyLen : call.key.length ≤ 32767) (valueLen : call.value.length ≤ 32767)
    (whole : ¬ (call.exchange exchange).2.Short) :
    Mirrors call exchange (call.exchange exchange).2 (call.exchange exchange).1 ↔
      Connection.Inside exchange.connection.fileCount exchange.queues call.message ∧ call.Faithful exchange := by
  cases call with
  | get key =>
    have operation : (Exchange.message WorkFlag.get key []).call .get = Call.operation (.get key) :=
      Exchange.message_call keyLen (by decide) .get
    rcases ((Exchange.get_spec idle key).unless whole).cases with
      ⟨code, after, run, served, present, rfl, _⟩ | ⟨reason, after, run, lost | ⟨served, absent⟩⟩
    · simp only [Call.exchange, run]
      have ran := served.calls
      rw [operation] at ran present
      have found : 0 ≤ (exchange.answer (Call.operation (.get key))).code := by
        by_contra failed
        rw [IndexAnswer.sent, if_pos (by omega)] at present
        exact List.not_mem_nil present
      rw [mirrors_of_ran ran served.results, Exchange.result, operation, resultOf_flag]
      exact ⟨fun told => ⟨served.inside, found, present, told.mpr found⟩, fun good => iff_of_true good.2.2.2 found⟩
    · simp only [Call.exchange, run]
      exact iff_of_false not_mirrors fun good => lost.outside good.1
    · simp only [Call.exchange, run]
      rw [operation] at absent
      exact iff_of_false not_mirrors fun good => absent good.2.2.1
  | set key value =>
    have operation : (Exchange.message WorkFlag.set key value).call .set = Call.operation (.set key value) :=
      Exchange.message_call keyLen (Nat.lt_of_le_of_lt valueLen (by decide)) .set
    rcases ((Exchange.set_spec idle key value).unless whole).cases with
      ⟨code, after, run, served, rfl⟩ | ⟨reason, after, run, lost⟩
    · simp only [Call.exchange, run]
      have ran := served.calls
      rw [operation] at ran
      rw [mirrors_of_ran ran served.results, Exchange.result, operation, resultOf_flag]
      exact ⟨fun told => ⟨served.inside, told⟩, fun good => good.2⟩
    · simp only [Call.exchange, run]
      exact iff_of_false not_mirrors fun good => lost.outside good.1
  | del key =>
    have different : (Exchange.message WorkFlag.get key []).call .get ≠ Call.operation (.del key) :=
      fun same => nomatch (show IndexCall.Kind.get = .del from congrArg IndexCall.kind same)
    have wrong : ∀ {after : Exchange σ} {outcome : Except Stop Int},
        Exchange.Served exchange after (Exchange.message WorkFlag.get key []) .get →
          ¬ Mirrors (.del key) exchange after outcome := by
      rintro after outcome served ⟨ran, _⟩
      exact different (List.cons.inj (List.append_cancel_left (served.calls.symm.trans ran))).1
    apply iff_of_false _ fun good => good.2
    rcases ((Exchange.del_spec idle key).unless whole).cases with
      ⟨code, after, run, served⟩ | ⟨reason, after, run, lost | served⟩
    · simp only [Call.exchange, run]
      exact wrong served
    · simp only [Call.exchange, run]
      exact not_mirrors
    · simp only [Call.exchange, run]
      exact wrong served

theorem mirrors_iff (call : Call) (client : KvClient σ) (idle : (client.socket call).Idle)
    (keyLen : 1 ≤ call.key.length ∧ call.key.length ≤ 32767) (valueLen : call.value.length ≤ 32767)
    (whole : ¬ ((perform call client).2.socket call).Short) :
    Mirrors call (client.socket call) ((perform call client).2.socket call) (perform call client).1 ↔
      client.Reaches call ∧ call.Faithful (client.socket call) := by
  by_cases server : client.HasServer call
  · rw [(perform_run server).2] at whole
    rw [(perform_run server).1, (perform_run server).2, call.exchange_mirrors idle keyLen.2 valueLen whole, Reaches,
      and_assoc, and_iff_right server]
  · rw [perform_outside server]
    exact iff_of_false not_mirrors fun good => server good.1.1

theorem set_mirrors : Mirrors (.set [97] [1]) ((fresh listAnswer [] 1).socket (.set [97] [1]))
    ((perform (.set [97] [1]) (fresh listAnswer [] 1)).2.socket (.set [97] [1]))
    (perform (.set [97] [1]) (fresh listAnswer [] 1)).1 :=
  (mirrors_iff (.set [97] [1]) _ (fresh_idle ..) (by decide) (by decide) (fresh_whole _ _ _ _)).mpr
    ⟨fresh_reaches _ _ _ _, (by decide : _ ≠ _ ↔ _ ≠ _)⟩

/-- A deletion runs as a get, and returns 0 where its result says success. -/
theorem deletion_runs_get :
    ((perform (.del [97]) (fresh listAnswer [([97], [1])] WorkFlag.suc)).2.socket (.del [97])).run.calls =
      [⟨.get, [97], 1, [], 0⟩] ∧
    ((perform (.del [97]) (fresh listAnswer [([97], [1])] WorkFlag.suc)).2.socket (.del [97])).results.map
      (fun result => result.head.flag) = [WorkFlag.suc] ∧
    (perform (.del [97]) (fresh listAnswer [([97], [1])] WorkFlag.suc)).1 = .ok 0 ∧
    ¬ Mirrors (.del [97]) ((fresh listAnswer [([97], [1])] WorkFlag.suc).socket (.del [97]))
      ((perform (.del [97]) (fresh listAnswer [([97], [1])] WorkFlag.suc)).2.socket (.del [97]))
      (perform (.del [97]) (fresh listAnswer [([97], [1])] WorkFlag.suc)).1 := by
  refine ⟨by decide +kernel, by decide +kernel, by rfl, fun mirrors => ?_⟩
  exact absurd mirrors.ran (by decide +kernel)

/-- A set either has failed before the server ran anything or runs with its own
lengths and bytes. -/
def SetDelivered (key value : List UInt8) (before after : Exchange σ) (outcome : Except Stop Int) : Prop :=
  (outcome = .error .failed ∧ after.run.calls = before.run.calls) ∨
    after.run.calls = before.run.calls ++ [Exchange.callFor .set key value]

/-- The set on its socket. -/
theorem Call.exchange_delivered {key value : List UInt8} {exchange : Exchange σ} (idle : exchange.Idle)
    (whole : ¬ (Call.exchange (.set key value) exchange).2.Short) :
    SetDelivered key value exchange (Call.exchange (.set key value) exchange).2
        (Call.exchange (.set key value) exchange).1 ↔
      Connection.Inside exchange.connection.fileCount exchange.queues (Call.message (.set key value)) ∧
        key.length ≤ 32767 ∧ value.length ≤ 65535 := by
  rcases ((Exchange.set_spec idle key value).unless whole).cases with
    ⟨code, after, run, served, rfl⟩ | ⟨reason, after, run, lost⟩
  · simp only [Call.exchange, run]
    constructor
    · rintro (⟨failed, _⟩ | ran)
      · cases failed
      · have same := (List.cons.inj (List.append_cancel_left (served.calls.symm.trans ran))).1
        have key16 : wrap 16 (key.take (key.length % 65536)).length = key.length := congrArg IndexCall.keyLen same
        have value16 : ((value.take (value.length % 65536)).length : Int) = value.length :=
          congrArg IndexCall.valueLen same
        have bounds := wrap_16_bounds (key.take (key.length % 65536)).length
        rw [Exchange.take_length] at value16
        exact ⟨served.inside, by omega, by omega⟩
    · rintro ⟨_, shortKey, shortValue⟩
      right
      rw [served.calls, Exchange.message_call shortKey (Nat.lt_succ_of_le shortValue)]
  · simp only [Call.exchange, run]
    apply iff_of_false
    · rintro (⟨failed, _⟩ | ran)
      · cases lost.reason.symm.trans (Except.error.inj failed)
      · rw [lost.run] at ran
        exact List.cons_ne_nil _ _ (List.self_eq_append_right.mp ran)
    · exact fun good => lost.outside good.1

/-- The lengths of a set survive the three integer types they pass exactly when
the key fits a `short` and the value a `uint16_t`. -/
theorem setDelivered_iff (key value : List UInt8) (client : KvClient σ) (idle : (client.socket (.set key value)).Idle)
    (whole : ¬ ((perform (.set key value) client).2.socket (.set key value)).Short) :
    SetDelivered key value (client.socket (.set key value)) ((perform (.set key value) client).2.socket (.set key value))
        (perform (.set key value) client).1 ↔
      client.Reaches (.set key value) ∧ key.length ≤ 32767 ∧ value.length ≤ 65535 := by
  by_cases server : client.HasServer (.set key value)
  · rw [(perform_run server).2] at whole
    rw [(perform_run server).1, (perform_run server).2, Call.exchange_delivered idle whole, Reaches, and_assoc,
      and_iff_right server]
  · rw [perform_outside server]
    apply iff_of_false
    · rintro (⟨failed, _⟩ | ran)
      · cases failed
      · exact List.cons_ne_nil _ _ (List.self_eq_append_right.mp ran)
    · exact fun good => server good.1.1

theorem set_delivered : SetDelivered [97] [1] ((fresh listAnswer [] 1).socket (.set [97] [1]))
    ((perform (.set [97] [1]) (fresh listAnswer [] 1)).2.socket (.set [97] [1]))
    (perform (.set [97] [1]) (fresh listAnswer [] 1)).1 :=
  (setDelivered_iff [97] [1] _ (fresh_idle ..) (fresh_whole _ _ _ _)).mpr ⟨fresh_reaches _ _ _ _, by decide⟩

private theorem fresh_set_calls {key value : List UInt8} {calls : List IndexCall}
    (becomes : [(Exchange.message WorkFlag.set key value).call .set] = calls) :
    ((perform (.set key value) (fresh listAnswer [] 1)).2.socket (.set key value)).run.calls = calls := by
  have whole := fresh_whole listAnswer [] 1 (.set key value)
  have reaches := fresh_reaches listAnswer [] 1 (.set key value)
  rw [(perform_run reaches.1).2] at whole ⊢
  rcases ((Exchange.set_spec (fresh_idle listAnswer [] 1 (.set key value)) key value).unless whole).cases with
    ⟨_, after, run, served, _⟩ | ⟨_, after, run, lost⟩
  · rw [Call.exchange, run, served.calls]
    exact becomes
  · exact absurd reaches.2 lost.outside

/-- A key of 32768 bytes reaches the index with a length of -32768. -/
theorem long_key_negative :
    ((perform (.set (List.replicate 32768 97) [1]) (fresh listAnswer [] 1)).2.socket
      (.set (List.replicate 32768 97) [1])).run.calls = [⟨.set, List.replicate 32768 97, -32768, [1], 1⟩] ∧
    ¬ SetDelivered (List.replicate 32768 97) [1]
      ((fresh listAnswer [] 1).socket (.set (List.replicate 32768 97) [1]))
      ((perform (.set (List.replicate 32768 97) [1]) (fresh listAnswer [] 1)).2.socket
        (.set (List.replicate 32768 97) [1]))
      (perform (.set (List.replicate 32768 97) [1]) (fresh listAnswer [] 1)).1 := by
  have len : (List.replicate 32768 (97 : UInt8)).length = 32768 := List.length_replicate
  generalize List.replicate 32768 (97 : UInt8) = key at len
  have texts := @Exchange.message_short WorkFlag.set key [1] (by rw [len]; decide) (by decide)
  have calls : ((perform (.set key [1]) (fresh listAnswer [] 1)).2.socket (.set key [1])).run.calls =
      [⟨.set, key, -32768, [1], 1⟩] := by
    apply fresh_set_calls
    rw [Message.call, texts.1, texts.2, len]
    rfl
  refine ⟨calls, ?_⟩
  rintro (⟨_, none_⟩ | ran)
  · rw [calls] at none_
    cases none_
  · rw [calls] at ran
    have lens : (-32768 : Int) = key.length := congrArg IndexCall.keyLen (List.cons.inj ran).1
    omega

/-- A get has set `*v_len` to the length of the value and `*v` to a buffer of
that length with its bytes, without leaving a buffer. -/
def Copied (value : List UInt8) (after : Exchange σ) (outcome : Except Stop Int) : Prop :=
  (∃ code, outcome = .ok code) ∧ after.vLen = value.length ∧
    ∃ buf, after.v = some buf ∧ buf.len = value.length ∧ buf.toList = value

/-- `strcpy` copies a value whole exactly when it has a zero byte and the
memory behind the copy of its first one holds the rest of it already. -/
theorem copied_iff (key value : List UInt8) (client : KvClient σ) (idle : (client.socket (.get key)).Idle)
    (reaches : client.Reaches (.get key)) (len : 1 ≤ value.length ∧ value.length ≤ 65535)
    (answers : (client.socket (.get key)).answer ((Exchange.message WorkFlag.get key []).call .get) =
      ⟨value.length, some (Buf.ofList value)⟩)
    (whole : ¬ ((perform (.get key) client).2.socket (.get key)).Short) :
    Copied value ((perform (.get key) client).2.socket (.get key)) (perform (.get key) client).1 ↔
      0 ∈ value ∧ (client.socket (.get key)).junk.slice (value.idxOf 0 + 1) (value.length - (value.idxOf 0 + 1)) =
        value.drop (value.idxOf 0 + 1) := by
  obtain ⟨server, inside⟩ := reaches
  rw [(perform_run server).2] at whole
  rw [(perform_run server).1, (perform_run server).2]
  generalize client.socket (.get key) = exchange at idle whole answers inside
  have cut : ((value.length : Int) % 65536).toNat = value.length := by omega
  have sent : (exchange.answer ((Exchange.message WorkFlag.get key []).call .get)).sent = value := by
    rw [answers, IndexAnswer.sent, if_neg (by simp), cut, fieldBytes_ofList (Nat.le_refl _), List.take_length]
  rcases ((Exchange.get_spec idle key).unless whole).cases with
    ⟨code, after, run, _, present, rfl, vLen, source, text, v⟩ | ⟨reason, after, run, lost | ⟨_, absent⟩⟩
  · simp only [Call.exchange, run]
    rw [sent] at present text
    have size : source.len = value.length := by rw [← Buf.toList_length, text]
    have last := List.idxOf_lt_length_of_mem present
    have parts : value = source.byte.slice 0 (value.idxOf 0 + 1) ++
        source.byte.slice (value.idxOf 0 + 1) (value.length - (value.idxOf 0 + 1)) := by
      have total : source.len = value.idxOf 0 + 1 + (value.length - (value.idxOf 0 + 1)) := by omega
      conv_lhs => rw [← text, Buf.toList, total, Mem.slice_append, Nat.zero_add]
    have copied : Buf.toList ⟨source.len, exchange.junk.copy 0 source.byte (source.toList.idxOf 0 + 1)⟩ =
        source.byte.slice 0 (value.idxOf 0 + 1) ++
          exchange.junk.slice (value.idxOf 0 + 1) (value.length - (value.idxOf 0 + 1)) := by
      rw [Buf.toList, text, size, Mem.slice_copy_first _ _ (Nat.succ_le_of_lt last)]
    have rest : value.drop (value.idxOf 0 + 1) =
        source.byte.slice (value.idxOf 0 + 1) (value.length - (value.idxOf 0 + 1)) :=
      (congrArg (List.drop (value.idxOf 0 + 1)) parts).trans (List.drop_left' (Mem.slice_length ..))
    have received : (exchange.result (Exchange.message WorkFlag.get key []) .get).head.field1Len.toNat =
        value.length := by
      rw [Exchange.result, resultOf_get_len (by rw [answers]; exact Int.natCast_nonneg _), answers, cut]
    rw [rest]
    constructor
    · rintro ⟨_, _, buf, holds, _, same⟩
      obtain rfl := Option.some.inj (v.symm.trans holds)
      rw [copied] at same
      conv_rhs at same => rw [parts]
      exact ⟨present, List.append_cancel_left same⟩
    · rintro ⟨_, same⟩
      refine ⟨⟨_, rfl⟩, by rw [vLen, received], _, v, size, ?_⟩
      rw [copied, same, ← parts]
  · exact absurd inside lost.outside
  · simp only [Call.exchange, run]
    rw [sent] at absent
    apply iff_of_false
    · rintro ⟨⟨_, returned⟩, _⟩
      cases returned
    · exact fun good => absent good.1

theorem zero_byte_copied : Copied [7, 0] ((perform (.get [97]) (fresh listAnswer [([97], [7, 0])] 1)).2.socket (.get [97]))
    (perform (.get [97]) (fresh listAnswer [([97], [7, 0])] 1)).1 :=
  (copied_iff [97] [7, 0] _ (fresh_idle ..) (fresh_reaches _ _ _ _) (by decide) rfl (fresh_whole _ _ _ _)).mpr (by decide)

/-- The value 7 is read past its end, and of the value 7 0 9 the last byte is lost. -/
theorem strcpy_misses :
    (perform (.get [97]) (fresh listAnswer [([97], [7])] 1)).1 = .error .fault ∧
    ¬ Copied [7] ((perform (.get [97]) (fresh listAnswer [([97], [7])] 1)).2.socket (.get [97]))
      (perform (.get [97]) (fresh listAnswer [([97], [7])] 1)).1 ∧
    ((perform (.get [97]) (fresh listAnswer [([97], [7, 0, 9])] 1)).2.socket (.get [97])).v.map Buf.toList =
      some [7, 0, 0] := by
  have faults : (perform (.get [97]) (fresh listAnswer [([97], [7])] 1)).1 = .error .fault := by rfl
  refine ⟨faults, ?_, by decide +kernel⟩
  rintro ⟨⟨code, returned⟩, _⟩
  cases faults.symm.trans returned

end KvClient

end Pingkv
