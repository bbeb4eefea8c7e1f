import Pingkv.Client.Settled
import Pingkv.Server.Store

/-! A client over the servers of its sockets, each with an index behind every one of its
queues: whichever server and queue its keys pick, one map from keys to values. -/

namespace Pingkv

open Exec Simulation

/-- How a server answers the calls of its workers: each on the index of the queue its key picks. -/
def Cache.KvIndex.dispatch (fileCount : Int) (call : IndexCall) (indexes : Int → Cache.KvIndex) : IndexAnswer × (Int → Cache.KvIndex) :=
  let (answer, after) := respond call (indexes (requestQueue fileCount call.key))
  (answer, Function.update indexes (requestQueue fileCount call.key) after)

/-- What `strcpy` leaves of a value: a buffer of its length that agrees with it up to the first zero byte. -/
structure CopiesString (value : List UInt8) (v : Option Buf) (vLen : Int) : Prop where
  zero : 0 ∈ value
  len : vLen = value.length
  buf : ∃ buf, v = some buf ∧ buf.len = value.length ∧
    buf.toList.take (value.idxOf 0 + 1) = value.take (value.idxOf 0 + 1)

/-- A string that ends with its only zero byte is copied whole. -/
theorem CopiesString.whole {value : List UInt8} {v : Option Buf} {vLen : Int} (copies : CopiesString value v vLen)
    (last : value.idxOf 0 + 1 = value.length) : v.map Buf.toList = some value := by
  obtain ⟨buf, rfl, len, same⟩ := copies.buf
  rw [last, List.take_length, ← len, ← Buf.toList_length, List.take_length] at same
  exact congrArg some same

abbrev Cluster := KvClient (Int → Cache.KvIndex)

namespace Cluster

open KvClient

/-- A call that has returned, with what a get has copied, or what comes between two calls. -/
inductive Event where
  | get (key : List UInt8) (v : Option Buf) (vLen : Int)
  | set (key value : List UInt8)
  | del (key : List UInt8)
  | drift

/-- What a caller sees of a call. -/
def shows (after : Exchange (Int → Cache.KvIndex)) : KvClient.Call → Event
  | .get key => .get key after.v after.vLen
  | .set key value => .set key value
  | .del key => .del key

/-- The index a key is kept on, by the number of its server and of the queue there. -/
def Routes (client : Cluster) (number queue : Int) (key : List UInt8) : Prop :=
  getServerNo client.serverCount (some key) = number ∧
    requestQueue (client.socks number).connection.fileCount key = queue

/-- A call whose server and queue are in range, of lengths that fit their types, that fits its index. -/
structure Fits (client : Cluster) (call : KvClient.Call) : Prop where
  reaches : client.Reaches call
  keyLen : call.key.length ≤ 32767
  valueLen : call.value.length ≤ 65535
  admits : ∀ queue, requestQueue (client.socket call).connection.fileCount call.key = queue →
    ((client.socket call).run.index queue).Admits call.sent

/-- A call that returns and is received whole, or a change of some index between two calls. -/
inductive Step (before : Cluster) : Event → Cluster → Prop where
  | call {call : KvClient.Call} {code : Int} {after : Cluster} (fits : Fits before call)
      (ran : perform call before = (.ok code, after)) (whole : ¬ (after.socket call).Short) :
      Step before (shows (after.socket call) call) after
  | drift {number queue : Int} {index : Cache.KvIndex} (drifts : Cache.KvIndex.Drift ((before.socks number).run.index queue) index) :
      Step before .drift { before with socks := Function.update before.socks number { before.socks number with
        run := { (before.socks number).run with
          index := Function.update (before.socks number).run.index queue index } } }

/-- The map that the calls are meant to be made on. A deletion is sent as a get, and deletes nothing. -/
inductive Told (values : Values) : Event → Values → Prop where
  | get {key : List UInt8} {v : Option Buf} {vLen : Int} (copies : CopiesString (values key) v vLen) :
      Told values (.get key v vLen) values
  | set (key value : List UInt8) : Told values (.set key value) (Function.update values key value)
  | del (key : List UInt8) : Told values (.del key) values
  | drift : Told values .drift values

/-- What an event makes of the value of a key. -/
def Event.writes (key : List UInt8) : Event → Option (List UInt8)
  | .set other value => if other = key then some value else none
  | _ => none

/-- The value of the last set of a key. -/
def lastValue (key : List UInt8) (events : List Event) : List UInt8 :=
  (events.filterMap (Event.writes key)).getLast?.getD []

/-- A client whose servers together have these values. -/
structure Stands (client : Cluster) (values : Values) : Prop where
  idle : ∀ number, (client.socks number).Idle
  answer : ∀ number, (client.socks number).run.answer = Cache.KvIndex.dispatch (client.socks number).connection.fileCount
  short : ∀ key, (values key).length < 65536
  sharded : ∀ number queue, ∃ shard, ((client.socks number).run.index queue).Stands shard ∧
    ∀ key, client.Routes number queue key → shard key = values key

/-- A client whose servers were just started on new data files. -/
structure Starts (client : Cluster) : Prop where
  idle : ∀ number, (client.socks number).Idle
  answer : ∀ number, (client.socks number).run.answer = Cache.KvIndex.dispatch (client.socks number).connection.fileCount
  fresh : ∀ number queue, ∃ file junk, KvIndex.Fresh file ∧ (client.socks number).run.index queue = .opened file junk

variable {client before after : Cluster} {call : KvClient.Call} {values values' : Values} {event : Event}

theorem Starts.stands (starts : client.Starts) : client.Stands fun _ => [] where
  idle := starts.idle
  answer := starts.answer
  short _ := Nat.succ_pos _
  sharded number queue := by
    obtain ⟨file, junk, fresh, same⟩ := starts.fresh number queue
    exact ⟨fun _ => [], same ▸ Cache.KvIndex.fresh_stands fresh junk, fun _ _ => rfl⟩

/-- One index of one server has changed, and with it the values of keys that are kept there. -/
theorem Stands.turn (stands : before.Stands values) {number queue : Int} {index : Cache.KvIndex} {shard : Values}
    (count : after.serverCount = before.serverCount) (away : ∀ other, other ≠ number → after.socks other = before.socks other)
    (idle : (after.socks number).Idle)
    (fileCount : (after.socks number).connection.fileCount = (before.socks number).connection.fileCount)
    (answer : (after.socks number).run.answer = (before.socks number).run.answer)
    (changed : (after.socks number).run.index = Function.update (before.socks number).run.index queue index)
    (short : ∀ key, (values' key).length < 65536) (stood : index.Stands shard)
    (own : ∀ key, before.Routes number queue key → shard key = values' key)
    (others : ∀ key, ¬ before.Routes number queue key → values' key = values key) : after.Stands values' := by
  have counts (other : Int) : (after.socks other).connection.fileCount = (before.socks other).connection.fileCount := by
    by_cases same : other = number
    · rw [same, fileCount]
    · rw [away other same]
  refine ⟨fun other => ?_, fun other => ?_, short, fun other place => ?_⟩
  · by_cases same : other = number
    · exact same ▸ idle
    · exact away other same ▸ stands.idle other
  · rw [counts, ← stands.answer]
    by_cases same : other = number
    · rw [same, answer]
    · rw [away other same]
  · have routes (key : List UInt8) : after.Routes other place key ↔ before.Routes other place key := by
      rw [Routes, Routes, counts, count]
    by_cases here : other = number ∧ place = queue
    · obtain ⟨rfl, rfl⟩ := here
      refine ⟨shard, ?_, fun key routed => own key ((routes key).mp routed)⟩
      rw [changed, Function.update_self]
      exact stood
    · obtain ⟨kept, stood', same⟩ := stands.sharded other place
      refine ⟨kept, ?_, fun key routed => ?_⟩
      · by_cases equal : other = number
        · subst equal
          rw [changed, Function.update_of_ne fun equal => here ⟨rfl, equal⟩]
          exact stood'
        · rw [away other equal]
          exact stood'
      · have routed := (routes key).mp routed
        refine (same key routed).trans (others key fun kept => ?_).symm
        obtain rfl := routed.1.symm.trans kept.1
        exact here ⟨rfl, routed.2.symm.trans kept.2⟩

/-- A call that returns has run on the socket of its server, and on no other. -/
theorem perform_leaves {code : Int} (server : before.HasServer call) (ran : perform call before = (.ok code, after)) :
    after.serverCount = before.serverCount ∧
      (∀ other, other ≠ getServerNo before.serverCount (some call.key) → after.socks other = before.socks other) ∧
      call.exchange (before.socket call) = (.ok code, after.socks (getServerNo before.serverCount (some call.key))) := by
  have same : perform call before = ((call.exchange (before.socket call)).1, { before with
      socks := Function.update before.socks (getServerNo before.serverCount (some call.key))
        (call.exchange (before.socket call)).2 }) := by
    rw [perform, read_bind_run]
    exact congrFun (if_pos server) before
  obtain ⟨returned, rfl⟩ := Prod.mk.inj (same.symm.trans ran)
  refine ⟨rfl, fun other away => Function.update_of_ne away .., (run_of_fst returned).trans (congrArg (Prod.mk _) ?_)⟩
  simp only [Function.update_self]

theorem sent_key (call : KvClient.Call) : call.sent.key = call.key := by cases call <;> rfl

/-- The value that an answer of the index sends back. -/
theorem answerOf_sent {outcome : Except Stop (Option (List UInt8))} {value : List UInt8} (short : value.length < 65536)
    (ended : (∃ found, outcome = .ok found ∧ found.getD [] = value) ∨ outcome = .error .failed) :
    (Cache.KvIndex.answerOf outcome).sent = value ∨ (Cache.KvIndex.answerOf outcome).sent = [] := by
  rcases ended with ⟨found, rfl, rfl⟩ | rfl
  · cases found with
    | none => exact .inl rfl
    | some value =>
      have whole : ((value.length : Int) % 65536).toNat = value.length := by
        have fits : value.length < 65536 := short
        omega
      refine .inl ?_
      rw [IndexAnswer.sent, if_neg (show ¬ (Cache.KvIndex.answerOf (.ok (some value))).code < 0 from Int.not_lt.mpr (Int.natCast_nonneg _))]
      change fieldBytes (some (Buf.ofList value)) ((value.length : Int) % 65536).toNat = value
      rw [whole, fieldBytes_ofList (Nat.le_refl _), List.take_length]
  · exact .inr rfl

/-- The length that is sent with a value. -/
theorem sent_length {answer : IndexAnswer} (nonempty : answer.sent ≠ []) :
    (resultOf .get answer).head.field1Len.toNat = answer.sent.length := by
  have found : 0 ≤ answer.code := by
    by_contra failed
    exact nonempty (by rw [IndexAnswer.sent, if_pos (by omega)])
  rw [resultOf_get_len found]
  rw [IndexAnswer.sent, if_neg (by omega)] at nonempty ⊢
  cases held : answer.value with
  | none =>
    rw [held] at nonempty
    exact absurd rfl nonempty
  | some buf => simp only [fieldBytes, Mem.slice_length]

/-- What a get that returns has copied. -/
theorem get_copies {key value : List UInt8} {exchange later : Exchange (Int → Cache.KvIndex)} {code : Int} (idle : exchange.Idle)
    (keyLen : key.length ≤ 32767) (ran : Exchange.get key exchange = (.ok code, later)) (whole : ¬ later.Short)
    (came : (exchange.answer (Exchange.callFor .get key [])).sent = value ∨
      (exchange.answer (Exchange.callFor .get key [])).sent = []) : CopiesString value later.v later.vLen := by
  obtain ⟨_, present, _, vLen, source, text, v⟩ := ((Exchange.get_spec idle key).ok ran).resolve_left whole
  rw [Exchange.result, Exchange.message_call keyLen (by decide)] at vLen
  rw [Exchange.message_call keyLen (by decide)] at present text
  have nonempty : (exchange.answer (Exchange.callFor .get key [])).sent ≠ [] := List.ne_nil_of_mem present
  have len := sent_length nonempty
  rw [came.resolve_right nonempty] at present text len
  have size : source.len = value.length := by rw [← Buf.toList_length, text]
  have within : value.idxOf 0 + 1 ≤ source.len := size ▸ Nat.succ_le_of_lt (List.idxOf_lt_length_of_mem present)
  have cut := source.slice_append_drop within
  rw [text] at cut
  have first : value.take (value.idxOf 0 + 1) = source.byte.slice 0 (value.idxOf 0 + 1) :=
    (congrArg (List.take _) cut.symm).trans (List.take_left' (Mem.slice_length ..))
  refine ⟨present, vLen.trans (congrArg Nat.cast len), _, v, size, ?_⟩
  rw [text, Buf.toList, Mem.slice_copy_first _ _ within, first]
  exact List.take_left' (Mem.slice_length ..)

/-- What a call leaves on the index of its key. -/
theorem dispatch_sent (call : KvClient.Call) (fileCount : Int) (indexes : Int → Cache.KvIndex) :
    Cache.KvIndex.dispatch fileCount call.sent indexes =
      ((Cache.KvIndex.respond call.sent (indexes (requestQueue fileCount call.key))).1,
        Function.update indexes (requestQueue fileCount call.key)
          (Cache.KvIndex.respond call.sent (indexes (requestQueue fileCount call.key))).2) := by
  rw [Cache.KvIndex.dispatch, sent_key]

/-- A call on the index of its key is a step of the map. -/
theorem simulates : Simulates Step Told Stands := by
  rintro before values event after stands step
  cases step with
  | @drift number queue index drifts =>
    obtain ⟨shard, stood, agrees⟩ := stands.sharded number queue
    refine ⟨values, .drift, stands.turn rfl (fun other away => Function.update_of_ne away ..) ?_ ?_ ?_ ?_ stands.short
      (drifts.stands stood) agrees fun _ _ => rfl⟩ <;> simp only [Function.update_self]
    exact ⟨(stands.idle number).stream, (stands.idle number).work, (stands.idle number).inbox⟩
  | @call call code _ fits ran whole =>
    obtain ⟨count, away, ran⟩ := perform_leaves fits.reaches.1 ran
    have place : after.socket call = after.socks (getServerNo before.serverCount (some call.key)) := by rw [socket, count]
    rw [place] at whole ⊢
    have idle : (before.socket call).Idle := stands.idle _
    obtain ⟨settled, idle'⟩ := call.exchange_settles idle fits.keyLen fits.valueLen ran whole
    obtain ⟨shard, stood, agrees⟩ := stands.sharded (getServerNo before.serverCount (some call.key))
      (requestQueue (before.socket call).connection.fileCount call.key)
    obtain ⟨outcome, shard', answered, told, later⟩ := Cache.KvIndex.respond_stands stood (fits.admits _ rfl)
    have index := settled.index
    have ask : (before.socket call).run.answer = Cache.KvIndex.dispatch (before.socket call).connection.fileCount := stands.answer _
    rw [ask, dispatch_sent] at index
    have turned {shard values' : Values} := @Stands.turn _ after _ values' stands _ _ _ shard count away idle'
      settled.fileCount settled.answer index
    have here (key : List UInt8) (own : key = call.key) : before.Routes (getServerNo before.serverCount (some call.key))
        (requestQueue (before.socket call).connection.fileCount call.key) key := by
      subst own
      exact ⟨rfl, rfl⟩
    cases call with
    | get key =>
      have op : Cache.KvIndex.opOf (KvClient.Call.sent (.get key)) = .get (Buf.ofList key) := rfl
      rw [op] at told
      cases told with
      | get ended =>
        have same : shard key = values key := agrees key (here key rfl)
        rw [Buf.toList_ofList, same] at ended
        have came : (before.socket (.get key)).answer (Exchange.callFor .get key []) = Cache.KvIndex.answerOf outcome := by
          rw [Exchange.answer, ask]
          exact (congrArg Prod.fst (dispatch_sent (.get key) _ _)).trans answered
        have copies := get_copies idle fits.keyLen ran whole (came ▸ answerOf_sent (stands.short key) ended)
        exact ⟨values, .get copies, turned stands.short later agrees fun _ _ => rfl⟩
    | set key value =>
      have op : Cache.KvIndex.opOf (KvClient.Call.sent (.set key value)) = .set (Buf.ofList key) (Buf.ofList value) := rfl
      rw [op] at told
      cases told with
      | set ended =>
        rw [Buf.toList_ofList, Buf.toList_ofList] at later
        refine ⟨_, .set key value, turned ?_ later ?_ ?_⟩
        · exact (Function.forall_update_iff values fun _ value => value.length < 65536).mpr
            ⟨Nat.lt_succ_of_le fits.valueLen, fun key _ => stands.short key⟩
        · intro other routed
          by_cases own : other = key
          · rw [own, Function.update_self, Function.update_self]
          · rw [Function.update_of_ne own, Function.update_of_ne own, agrees other routed]
        · exact fun other away => Function.update_of_ne (fun own => away (here other own)) ..
    | del key =>
      have op : Cache.KvIndex.opOf (KvClient.Call.sent (.del key)) = .get (Buf.ofList key) := rfl
      rw [op] at told
      cases told with
      | get ended => exact ⟨values, .del key, turned stands.short later agrees fun _ _ => rfl⟩

theorem Told.writes (told : Told values event values') (key : List UInt8) :
    values' key = (event.writes key).getD (values key) := by
  cases told with
  | set other value =>
    simp only [Event.writes]
    by_cases same : other = key
    · subst same
      simp
    · rw [if_neg same, Function.update_of_ne (Ne.symm same)]
      rfl
  | get | del | drift => rfl

/-- A get that returns has copied the value of the last set of its key, whichever of the
servers and their indexes the calls have gone to. -/
theorem gets_last {earlier later : List Event} {key : List UInt8} {v : Option Buf} {vLen : Int} {final : Cluster}
    (starts : client.Starts) (trace : Trace Step client (earlier ++ .get key v vLen :: later) final) :
    CopiesString (lastValue key earlier) v vLen := by
  obtain ⟨_, shown, _⟩ := simulates.trace starts.stands trace
  obtain ⟨values, before, after⟩ := shown.split
  have value : values key = lastValue key earlier := before.last_write fun told => told.writes key
  cases after with
  | next first _ =>
    cases first with
    | get copies => exact value ▸ copies

/-- A client of one server that was just started, with one data file. -/
def oneServer : Cluster := fresh (Cache.KvIndex.dispatch 1) (fun _ => Cache.KvIndex.startIndex) 1

/-- The same once the key `a` was set to the string `hi`. -/
private def setServer : Cluster := (perform (.set [97] [104, 105, 0]) oneServer).2

private theorem set_admits : Cache.KvIndex.startIndex.Admits (KvClient.Call.sent (.set [97] [104, 105, 0])) := by
  have op : Cache.KvIndex.opOf (KvClient.Call.sent (.set [97] [104, 105, 0])) =
    .set (Buf.ofList [97]) (Buf.ofList [104, 105, 0]) := rfl
  refine ⟨?_, by decide, by decide +kernel⟩
  rw [op]
  refine ⟨fun rows tree spot disk walk => ?_, by decide +kernel⟩
  rw [Cache.KvIndex.startIndex_dbf] at disk
  rw [KvIndex.start_ends disk walk]
  exact ⟨KvIndex.start_unfreed disk _, show (12 + 1 : Int) ≤ KvIndex.freeSpace [] by decide, rfl⟩

theorem string_returns : ∃ v vLen final, Trace Step oneServer [.set [97] [104, 105, 0], .get [97] v vLen] final ∧
    v.map Buf.toList = some [104, 105, 0] := by
  have starts : oneServer.Starts := ⟨fun _ => ⟨rfl, rfl, rfl⟩, fun _ => rfl, fun _ _ => ⟨_, _, KvIndex.start_fresh, rfl⟩⟩
  have set : perform (.set [97] [104, 105, 0]) oneServer = (.ok 1, setServer) := run_of_fst (by decide +kernel)
  have get : perform (.get [97]) setServer = (.ok 1, (perform (.get [97]) setServer).2) := run_of_fst (by decide +kernel)
  have first : Step oneServer (.set [97] [104, 105, 0]) setServer := by
    refine .call ⟨fresh_reaches .., by decide, by decide, fun _ _ => set_admits⟩ set (by decide +kernel)
  have bounded : ∀ queue, requestQueue (setServer.socket (.get [97])).connection.fileCount [97] = queue →
      ((setServer.socket (.get [97])).run.index queue).Admits (KvClient.Call.sent (.get [97])) := by
    rintro queue rfl
    exact Cache.KvIndex.get_admits rfl (by decide +kernel) (by decide) (by decide +kernel)
  have inside : Connection.Inside (setServer.socket (.get [97])).connection.fileCount (setServer.socket (.get [97])).queues
      (KvClient.Call.message (.get [97])) := show 0 ≤ _ ∧ _ < _ by decide +kernel
  have second := Step.call ⟨⟨by decide +kernel, inside⟩, by decide, by decide, bounded⟩ get (by decide +kernel)
  have trace : Trace Step oneServer ([.set [97] [104, 105, 0]] ++ .get [97] _ _ :: []) _ := .next first (.next second (.done _))
  exact ⟨_, _, _, trace, (gets_last starts trace).whole rfl⟩

end Cluster

end Pingkv
