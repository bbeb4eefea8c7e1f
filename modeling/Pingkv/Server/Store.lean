import Pingkv.Index.Sessions
import Pingkv.Server.Linearizable

/-! The service over the indexes of its data files: one map from keys to values, whichever
worker a key is routed to, and whichever of its clients ask at a time. -/

namespace Pingkv

open Simulation

namespace Cache.KvIndex

open Pingkv.KvIndex

/-- The call on the index behind that of a worker. -/
def opOf (call : IndexCall) : Op :=
  match call.kind with
  | .get => .get (Buf.ofList call.key)
  | .set => .set (Buf.ofList call.key) (Buf.ofList call.value)
  | .del => .del (Buf.ofList call.key)

/-- What a call returns: -1 when it fails, and the length of the value that it found. -/
def answerOf : Except Exec.Stop (Option (List UInt8)) → IndexAnswer
  | .ok found => ⟨(found.getD []).length, found.map Buf.ofList⟩
  | .error _ => ⟨-1, none⟩

/-- How an index answers the calls of its worker. -/
def respond (call : IndexCall) (index : KvIndex) : IndexAnswer × KvIndex :=
  let (outcome, after) := serve (opOf call) index
  (answerOf outcome, after)

/-- A coherent call, of lengths that fit their types, that leaves at most `2 ^ 31` bytes. -/
structure Admits (index : KvIndex) (call : IndexCall) : Prop where
  met : index.Coherent (opOf call)
  small : (opOf call).Small
  bounded : ¬ (respond call index).2.dbf.toFile.Outgrown

/-- What happens to an index between two calls. -/
def Drift (before after : KvIndex) : Prop := Happens before .refuse after

variable {index after : KvIndex} {values : Values} {call : IndexCall}

/-- Such a call is a step of the map. -/
theorem respond_stands (stands : index.Stands values) (admits : index.Admits call) :
    ∃ outcome values', (respond call index).1 = answerOf outcome ∧
      Shown values (.call (opOf call) outcome) values' ∧ (respond call index).2.Stands values' := by
  have turn : Turn index (opOf call) (serve (opOf call) index).1 (respond call index).2 :=
    ⟨admits.small, Prod.mk.eta.symm, admits.bounded⟩
  obtain ⟨values', shown, later⟩ := turn.shows stands admits.met
  exact ⟨_, values', rfl, shown, later⟩

/-- A get of which the cache knows nothing fits every index. -/
theorem get_admits (kind : call.kind = .get) (missed : (cacheGet (Buf.ofList call.key) index).1 = .ok (none, 0))
    (small : call.key.length < 2 ^ 15) (bounded : ¬ (respond call index).2.dbf.toFile.Outgrown) : index.Admits call := by
  have op : opOf call = .get (Buf.ofList call.key) := by rw [opOf, kind]
  refine ⟨?_, ?_, bounded⟩ <;> rw [op]
  · exact ⟨none, 0, _, Exec.run_of_fst missed, .inl rfl⟩
  · exact small

theorem Drift.stands (drift : Drift index after) (stands : index.Stands values) : after.Stands values := by
  obtain ⟨_, shown, later⟩ := simulates stands drift
  cases shown
  exact later

end Cache.KvIndex

/-- The bytes sent back for a request: a flag, and the value of a get. -/
def reply (flag : UInt16) (value : List UInt8) : List UInt8 :=
  (⟨flag, UInt16.ofNat value.length, 0⟩ : KvWorkHead).bytes ++ value

/-- The value of a request. -/
def KvWork.value (work : KvWork) : List UInt8 := fieldBytes work.field2 work.head.field2Len.toNat

/-- The store that clients are meant to see: the value of every key, empty for one that is absent. -/
structure Store (fileCount : Int) (workers : Nat) where
  pending : Int → Option (Request fileCount workers × Option (List UInt8))
  values : Values

namespace Store

variable {fileCount : Int} {workers : Nat}

def start : Store fileCount workers := ⟨fun _ => none, fun _ => []⟩

/-- What a request makes of the values. -/
def effect (req : KvWork) (values : Values) : Values :=
  match kindOf req.head.flag with
  | some .set => Function.update values req.key req.value
  | some .del => Function.update values req.key []
  | _ => values

/-- What a request that succeeds is told. -/
def told (req : KvWork) (values : Values) : List UInt8 :=
  match kindOf req.head.flag with
  | some .get => reply WorkFlag.suc (values req.key)
  | _ => reply WorkFlag.suc []

/-- Requests are sent, have their effect at one moment, and are answered. One that fails may
have had its effect. -/
inductive Step (before : Store fileCount workers) : Service.Event fileCount workers → Store fileCount workers → Prop where
  | ask {request : Request fileCount workers} (idle : before.pending request.fd = none) :
      Step before (.ask request) { before with
        pending := Function.update before.pending request.fd (some (request, none)) }
  | run {fd : Int} {request : Request fileCount workers} {bytes : List UInt8}
      (asked : before.pending fd = some (request, none))
      (ended : bytes = told request.work before.values ∨ bytes = reply WorkFlag.err []) :
      Step before (.run fd request.work) {
        pending := Function.update before.pending fd (some (request, some bytes))
        values := effect request.work before.values }
  | hear {fd : Int} {request : Request fileCount workers} {bytes : List UInt8}
      (ran : before.pending fd = some (request, some bytes)) :
      Step before (.hear fd bytes) { before with pending := Function.update before.pending fd none }
  | wake : Step before .wake before
  | die : Step before .die before
  | silent : Step before .silent before

theorem bytes_failed (kind : IndexCall.Kind) (reason : Exec.Stop) :
    (resultOf kind (Cache.KvIndex.answerOf (.error reason))).bytes = reply WorkFlag.err [] := by
  cases kind <;> rfl

theorem bytes_done (kind : IndexCall.Kind) :
    (resultOf kind (Cache.KvIndex.answerOf (.ok none))).bytes = reply WorkFlag.suc [] := by
  cases kind <;> rfl

theorem bytes_found {found : Option (List UInt8)} (short : (found.getD []).length < 65536) :
    (resultOf .get (Cache.KvIndex.answerOf (.ok found))).bytes = reply WorkFlag.suc (found.getD []) := by
  cases found with
  | none => exact bytes_done .get
  | some value =>
    have succeeded : (Cache.KvIndex.answerOf (.ok (some value))).Succeeded .get := Int.natCast_nonneg _
    have len : UInt16.ofInt (value.length : Int) = UInt16.ofNat value.length := by
      apply UInt16.toNat_inj.mp
      rw [UInt16.ofInt, UInt16.toNat_ofNat', UInt16.toNat_ofNat']
      omega
    have all : (UInt16.ofNat value.length).toNat = (Buf.ofList value).len :=
      (UInt16.toNat_ofNat' ..).trans (Nat.mod_eq_of_lt short)
    have text : (Buf.ofList value).byte.slice 0 (Buf.ofList value).len = value := Buf.toList_ofList value
    rw [resultOf, if_pos succeeded]
    simp only [makeResult, Cache.KvIndex.answerOf, KvWork.bytes, reply, Option.getD_some, Option.map_some, len, fieldBytes, all, text]
    rw [List.append_nil]
    rfl

variable {atomic after : AtomicService fileCount workers Cache.KvIndex} {store : Store fileCount workers}
  {event : Service.Event fileCount workers}

/-- What an index is asked to do fits it. -/
def Admits (index : Fin workers → Cache.KvIndex) : Service.Event fileCount workers → Prop
  | .run _ req => ∀ (number : Fin workers) kind, requestQueue fileCount req.key = (number : Nat) →
      kindOf req.head.flag = some kind → (index number).Admits (req.call kind)
  | _ => True

/-- Each index stands for the values of the keys that are routed to it. -/
def Sharded (fileCount : Int) (index : Fin workers → Cache.KvIndex) (values : Values) : Prop :=
  ∃ shards : Fin workers → Values, (∀ number, (index number).Stands (shards number)) ∧
    ∀ (number : Fin workers) key, requestQueue fileCount key = (number : Nat) → shards number key = values key

/-- An atomic service that clients see as this store. -/
structure Shows (atomic : AtomicService fileCount workers Cache.KvIndex) (store : Store fileCount workers) : Prop where
  pending : ∀ fd, store.pending fd = (atomic.pending fd).map fun asked => (asked.1, asked.2.map KvWork.bytes)
  short : ∀ key, (store.values key).length < 65536
  sharded : Sharded fileCount atomic.index store.values

private theorem pending_update {pending : Int → Option (Request fileCount workers × Option KvWork)}
    {shown : Int → Option (Request fileCount workers × Option (List UInt8))}
    (same : ∀ fd, shown fd = (pending fd).map fun asked => (asked.1, asked.2.map KvWork.bytes)) (fd : Int)
    (place : Option (Request fileCount workers × Option KvWork)) (other : Int) :
    Function.update shown fd (place.map fun asked => (asked.1, asked.2.map KvWork.bytes)) other =
      (Function.update pending fd place other).map fun asked => (asked.1, asked.2.map KvWork.bytes) := by
  by_cases own : other = fd
  · subst own
    rw [Function.update_self, Function.update_self]
  · rw [Function.update_of_ne own, Function.update_of_ne own, same]

/-- A request changes the value of its key, if any. -/
theorem effect_cases (req : KvWork) (values : Values) : effect req values = values ∨
    ∃ value, value.length < 65536 ∧ effect req values = Function.update values req.key value := by
  have short : req.value.length < 65536 := by
    cases field : req.field2 with
    | none => simp [KvWork.value, field, fieldBytes]
    | some buf =>
      simp only [KvWork.value, field, fieldBytes, Mem.slice_length]
      exact req.head.field2Len.toNat_lt
  unfold effect
  split
  · exact .inr ⟨req.value, short, rfl⟩
  · exact .inr ⟨[], Nat.succ_pos _, rfl⟩
  · exact .inl rfl

theorem effect_other {req : KvWork} {values : Values} {key : List UInt8} (different : key ≠ req.key) :
    effect req values key = values key := by
  rcases effect_cases req values with same | ⟨value, _, same⟩
  · rw [same]
  · rw [same, Function.update_of_ne different]

theorem effect_short (req : KvWork) {values : Values} (short : ∀ key, (values key).length < 65536) (key : List UInt8) :
    (effect req values key).length < 65536 := by
  rcases effect_cases req values with same | ⟨value, short', same⟩
  · rw [same]
    exact short key
  · rw [same]
    exact (Function.forall_update_iff values fun _ value => value.length < 65536).mpr ⟨short', fun key _ => short key⟩ key

/-- The effect on one key depends on its value only. -/
theorem effect_congr {req : KvWork} {values shard : Values} {key : List UInt8} (same : shard key = values key) :
    effect req shard key = effect req values key := by
  by_cases own : key = req.key
  · subst own
    cases known : kindOf req.head.flag with
    | none => simp only [effect, known, same]
    | some kind => cases kind <;> simp [effect, known, same]
  · rw [effect_other own, effect_other own, same]

/-- A request that is run on its index, and what it is told. -/
theorem run_shard {index : Cache.KvIndex} {shard : Values} {req : KvWork} {kind : IndexCall.Kind}
    (stands : index.Stands shard) (known : kindOf req.head.flag = some kind) (admits : index.Admits (req.call kind))
    (short : (shard req.key).length < 65536) :
    (Cache.KvIndex.respond (req.call kind) index).2.Stands (effect req shard) ∧
      ((resultOf kind (Cache.KvIndex.respond (req.call kind) index).1).bytes = told req shard ∨
        (resultOf kind (Cache.KvIndex.respond (req.call kind) index).1).bytes = reply WorkFlag.err []) := by
  obtain ⟨outcome, values, answered, step, later⟩ := Cache.KvIndex.respond_stands stands admits
  rw [answered]
  simp only [effect, told, known]
  cases kind with
  | get =>
    cases step with
    | get ended =>
      refine ⟨later, ?_⟩
      rcases ended with ⟨found, rfl, same⟩ | rfl
      · have same : found.getD [] = shard req.key := same.trans (congrArg shard (Buf.toList_ofList _))
        refine .inl ?_
        rw [bytes_found (same ▸ short), same]
      · exact .inr (bytes_failed ..)
  | set =>
    cases step with
    | set ended =>
      rw [Buf.toList_ofList, Buf.toList_ofList] at later
      refine ⟨later, ?_⟩
      rcases ended with rfl | rfl
      · exact .inl (bytes_done _)
      · exact .inr (bytes_failed ..)
  | del =>
    cases step with
    | del ended =>
      rw [Buf.toList_ofList] at later
      refine ⟨later, ?_⟩
      rcases ended with rfl | rfl
      · exact .inl (bytes_done _)
      · exact .inr (bytes_failed ..)

/-- One index of those that the values are on is left with the effect of a request. -/
theorem Sharded.run {index : Fin workers → Cache.KvIndex} {values : Values} {request : Request fileCount workers} {later : Cache.KvIndex}
    (sharded : Sharded fileCount index values)
    (stands : ∀ shard, (index request.queue).Stands shard → shard request.work.key = values request.work.key →
      later.Stands (effect request.work shard)) :
    Sharded fileCount (Function.update index request.queue later) (effect request.work values) := by
  obtain ⟨shards, stood, same⟩ := sharded
  have here := same request.queue request.work.key (Pool.queue_eq request).symm
  refine ⟨Function.update shards request.queue (effect request.work (shards request.queue)), fun number => ?_, fun number key routed => ?_⟩
  · by_cases own : number = request.queue
    · subst own
      rw [Function.update_self, Function.update_self]
      exact stands _ (stood _) here
    · rw [Function.update_of_ne own, Function.update_of_ne own]
      exact stood number
  · by_cases own : number = request.queue
    · subst own
      rw [Function.update_self]
      exact effect_congr (same _ key routed)
    · rw [Function.update_of_ne own, same number key routed]
      refine (effect_other ?_).symm
      rintro rfl
      exact own (Fin.ext (Int.ofNat_inj.mp (routed.symm.trans (Pool.queue_eq request).symm)))

/-- What clients see of the atomic service over the indexes, they would see of the store. -/
theorem simulates : Simulates (fun before event after => AtomicService.Step (fun _ : Fin workers => Cache.KvIndex.respond)
    Cache.KvIndex.Drift before event after ∧ Admits before.index event) (Step : Store fileCount workers → _ → _ → Prop) Shows := by
  rintro before store event after shows ⟨step, admits⟩
  cases step with
  | @ask request idle =>
    have unasked : store.pending request.fd = none := by rw [shows.pending, idle, Option.map_none]
    exact ⟨_, .ask unasked, pending_update shows.pending request.fd (some (request, none)), shows.short, shows.sharded⟩
  | @run fd request asked =>
    have asked' : store.pending fd = some (request, none) := by rw [shows.pending, asked, Option.map_some, Option.map_none]
    obtain ⟨shards, stood, same⟩ := shows.sharded
    have routed := (Pool.queue_eq request).symm
    have here := same request.queue request.work.key routed
    have ran {shard : Values} (stands : (before.index request.queue).Stands shard)
        (agrees : shard request.work.key = store.values request.work.key) :=
      run_shard stands request.stands (admits request.queue request.kind routed request.stands)
        (agrees ▸ shows.short request.work.key)
    have ended := (ran (stood request.queue) here).2
    have told : told request.work (shards request.queue) = told request.work store.values := by
      simp only [Store.told, here]
    rw [told] at ended
    refine ⟨_, .run asked' ended, pending_update shows.pending fd (some (request, some _)), effect_short _ shows.short, ?_⟩
    exact shows.sharded.run fun shard stands agrees => (ran stands agrees).1
  | @hear fd request result ran =>
    have ran' : store.pending fd = some (request, some result.bytes) := by
      rw [shows.pending, ran, Option.map_some, Option.map_some]
    exact ⟨_, .hear ran', pending_update shows.pending fd none, shows.short, shows.sharded⟩
  | @drift number index drifts =>
    refine ⟨store, .silent, shows.pending, shows.short, ?_⟩
    obtain ⟨shards, stood, same⟩ := shows.sharded
    refine ⟨shards, ?_, same⟩
    exact (Function.forall_update_iff before.index fun other index => index.Stands (shards other)).mpr
      ⟨drifts.stands (stood number), fun other _ => stood other⟩
  | wake => exact ⟨store, .wake, shows⟩
  | die => exact ⟨store, .die, shows⟩
  | silent => exact ⟨store, .silent, shows⟩

/-- What an event makes of the value of a key. -/
def writes (key : List UInt8) : Service.Event fileCount workers → Option (List UInt8)
  | .run _ req =>
    if req.key = key then
      match kindOf req.head.flag with
      | some .set => some req.value
      | some .del => some []
      | _ => none
    else none
  | _ => none

variable {before later : Store fileCount workers} {events : List (Service.Event fileCount workers)}

theorem Step.writes (step : Step before event later) (key : List UInt8) :
    later.values key = (writes key event).getD (before.values key) := by
  cases step with
  | @run fd request =>
    simp only [Store.writes]
    by_cases own : request.work.key = key
    · subst own
      cases known : kindOf request.work.head.flag with
      | none => simp [effect, known]
      | some kind => cases kind <;> simp [effect, known]
    · rw [if_neg own, effect_other (Ne.symm own)]
      rfl
  | ask | hear | wake | die | silent => rfl

/-- A request that was run stays so until its client hears. -/
theorem Step.stays {fd : Int} {request : Request fileCount workers} {bytes : List UInt8}
    (ran : before.pending fd = some (request, some bytes)) (unheard : ∀ heard, event ≠ .hear fd heard)
    (step : Step before event later) : later.pending fd = some (request, some bytes) := by
  cases step with
  | @ask other idle =>
    by_cases own : fd = other.fd
    · rw [own, idle] at ran
      cases ran
    · exact (Function.update_of_ne own ..).trans ran
  | @run other _ _ asked =>
    by_cases own : fd = other
    · rw [own, asked] at ran
      cases ran
    · exact (Function.update_of_ne own ..).trans ran
  | @hear other =>
    by_cases own : fd = other
    · exact absurd (by rw [own]) (unheard _)
    · exact (Function.update_of_ne own ..).trans ran
  | wake | die | silent => exact ran

end Store

namespace Service

variable {fileCount : Int} {workers : Nat}

/-- A step of the service over its indexes, in which every call fits its index. -/
def StoreStep (before : Service fileCount workers Cache.KvIndex) (event : Event fileCount workers)
    (after : Service fileCount workers Cache.KvIndex) : Prop :=
  Step Cache.KvIndex.Drift before event after ∧ Store.Admits (fun number => (before.pool.cells number).run.index) event

end Service

end Pingkv
