import Mathlib.Data.List.Perm.Subperm
import Pingkv.Cache.Ageout
import Pingkv.Cache.Search

/-! When a set or a get leaves a well-formed cache. -/

namespace Pingkv

open Exec LinkedList

namespace Cache

theorem Entry.Holds.unique {entry : Entry} {k v k' v' : List UInt8} (first : entry.Holds k v)
    (second : entry.Holds k' v') : k = k' ∧ v = v' :=
  ⟨first.key.2.symm.trans second.key.2, first.value.symm.trans second.value⟩

namespace KvLru

/-- A cache is well-formed with nodes it had before, or with the key and the
value that were set. -/
def Renewed (cached : List Cached) (k v : List UInt8) (after : KvLru) : Prop :=
  ∃ cached', WellFormed cached' after ∧ ∀ c ∈ cached', c ∈ cached ∨ c.k = k ∧ c.v = v

/-- A set returns, and the cache is well-formed again. -/
def SetKeeps (cached : List Cached) (lru : KvLru) (k v : List UInt8) : Prop :=
  ∃ after, KvLru.set k v lru = (.ok (), after) ∧ Renewed cached k v after

/-- A get returns, and the cache is well-formed again with nodes it had before. -/
def GetKeeps (cached : List Cached) (lru : KvLru) (k : List UInt8) : Prop :=
  ∃ cached' value after, KvLru.get k lru = (.ok value, after) ∧ WellFormed cached' after ∧ cached' ⊆ cached

/-- What a set of `k` to `v` needs of the nodes in the cache: the search for `k`
stays inside the keys; a node it takes has this key, or this value already, and
its value is as long as `v`; and where it takes none, the memory of the new node
holds `k` and `v`, and the counters do not overflow. -/
def Fits (lru : KvLru) (k v : List UInt8) (cached : List Cached) : Prop :=
  match search k (bucketOf lru k cached) with
  | .error _ => False
  | .ok (some c) => c.v.length = v.length ∧ (c.k = k ∨ c.v = v)
  | .ok none => lru.FreshHolds k v ∧ cached.length + 1 < 2 ^ 31 ∧ total cached + (k.length + v.length) < 2 ^ 31

instance (lru : KvLru) (k v : List UInt8) (cached : List Cached) : Decidable (lru.Fits k v cached) := by
  unfold Fits
  split <;> infer_instance

/-- The nodes a set finds, behind `_ageout` where that runs. -/
def leftOf (lru : KvLru) (cached : List Cached) : List Cached :=
  if lru.size > lru.maxSize then survivors (lru.maxSize.tdiv 2) cached else cached

/-- The element is too large, or `_ageout` can get below half of `_max_size`
where it runs, and the set fits what that leaves. -/
def SetSafe (cached : List Cached) (lru : KvLru) (k v : List UInt8) : Prop :=
  lru.maxElemSize < wrap 32 (k.length + v.length) ∨
    ((lru.maxSize < lru.size → -1 ≤ lru.maxSize) ∧ lru.InTable k ∧ lru.Fits k v (lru.leftOf cached))

instance (cached : List Cached) (lru : KvLru) (k v : List UInt8) : Decidable (SetSafe cached lru k v) :=
  inferInstanceAs (Decidable (_ ∨ _))

/-- The key has a place in `_tab`, and the search for it stays inside the keys. -/
def GetSafe (cached : List Cached) (lru : KvLru) (k : List UInt8) : Prop :=
  lru.InTable k ∧ (search k (bucketOf lru k cached)).isOk

instance (cached : List Cached) (lru : KvLru) (k : List UInt8) : Decidable (GetSafe cached lru k) :=
  inferInstanceAs (Decidable (_ ∧ _))

variable {lru after : KvLru} {cached cached' base rest : List Cached} {c : Cached} {k v : List UInt8}

/-- The list of a cache determines its nodes. -/
theorem Listed.unique (first : Listed cached lru) (second : Listed cached' lru) : cached = cached' := by
  have same : addrs cached = addrs cached' :=
    first.linked.unique second.linked (first.hot.symm.trans second.hot)
  have holds := first.holds
  have holds' := second.holds
  clear first second
  induction cached generalizing cached' with
  | nil => exact (List.map_eq_nil_iff.mp same.symm).symm
  | cons c rest ih =>
    cases cached' with
    | nil => cases same
    | cons d later =>
      obtain ⟨addr, tail⟩ := List.cons.inj same
      obtain ⟨entry, found, holdsC⟩ := holds c List.mem_cons_self
      obtain ⟨entry', found', holdsD⟩ := holds' d List.mem_cons_self
      rw [show d.addr = c.addr from addr.symm] at found'
      obtain rfl := Option.some.inj (found.symm.trans found')
      obtain ⟨key, value⟩ := holdsC.unique holdsD
      rw [ih tail (fun e member => holds e (List.mem_cons_of_mem c member))
        fun e member => holds' e (List.mem_cons_of_mem d member)]
      cases c
      cases d
      simp only [List.cons.injEq, Cached.mk.injEq, and_true]
      exact ⟨addr, key, value⟩

theorem total_perm (perm : cached'.Perm cached) : total cached' = total cached := (perm.map Cached.weight).sum_nat

/-- A node gets another value: the list, the buckets and the counters stay. -/
theorem WellFormed.replace (formed : WellFormed (c :: rest) lru) (v : List UInt8) :
    wp (do
        let value ← newArray v.length
        modify c.addr fun node => { node with
          vLen := v.length, v := ⟨value.len, value.byte.copy 0 (Buf.ofList v).byte v.length⟩ })
      (fun _ after => Listed ({ c with v := v } :: rest) after ∧ Bucketed ({ c with v := v } :: rest) after ∧
        after.nodeCount = lru.nodeCount ∧ after.size = lru.size ∧ after.fresh = lru.fresh)
      (fun _ _ => False) lru := by
  obtain ⟨node, held, holds⟩ := formed.listed.held List.mem_cons_self
  obtain ⟨out, distinct⟩ := List.nodup_cons.mp formed.listed.distinct
  let made : KvLru := { lru with allocs := lru.allocs + 1 }
  let value : Buf := ⟨v.length, (lru.junk lru.allocs).copy 0 (Buf.ofList v).byte v.length⟩
  let node' : LruNode := { node with vLen := v.length, v := value }
  have run : modify c.addr (fun node => { node with vLen := v.length, v := value }) made =
      (.ok (), made.withHeap (Function.update made.heap c.addr (some node'))) :=
    @modify_run made _ _ held _
  have chain : (made.withHeap (Function.update made.heap c.addr (some node'))).chain = lru.chain := by
    rw [chain_update]
    exact Function.update_eq_self_iff.mpr (chain_of_heap held).symm
  refine wp_bind_ok rfl (wp_of_ok run ⟨⟨?_, formed.listed.distinct, ?_, formed.listed.hot, formed.listed.cold⟩,
    ⟨?_, formed.bucketed.once, ?_⟩, rfl, rfl, rfl⟩)
  · intro d member
    rw [withHeap, entries_update]
    rcases List.mem_cons.mp member with rfl | later
    · refine ⟨node'.entry, Function.update_self .., holds.key, rfl, ?_⟩
      exact (Mem.slice_copy ..).trans (Buf.toList_ofList v)
    · have other : d.addr ≠ c.addr := ne_of_mem_of_not_mem (List.mem_map_of_mem later) out
      rw [Function.update_of_ne other]
      exact formed.listed.holds d (List.mem_cons_of_mem c later)
  · rw [chain]
    exact formed.listed.linked
  · intro index n
    have bucket := formed.bucketed.bucket index n
    simp only [List.mem_cons, exists_eq_or_imp] at bucket ⊢
    exact bucket
  · intro d member
    rcases List.mem_cons.mp member with rfl | later
    · exact formed.bucketed.inTable c List.mem_cons_self
    · exact formed.bucketed.inTable d (List.mem_cons_of_mem c later)

/-- What a new node for `k` and `v` holds: the bytes that were in its memory. -/
def madeFor (lru : KvLru) (k v : List UInt8) : Cached :=
  ⟨lru.fresh, (lru.junk lru.allocs).slice 0 k.length, (lru.junk (lru.allocs + 1)).slice 0 v.length⟩

/-- A node at the end of a bucket. -/
def placed (lru : KvLru) (n : Nat) (index : Int) : KvLru :=
  { lru with tab := Function.update lru.tab index (lru.tab index ++ [n]) }

/-- The bucket of its key gets a new node. -/
theorem Bucketed.add (bucketed : Bucketed cached lru) (new : c.addr ∉ addrs cached) (inTable : lru.InTable c.k) :
    Bucketed (c :: cached) (lru.placed c.addr (lruHash c.k lru.bucketCount)) := by
  have outside (index : Int) : c.addr ∉ lru.tab index := by
    intro member
    obtain ⟨d, there, same, _⟩ := (bucketed.bucket index _).mp member
    exact new (same ▸ List.mem_map_of_mem there)
  refine ⟨fun index n => ?_, fun index => ?_, fun d member => ?_⟩
  · simp only [placed, List.mem_cons, exists_eq_or_imp, ← bucketed.bucket]
    by_cases own : index = lruHash c.k lru.bucketCount
    · subst own
      simp only [Function.update_self, List.mem_append, List.mem_singleton, and_true, or_comm, eq_comm]
    · simp only [Function.update_of_ne own, Ne.symm own, and_false, false_or]
  · by_cases own : index = lruHash c.k lru.bucketCount
    · subst own
      simp only [placed, Function.update_self]
      apply List.nodup_append'.mpr
      refine ⟨bucketed.once _, List.nodup_singleton _, ?_⟩
      rintro n member here
      exact outside _ (List.mem_singleton.mp here ▸ member)
    · simp only [placed, Function.update_of_ne own]
      exact bucketed.once index
  · rcases List.mem_cons.mp member with rfl | later
    · exact inTable
    · exact bucketed.inTable d later

/-- A new node: it is in front of the list and at the end of the bucket of `k`,
with whatever its memory held for its key and value. -/
theorem WellFormed.add (formed : WellFormed cached lru) (inTable : lru.InTable k) (v : List UInt8) :
    wp (do
        let n ← initLruNode k v
        lruInsert n
        let index ← place k
        update fun lru => { lru with tab := Function.update lru.tab index (lru.tab index ++ [n]) })
      (fun _ after => Listed (lru.madeFor k v :: cached) after ∧
        ((lru.madeFor k v).k = k → Bucketed (lru.madeFor k v :: cached) after) ∧
          after.nodeCount = wrap 32 (lru.nodeCount + 1) ∧
            after.size = wrap 32 (wrap 32 (lru.size + k.length) + v.length) ∧ after.fresh = lru.fresh + 1)
      (fun _ _ => False) lru := by
  have new : lru.fresh ∉ addrs cached := by
    intro member
    obtain ⟨c, there, same⟩ := List.mem_map.mp member
    exact absurd same (Nat.ne_of_lt (formed.below c there))
  let node : LruNode := ⟨⟨k.length, lru.junk lru.allocs⟩, k.length, ⟨v.length, lru.junk (lru.allocs + 1)⟩, v.length, 0,
    none, none⟩
  let made : KvLru := { lru with
    allocs := lru.allocs + 1 + 1, fresh := lru.fresh + 1, heap := Function.update lru.heap lru.fresh (some node) }
  have other (n : Nat) (member : n ∈ addrs cached) : made.heap n = lru.heap n :=
    Function.update_of_ne (ne_of_mem_of_not_mem member new) _ _
  have own : made.heap lru.fresh = some node := Function.update_self ..
  have listed : Listed cached made := by
    refine ⟨fun c member => ?_, formed.listed.distinct, ?_, formed.listed.hot, formed.listed.cold⟩
    · rw [entries, other _ (List.mem_map_of_mem member)]
      exact formed.listed.holds c member
    · apply formed.listed.linked.frame
      intro n member
      rw [chain, chain, other n member]
  have sizes : (lru.madeFor k v).k.length = k.length ∧ (lru.madeFor k v).v.length = v.length :=
    ⟨Mem.slice_length .., Mem.slice_length ..⟩
  have holds : ∃ entry ∈ made.entries (lru.madeFor k v).addr, entry.Holds (lru.madeFor k v).k (lru.madeFor k v).v := by
    refine ⟨node.entry, congrArg (Option.map LruNode.entry) own, ⟨?_, rfl⟩, ?_, rfl⟩
    · exact congrArg Nat.cast sizes.1.symm
    · exact congrArg Nat.cast sizes.2.symm
  obtain ⟨after, inserted, whole, steady, nodeCount, size⟩ :=
    listed.insert holds ⟨none, chain_of_heap own⟩ new
  have inTable : after.InTable k := by
    rw [InTable, steady.bucketCount]
    exact inTable
  have bucketed : Bucketed cached made := ⟨formed.bucketed.bucket, formed.bucketed.once, formed.bucketed.inTable⟩
  refine wp_bind_ok rfl (wp_bind_ok inserted (wp_bind_ok (place_run inTable) (wp_of_ok (update_run _ _)
    ⟨⟨whole.holds, whole.distinct, whole.linked, whole.hot, whole.cold⟩, fun keyed => ?_, nodeCount, ?_,
      steady.fresh⟩)))
  · have placed := (bucketed.perm (fun _ => Iff.rfl) steady).add (c := lru.madeFor k v) new (by rwa [keyed])
    rwa [keyed] at placed
  · rw [← sizes.1, ← sizes.2]
    exact size

/-- Behind a set that has found a node, the cache is well-formed where that node
has the key, or the value already, and both values have one length. -/
theorem WellFormed.replace_iff (formed : WellFormed (c :: rest) lru) (sub : c :: rest ⊆ base)
    (distinct : (addrs base).Nodup) {final : KvLru} (listed : Listed ({ c with v := v } :: rest) final)
    (bucketed : Bucketed ({ c with v := v } :: rest) final) (nodeCount : final.nodeCount = lru.nodeCount)
    (size : final.size = lru.size) (fresh : final.fresh = lru.fresh) :
    Renewed base k v final ↔ c.v.length = v.length ∧ (c.k = k ∨ c.v = v) := by
  have bytes := formed.counted.size
  rw [total_cons, Cached.weight] at bytes
  constructor
  · rintro ⟨cached', formed', old⟩
    obtain rfl := listed.unique formed'.listed
    have bytes' := formed'.counted.size
    rw [total_cons, Cached.weight, size] at bytes'
    refine ⟨by simp only at bytes'; omega, ?_⟩
    rcases old _ List.mem_cons_self with before | ⟨key, _⟩
    · exact .inr (congrArg Cached.v (eq_of_addr distinct (sub List.mem_cons_self) before rfl))
    · exact .inl key
  · rintro ⟨same, right⟩
    refine ⟨_, ⟨listed, ⟨?_, ?_, ?_, ?_⟩, bucketed, ?_⟩, ?_⟩
    · rw [nodeCount, formed.counted.nodeCount]
      rfl
    · rw [size, bytes, total_cons, Cached.weight, same]
    · rw [nodeCount]
      exact formed.counted.fewNodes
    · rw [size]
      exact formed.counted.fewBytes
    · intro d member
      rw [fresh]
      rcases List.mem_cons.mp member with rfl | later
      · exact formed.below c List.mem_cons_self
      · exact formed.below d (List.mem_cons_of_mem c later)
    · intro d member
      rcases List.mem_cons.mp member with rfl | later
      · rcases right with key | rfl
        · exact .inr ⟨key, rfl⟩
        · exact .inl (sub List.mem_cons_self)
      · exact .inl (sub (List.mem_cons_of_mem c later))

/-- Behind a set that has made a node, the cache is well-formed where the memory
of the node held the key and the value, and the counters did not overflow. -/
theorem WellFormed.add_iff (formed : WellFormed cached lru) (sub : cached ⊆ base)
    (below : ∀ c ∈ base, c.addr < lru.fresh) {final : KvLru} (listed : Listed (lru.madeFor k v :: cached) final)
    (bucketed : (lru.madeFor k v).k = k → Bucketed (lru.madeFor k v :: cached) final)
    (nodeCount : final.nodeCount = wrap 32 (lru.nodeCount + 1))
    (size : final.size = wrap 32 (wrap 32 (lru.size + k.length) + v.length)) (fresh : final.fresh = lru.fresh + 1) :
    Renewed base k v final ↔ lru.FreshHolds k v ∧ cached.length + 1 < 2 ^ 31 ∧
      total cached + (k.length + v.length) < 2 ^ 31 := by
  have weight : (lru.madeFor k v).weight = k.length + v.length := by
    rw [Cached.weight, madeFor, Mem.slice_length, Mem.slice_length]
  have nodes := formed.counted.nodeCount
  have bytes := formed.counted.size
  constructor
  · rintro ⟨cached', formed', old⟩
    obtain rfl := listed.unique formed'.listed
    refine ⟨?_, ?_, ?_⟩
    · rcases old _ List.mem_cons_self with before | ⟨key, value⟩
      · exact absurd (below _ before) (Nat.lt_irrefl _)
      · exact ⟨key, value⟩
    · have few := formed'.counted.fewNodes
      rw [formed'.counted.nodeCount, List.length_cons] at few
      omega
    · have few := formed'.counted.fewBytes
      rw [formed'.counted.size, total_cons, weight] at few
      omega
  · rintro ⟨⟨key, value⟩, fewNodes, fewBytes⟩
    have length : (lru.madeFor k v).k.length = k.length ∧ (lru.madeFor k v).v.length = v.length :=
      ⟨Mem.slice_length .., Mem.slice_length ..⟩
    rw [← length.1, ← length.2] at size
    refine ⟨_, ⟨listed, formed.counted.insert nodeCount size (by omega) (by omega), bucketed key, ?_⟩, ?_⟩
    · intro d member
      rw [fresh]
      rcases List.mem_cons.mp member with rfl | later
      · exact Nat.lt_succ_self _
      · exact Nat.lt_succ_of_lt (formed.below d later)
    · intro d member
      rcases List.mem_cons.mp member with rfl | later
      · exact .inr ⟨key, value⟩
      · exact .inl (sub later)

/-- `_set` leaves a well-formed cache exactly where it fits the nodes. -/
theorem WellFormed.setElem_iff (formed : WellFormed cached lru) (sub : cached ⊆ base) (distinct : (addrs base).Nodup)
    (below : ∀ c ∈ base, c.addr < lru.fresh) :
    (∃ after, setElem k v lru = (.ok (), after) ∧ Renewed base k v after) ↔
      lru.InTable k ∧ lru.Fits k v cached := by
  unfold Fits
  rcases (formed.getNode k).cases with ⟨found, middle, run, inTable, hit, cached', searched, looked⟩ |
    ⟨reason, middle, run, stopped⟩
  · rw [searched, and_iff_right inTable]
    have sub' : cached' ⊆ base := fun c member => sub (looked.perm.mem_iff.mp member)
    cases hit with
    | some c =>
      obtain ⟨rest, rfl⟩ := looked.front c rfl
      obtain rfl : found = some c.addr := looked.found
      rcases (looked.formed.replace v).cases with ⟨_, final, replaced, listed, bucketed, nodeCount, size, fresh⟩ |
        ⟨_, _, _, none⟩
      · simp only
        rw [← looked.formed.replace_iff sub' distinct listed bucketed nodeCount size fresh]
        have whole : setElem k v lru = (.ok (), final) := (bind_ok run).trans replaced
        exact exists_ok_iff whole
      · exact none.elim
    | none =>
      obtain rfl : found = none := looked.found
      have inTable' : middle.InTable k := by
        rw [InTable, looked.steady.bucketCount]
        exact inTable
      have below' : ∀ c ∈ base, c.addr < middle.fresh := by
        rw [looked.steady.fresh]
        exact below
      rcases (looked.formed.add inTable' v).cases with ⟨_, final, added, listed, bucketed, nodeCount, size, fresh⟩ |
        ⟨_, _, _, none⟩
      · have holds : middle.FreshHolds k v ↔ lru.FreshHolds k v := by
          rw [FreshHolds, FreshHolds, looked.steady.junk, looked.steady.allocs]
        simp only
        rw [← holds, ← looked.perm.length_eq, ← total_perm looked.perm,
          ← looked.formed.add_iff sub' below' listed bucketed nodeCount size fresh]
        have whole : setElem k v lru = (.ok (), final) := (bind_ok run).trans added
        exact exists_ok_iff whole
      · exact none.elim
  · apply iff_of_false
    · rintro ⟨after, run', _⟩
      cases (bind_error run).symm.trans run'
    · rintro ⟨inTable, fits⟩
      rw [stopped.resolve_left (not_not.mpr inTable)] at fits
      exact fits

theorem WellFormed.length_le_fresh (formed : WellFormed cached lru) : cached.length ≤ lru.fresh := by
  have below : ∀ n ∈ addrs cached, n < lru.fresh := by
    intro n member
    obtain ⟨c, there, rfl⟩ := List.mem_map.mp member
    exact formed.below c there
  have few := LinkedList.length_le_of_lt formed.listed.distinct below
  rwa [addrs, List.length_map] at few

/-- Where half of `_max_size` is negative, `_ageout` never returns. -/
theorem WellFormed.ageout_negative {fuel : Nat} (formed : WellFormed cached lru) (negative : lru.maxSize.tdiv 2 < 0) :
    (KvLru.ageout fuel lru).1 ≠ .ok () := by
  induction fuel generalizing cached lru with
  | zero => exact fun returned => nomatch returned
  | succ fuel ih =>
    have bytes := formed.counted.size
    have turn : KvLru.ageout (fuel + 1) lru = (KvLru.del lru.cold >>= fun _ => KvLru.ageout fuel) lru := by
      refine (bind_ok (read_run _ lru)).trans ?_
      simp only [id]
      rw [if_pos (by omega)]
    rw [turn]
    rcases List.eq_nil_or_concat cached with rfl | ⟨xs, c, rfl⟩
    · rw [show lru.cold = none from formed.listed.cold]
      exact fun returned => nomatch returned
    · rw [List.concat_eq_append] at formed
      obtain ⟨middle, deleted, formed', static, _⟩ := formed.del_cold
      rw [bind_ok deleted]
      exact ih formed' (by rw [static.maxSize]; exact negative)

/-- The bucket of a key behind `_ageout`. -/
theorem bucketOf_aged {kept : List Cached} (static : Static lru after)
    (tab : ∀ index, after.tab index = (lru.tab index).filter fun n => n ∈ addrs kept) :
    bucketOf after k kept = bucketOf lru k kept := by
  rw [bucketOf, bucketOf, static.bucketCount, tab, List.filterMap_filter]
  apply List.filterMap_congr
  intro n _
  split
  · rfl
  · rename_i gone
    apply Eq.symm
    apply List.find?_eq_none.mpr
    intro c member same
    have own : c.addr = n := of_decide_eq_true same
    exact gone (decide_eq_true (own ▸ List.mem_map_of_mem member))

/-- A set of a well-formed cache whose element is not too large goes on with the
nodes that `_ageout` leaves, if that ends. -/
theorem WellFormed.set_accepted (formed : WellFormed cached lru)
    (accepted : wrap 32 (k.length + v.length) ≤ lru.maxElemSize) :
    SetKeeps cached lru k v ↔
      (lru.maxSize < lru.size → -1 ≤ lru.maxSize) ∧ lru.InTable k ∧ lru.Fits k v (lru.leftOf cached) := by
  rw [SetKeeps, KvLru.set_accepted accepted, leftOf]
  by_cases full : lru.size > lru.maxSize
  · simp only [full, if_true]
    by_cases low : -1 ≤ lru.maxSize
    · have half : 0 ≤ lru.maxSize.tdiv 2 := by
        by_cases nonneg : 0 ≤ lru.maxSize
        · exact Int.tdiv_nonneg nonneg (by decide)
        · rw [show lru.maxSize = -1 by omega]
          decide
      obtain ⟨aged, kept, gone, run, evicts, formed', static, _, _, tab⟩ :=
        formed.ageout half (Nat.lt_succ_of_le formed.length_le_fresh)
      have sub : kept ⊆ cached := by
        rw [evicts.whole]
        exact List.subset_append_left ..
      have below : ∀ c ∈ cached, c.addr < aged.fresh := by
        rw [static.fresh]
        exact formed.below
      have inTable : aged.InTable k ↔ lru.InTable k := by rw [InTable, InTable, static.bucketCount]
      have fits : aged.Fits k v kept ↔ lru.Fits k v kept := by
        rw [Fits, Fits, bucketOf_aged static tab, FreshHolds, FreshHolds, static.junk, static.allocs]
      rw [bind_ok run, formed'.setElem_iff sub formed.listed.distinct below, inTable, fits, evicts.kept_eq]
      exact (and_iff_right fun _ => low).symm
    · have negative : lru.maxSize.tdiv 2 < 0 := by
        have turned := Int.neg_tdiv (-lru.maxSize) 2
        have half : (-lru.maxSize).tdiv 2 = -lru.maxSize / 2 := Int.tdiv_eq_ediv_of_nonneg (by omega)
        rw [Int.neg_neg] at turned
        omega
      apply iff_of_false
      · rintro ⟨after, run, _⟩
        obtain ⟨_, _, aged, _⟩ := bind_eq_ok run
        exact formed.ageout_negative negative (congrArg Prod.fst aged)
      · exact fun safe => low (safe.1 trivial)
  · simp only [full, if_false]
    rw [formed.setElem_iff (List.Subset.refl cached) formed.listed.distinct formed.below]
    exact (and_iff_right False.elim).symm

theorem WellFormed.set_iff (formed : WellFormed cached lru) (k v : List UInt8) :
    SetKeeps cached lru k v ↔ SetSafe cached lru k v := by
  by_cases accepted : wrap 32 (k.length + v.length) ≤ lru.maxElemSize
  · rw [formed.set_accepted accepted, SetSafe, or_iff_right (Int.not_lt.mpr accepted)]
  · apply iff_of_true
    · exact ⟨lru, set_refused accepted, cached, formed, fun c member => .inl member⟩
    · exact .inl (Int.not_le.mp accepted)

theorem WellFormed.alloc (formed : WellFormed cached lru) (allocs : Nat) :
    WellFormed cached { lru with allocs := allocs } :=
  ⟨⟨formed.listed.holds, formed.listed.distinct, formed.listed.linked, formed.listed.hot, formed.listed.cold⟩,
    formed.counted.congr rfl rfl, ⟨formed.bucketed.bucket, formed.bucketed.once, formed.bucketed.inTable⟩, formed.below⟩

/-- The value of a node is copied into a new array. -/
theorem WellFormed.copy (formed : WellFormed cached lru) (member : c ∈ cached) :
    ∃ value : Buf × Int, value.1.toList = c.v ∧ (do
        let node ← KvLru.node c.addr
        let v ← newArray node.vLen.toNat
        if node.v.len < node.vLen.toNat then fault
        else pure (some (⟨v.len, v.byte.copy 0 node.v.byte node.vLen.toNat⟩, node.vLen)) : Exec KvLru (Option (Buf × Int)))
      lru = (.ok (some value), { lru with allocs := lru.allocs + 1 }) := by
  obtain ⟨node, held, holds⟩ := formed.listed.held member
  have size : node.vLen.toNat = node.v.len := by
    have vLen : node.vLen = c.v.length := holds.vLen
    have len := congrArg List.length holds.value
    rw [Buf.toList_length] at len
    rw [vLen, Int.toNat_natCast]
    exact len.symm
  refine ⟨(⟨node.vLen.toNat, (lru.junk lru.allocs).copy 0 node.v.byte node.vLen.toNat⟩, node.vLen), ?_, ?_⟩
  · refine (Mem.slice_copy ..).trans ?_
    rw [size]
    exact holds.value
  · refine (bind_ok (node_run held)).trans ((bind_ok rfl).trans ?_)
    rw [if_neg (by omega)]
    rfl

theorem WellFormed.get_iff (formed : WellFormed cached lru) (k : List UInt8) :
    GetKeeps cached lru k ↔ GetSafe cached lru k := by
  rcases (formed.getNode k).cases with ⟨found, middle, run, inTable, hit, cached', searched, looked⟩ |
    ⟨reason, middle, run, stopped⟩
  · apply iff_of_true
    · have sub : cached' ⊆ cached := fun c member => looked.perm.mem_iff.mp member
      cases hit with
      | none =>
        obtain rfl : found = none := looked.found
        exact ⟨cached', none, middle, bind_ok run, looked.formed, sub⟩
      | some c =>
        obtain rfl : found = some c.addr := looked.found
        obtain ⟨rest, rfl⟩ := looked.front c rfl
        obtain ⟨value, _, copied⟩ := looked.formed.copy List.mem_cons_self
        exact ⟨c :: rest, some value, _, (bind_ok run).trans copied, looked.formed.alloc _, sub⟩
    · exact ⟨inTable, by rw [searched]; rfl⟩
  · apply iff_of_false
    · rintro ⟨_, _, _, run', _⟩
      cases (bind_error run).symm.trans run'
    · rintro ⟨inTable, safe⟩
      rw [stopped.resolve_left (not_not.mpr inTable)] at safe
      cases safe

/-- A set and a get leave a well-formed cache exactly where they are safe. -/
theorem keeps_iff (cached : List Cached) (lru : KvLru) (formed : WellFormed cached lru) :
    (∀ k v, SetKeeps cached lru k v ↔ SetSafe cached lru k v) ∧ ∀ k, GetKeeps cached lru k ↔ GetSafe cached lru k :=
  ⟨formed.set_iff, formed.get_iff⟩

/-- The second key of a bucket gets another value of the same length, and a lookup finds it. -/
theorem pair_set_safe : SetKeeps [⟨0, [97], [49]⟩, ⟨1, [98], [50]⟩] (pair [97] [49] [98] [50] 100 50) [98] [51] ∧
    GetKeeps [⟨0, [97], [49]⟩, ⟨1, [98], [50]⟩] (pair [97] [49] [98] [50] 100 50) [98] := by
  obtain ⟨sets, gets⟩ := keeps_iff [⟨0, [97], [49]⟩, ⟨1, [98], [50]⟩] _
    (pair_formed (k := [97]) (v := [49]) (l := [98]) (w := [50]) (by decide) 100 50)
  exact ⟨(sets [98] [51]).mpr (by decide +kernel), (gets [98]).mpr (by decide +kernel)⟩

/-- A longer value for a cached key leaves the size as it was. -/
theorem longer_value_not_counted : WellFormed [⟨0, [97], [49]⟩] (single [97] [49] 100 50 fun _ _ => 0) ∧
    ¬ SetKeeps [⟨0, [97], [49]⟩] (single [97] [49] 100 50 fun _ _ => 0) [97] [50, 51] := by
  have formed := single_formed (k := [97]) (v := [49]) (by decide) 100 50 fun _ _ => 0
  refine ⟨formed, fun keeps => ?_⟩
  exact absurd ((formed.set_iff [97] [50, 51]).mp keeps) (by decide +kernel)

end KvLru

end Cache

end Pingkv
