import Pingkv.Cache.Provenance
import Pingkv.Lib.LinkedList

/-! The nodes of a `kv_lru` as one list from hot to cold, and what the helpers
that link, unlink and delete a node do to it. -/

namespace Pingkv

open Exec LinkedList

namespace Cache

/-- A node with the key and the value it was set with. -/
structure Cached where
  addr : Nat
  k : List UInt8
  v : List UInt8
  deriving DecidableEq, Repr

/-- The bytes that count for the size of the cache. -/
def Cached.weight (c : Cached) : Nat := c.k.length + c.v.length

def addrs (cached : List Cached) : List Nat := cached.map Cached.addr

def total (cached : List Cached) : Nat := (cached.map Cached.weight).sum

def LruNode.links (node : LruNode) : Links Nat := ⟨node.prev, node.next⟩

namespace KvLru

def chain (lru : KvLru) : Chain Nat := fun n => (lru.heap n).map LruNode.links

def withHeap (lru : KvLru) (heap : Nat → Option LruNode) : KvLru := { lru with heap := heap }

/-- The list from `hot` to `cold` runs through the nodes, each with its own key
and value. -/
structure Listed (cached : List Cached) (lru : KvLru) : Prop where
  holds : ∀ c ∈ cached, ∃ entry ∈ lru.entries c.addr, entry.Holds c.k c.v
  distinct : (addrs cached).Nodup
  linked : Linked lru.chain none (addrs cached) none
  hot : lru.hot = (addrs cached).head?
  cold : lru.cold = (addrs cached).getLast?

/-- The counters, which are of type `int`, agree with the nodes. -/
structure Counted (cached : List Cached) (lru : KvLru) : Prop where
  nodeCount : lru.nodeCount = cached.length
  size : lru.size = total cached
  fewNodes : lru.nodeCount < 2 ^ 31
  fewBytes : lru.size < 2 ^ 31

/-- A key has a place in `_tab`. -/
def InTable (lru : KvLru) (k : List UInt8) : Prop :=
  0 ≤ lruHash k lru.bucketCount ∧ lruHash k lru.bucketCount < lru.bucketCount

instance (lru : KvLru) (k : List UInt8) : Decidable (lru.InTable k) := inferInstanceAs (Decidable (_ ∧ _))

/-- Each node is once in the bucket of its key, and in no other. -/
structure Bucketed (cached : List Cached) (lru : KvLru) : Prop where
  bucket : ∀ index n, n ∈ lru.tab index ↔ ∃ c ∈ cached, c.addr = n ∧ lruHash c.k lru.bucketCount = index
  once : ∀ index, (lru.tab index).Nodup
  inTable : ∀ c ∈ cached, lru.InTable c.k

/-- A well-formed state of the cache, with its nodes from hot to cold. -/
structure WellFormed (cached : List Cached) (lru : KvLru) : Prop where
  listed : Listed cached lru
  counted : Counted cached lru
  bucketed : Bucketed cached lru
  below : ∀ c ∈ cached, c.addr < lru.fresh

variable {lru : KvLru} {cached xs ys : List Cached} {c : Cached} {n : Nat} {node : LruNode}

theorem node_run (held : lru.heap n = some node) : KvLru.node n lru = (.ok node, lru) := by
  refine (bind_ok (read_run _ lru)).trans ?_
  simp only [held, pure_run]

theorem place_run {k : List UInt8} (inTable : lru.InTable k) :
    place k lru = (.ok (lruHash k lru.bucketCount), lru) := by
  refine (bind_ok (read_run _ lru)).trans ?_
  rw [if_pos (show _ ∧ _ from inTable), pure_run]

theorem modify_run (held : lru.heap n = some node) (change : LruNode → LruNode) :
    modify n change lru = (.ok (), lru.withHeap (Function.update lru.heap n (some (change node)))) :=
  bind_ok (node_run held)

theorem chain_update (node : LruNode) : (lru.withHeap (Function.update lru.heap n (some node))).chain =
    Function.update lru.chain n (some node.links) := by
  funext place
  by_cases here : place = n
  · subst here
    simp only [chain, withHeap, Function.update_self, Option.map_some]
  · simp only [chain, withHeap, Function.update_of_ne here]

/-- Writing links leaves the rest of the node. -/
theorem entries_kept (held : lru.heap n = some node) {after : LruNode} (same : after.entry = node.entry) :
    (lru.withHeap (Function.update lru.heap n (some after))).entries = lru.entries := by
  rw [withHeap, entries_update, same]
  exact Function.update_eq_self_iff.mpr (entries_of_heap held).symm

theorem heap_of_chain (there : (lru.chain n).isSome) : ∃ node, lru.heap n = some node := by
  rw [chain, Option.isSome_map] at there
  exact Option.isSome_iff_exists.mp there

theorem chain_of_heap (held : lru.heap n = some node) : lru.chain n = some node.links := by
  rw [chain, held, Option.map_some]

/-- A change to the links of the node behind a pointer that may be `NULL`. -/
theorem modifyIf_links {n : Option Nat} (there : ∀ m ∈ n, (lru.chain m).isSome) {change : LruNode → LruNode}
    {links : Links Nat → Links Nat} (written : ∀ node, (change node).links = links node.links)
    (kept : ∀ node, (change node).entry = node.entry) :
    ∃ heap, modifyIf n change lru = (.ok (), lru.withHeap heap) ∧
      (lru.withHeap heap).chain = (fun m => if n = some m then (lru.chain m).map links else lru.chain m) ∧
      (lru.withHeap heap).entries = lru.entries := by
  cases n with
  | none => exact ⟨lru.heap, rfl, rfl, rfl⟩
  | some m =>
    obtain ⟨node, held⟩ := heap_of_chain (there m rfl)
    refine ⟨_, modify_run held _, ?_, entries_kept held (kept node)⟩
    rw [chain_update, written, written_eq_update (chain_of_heap held)]

/-- `if(n) n->next = next`. -/
theorem modifyIf_next {n : Option Nat} (there : ∀ m ∈ n, (lru.chain m).isSome) (next : Option Nat) :
    ∃ heap, modifyIf n (fun node => { node with next := next }) lru = (.ok (), lru.withHeap heap) ∧
      (lru.withHeap heap).chain = setNext lru.chain n next ∧ (lru.withHeap heap).entries = lru.entries :=
  modifyIf_links there (fun _ => rfl) fun _ => rfl

/-- `if(n) n->prev = prev`. -/
theorem modifyIf_prev {n : Option Nat} (there : ∀ m ∈ n, (lru.chain m).isSome) (prev : Option Nat) :
    ∃ heap, modifyIf n (fun node => { node with prev := prev }) lru = (.ok (), lru.withHeap heap) ∧
      (lru.withHeap heap).chain = setPrev lru.chain n prev ∧ (lru.withHeap heap).entries = lru.entries :=
  modifyIf_links there (fun _ => rfl) fun _ => rfl

/-- What `_lru_del` does to a node whose neighbours are there. -/
theorem lruDel_run (held : lru.heap n = some node) (before : ∀ m ∈ node.prev, (lru.chain m).isSome)
    (behind : ∀ m ∈ node.next, (lru.chain m).isSome) :
    ∃ heap, lruDel n lru = (.ok (), { lru with
        heap := heap
        hot := if lru.hot = some n then node.next else lru.hot
        cold := if lru.cold = some n then node.prev else lru.cold
        nodeCount := wrap 32 (lru.nodeCount - 1)
        size := wrap 32 (wrap 32 (lru.size - node.kLen) - node.vLen) }) ∧
      (lru.withHeap heap).chain = Function.update
        (setPrev (setNext lru.chain node.prev node.next) node.next node.prev) n (some ⟨none, none⟩) ∧
      (lru.withHeap heap).entries = lru.entries := by
  let cut : KvLru := { lru with
    hot := if lru.hot = some n then node.next else lru.hot
    cold := if lru.cold = some n then node.prev else lru.cold }
  obtain ⟨first, run1, chain1, entries1⟩ := @modifyIf_next cut _ before node.next
  have behind1 : ∀ m ∈ node.next, ((cut.withHeap first).chain m).isSome := by
    intro m member
    rw [chain1, isSome_setNext]
    exact behind m member
  obtain ⟨second, run2, chain2, entries2⟩ := modifyIf_prev behind1 node.prev
  have there : ((cut.withHeap second).chain n).isSome := by
    change ((cut.withHeap first).withHeap second).chain n |>.isSome
    rw [chain2, isSome_setPrev, chain1, isSome_setNext]
    exact Option.isSome_iff_exists.mpr ⟨node.links, chain_of_heap held⟩
  obtain ⟨last, held2⟩ := heap_of_chain there
  refine ⟨Function.update second n (some { last with prev := none, next := none }), ?_, ?_, ?_⟩
  · refine (bind_ok (node_run held)).trans ((bind_ok (update_run _ lru)).trans ((bind_ok run1).trans ?_))
    exact (bind_ok run2).trans (bind_ok (modify_run held2 _))
  · refine (@chain_update (cut.withHeap second) _ _).trans ?_
    exact congrArg (fun chain => Function.update chain n (some ⟨none, none⟩)) (chain2.trans
      (congrArg (fun chain => setPrev chain node.next node.prev) chain1))
  · have same : { last with prev := none, next := none : LruNode }.entry = last.entry := rfl
    exact (entries_kept held2 same).trans (entries2.trans entries1)

/-- What `_lru_insert` does to a node outside the list. -/
theorem lruInsert_run (held : lru.heap n = some node) (front : ∀ m ∈ lru.hot, (lru.chain m).isSome)
    (apart : lru.hot ≠ some n) :
    ∃ heap, lruInsert n lru = (.ok (), { lru with
        heap := heap
        hot := some n
        cold := if lru.cold = none then some n else lru.cold
        nodeCount := wrap 32 (lru.nodeCount + 1)
        size := wrap 32 (wrap 32 (lru.size + node.kLen) + node.vLen) }) ∧
      (lru.withHeap heap).chain =
        Function.update (setPrev lru.chain lru.hot (some n)) n (some ⟨node.prev, lru.hot⟩) ∧
      (lru.withHeap heap).entries = lru.entries := by
  obtain ⟨first, run1, chain1, entries1⟩ := modifyIf_prev front (some n)
  have kept : (lru.withHeap first).chain n = some node.links := by
    rw [chain1, setPrev_other apart]
    exact chain_of_heap held
  obtain ⟨same, held1⟩ := heap_of_chain (Option.isSome_iff_exists.mpr ⟨_, kept⟩)
  have links : same.links = node.links := Option.some.inj ((chain_of_heap held1).symm.trans kept)
  have entry : same.entry = node.entry := by
    have found := congrFun entries1 n
    rw [entries_of_heap held, entries_of_heap held1] at found
    exact Option.some.inj found
  have held2 : ((lru.withHeap first).withHeap (Function.update (lru.withHeap first).heap n
      (some { same with next := lru.hot }))).heap n = some { same with next := lru.hot } := Function.update_self ..
  refine ⟨Function.update first n (some { same with next := lru.hot }), ?_, ?_, ?_⟩
  · refine (bind_ok (read_run _ lru)).trans ((bind_ok run1).trans ((bind_ok (modify_run held1 _)).trans ?_))
    refine (bind_ok (node_run held2)).trans ?_
    have kLen : same.kLen = node.kLen := congrArg Entry.kLen entry
    have vLen : same.vLen = node.vLen := congrArg Entry.vLen entry
    simp only [update_run, withHeap, kLen, vLen]
  · refine (@chain_update (lru.withHeap first) _ _).trans ?_
    have prev : same.prev = node.prev := congrArg Links.prev links
    rw [chain1, LruNode.links, prev]
  · have same : { same with next := lru.hot : LruNode }.entry = same.entry := rfl
    exact (entries_kept held1 same).trans entries1

/-- Only links, the ends of the list and counters differ. -/
structure Steady (before after : KvLru) : Prop extends Same before after where
  maxSize : after.maxSize = before.maxSize
  maxElemSize : after.maxElemSize = before.maxElemSize

theorem Steady.refl (lru : KvLru) : Steady lru lru := ⟨Same.refl lru, rfl, rfl⟩

theorem Steady.trans {before middle after : KvLru} (first : Steady before middle) (second : Steady middle after) :
    Steady before after :=
  ⟨⟨second.entries.trans first.entries, second.tab.trans first.tab, second.bucketCount.trans first.bucketCount,
    second.fresh.trans first.fresh, second.junk.trans first.junk, second.allocs.trans first.allocs⟩,
    second.maxSize.trans first.maxSize, second.maxElemSize.trans first.maxElemSize⟩

theorem addrs_append (xs ys : List Cached) : addrs (xs ++ ys) = addrs xs ++ addrs ys := List.map_append

theorem addrs_cons (c : Cached) (ys : List Cached) : addrs (c :: ys) = c.addr :: addrs ys := rfl

/-- The address of a node is not among the others. -/
theorem addrs_out (distinct : (addrs (xs ++ c :: ys)).Nodup) : c.addr ∉ addrs (xs ++ ys) := by
  rw [addrs_append, addrs_cons] at distinct
  rw [addrs_append]
  exact (List.nodup_cons.mp (List.nodup_middle.mp distinct)).1

/-- The node of a cached key and value. -/
theorem Listed.held (listed : Listed cached lru) (member : c ∈ cached) :
    ∃ node, lru.heap c.addr = some node ∧ node.entry.Holds c.k c.v := by
  obtain ⟨entry, found, holds⟩ := listed.holds c member
  obtain ⟨node, held, rfl⟩ := Option.map_eq_some_iff.mp found
  exact ⟨node, held, holds⟩

theorem Listed.isSome (listed : Listed cached lru) {m : Nat} (member : m ∈ addrs cached) : (lru.chain m).isSome :=
  listed.linked.isSome member

/-- `_lru_del` takes a node out of the list. -/
theorem Listed.unlink (listed : Listed (xs ++ c :: ys) lru) :
    ∃ after, lruDel c.addr lru = (.ok (), after) ∧ Listed (xs ++ ys) after ∧ Steady lru after ∧
      after.chain c.addr = some ⟨none, none⟩ ∧ after.nodeCount = wrap 32 (lru.nodeCount - 1) ∧
        after.size = wrap 32 (wrap 32 (lru.size - c.k.length) - c.v.length) := by
  obtain ⟨node, held, holds⟩ := listed.held (List.mem_append_right xs List.mem_cons_self)
  obtain ⟨listed_holds, distinct, linked, hot, cold⟩ := listed
  rw [addrs_append, addrs_cons] at distinct linked hot cold
  have links := linked.links
  rw [Option.or_none, Option.or_none, chain_of_heap held, Option.some.injEq] at links
  have prev : node.prev = (addrs xs).getLast? := congrArg Links.prev links
  have next : node.next = (addrs ys).head? := congrArg Links.next links
  have before : ∀ m ∈ node.prev, (lru.chain m).isSome := by
    intro m last
    rw [prev] at last
    exact linked.isSome (List.mem_append_left _ (List.mem_of_getLast? last))
  have behind : ∀ m ∈ node.next, (lru.chain m).isSome := by
    intro m first
    rw [next] at first
    exact linked.isSome (List.mem_append_right _ (List.mem_cons_of_mem _ (List.mem_of_head? first)))
  obtain ⟨heap, run, chain, entries⟩ := lruDel_run held before behind
  rw [prev, next] at run chain
  have gone : c.addr ∉ addrs (xs ++ ys) := by
    rw [addrs_append]
    exact (List.nodup_cons.mp (List.nodup_middle.mp distinct)).1
  refine ⟨_, run, ⟨?_, ?_, ?_, ?_, ?_⟩, ⟨⟨entries, rfl, rfl, rfl, rfl, rfl⟩, rfl, rfl⟩, ?_, rfl, ?_⟩
  · intro other member
    obtain ⟨entry, found, holds⟩ := listed_holds other (List.mem_append.mpr
      ((List.mem_append.mp member).imp_right (List.mem_cons_of_mem c)))
    exact ⟨entry, (congrFun entries other.addr).trans found, holds⟩
  · rw [addrs_append]
    exact (List.nodup_cons.mp (List.nodup_middle.mp distinct)).2
  · change Linked (lru.withHeap heap).chain none _ none
    rw [chain]
    apply (addrs_append xs ys ▸ linked.unlink distinct).frame
    exact fun m member => Function.update_of_ne (ne_of_mem_of_not_mem member gone) _ _
  · simp only [hot, addrs_append]
    exact head?_unlink distinct
  · simp only [cold, addrs_append]
    exact getLast?_unlink distinct
  · change (lru.withHeap heap).chain c.addr = _
    rw [chain, Function.update_self]
  · have kLen : node.kLen = c.k.length := holds.key.1
    have vLen : node.vLen = c.v.length := holds.vLen
    simp only [kLen, vLen]

/-- `_lru_insert` puts a node in front of the list. -/
theorem Listed.insert (listed : Listed cached lru) (holds : ∃ entry ∈ lru.entries c.addr, entry.Holds c.k c.v)
    (free : ∃ next, lru.chain c.addr = some ⟨none, next⟩) (new : c.addr ∉ addrs cached) :
    ∃ after, lruInsert c.addr lru = (.ok (), after) ∧ Listed (c :: cached) after ∧ Steady lru after ∧
      after.nodeCount = wrap 32 (lru.nodeCount + 1) ∧
        after.size = wrap 32 (wrap 32 (lru.size + c.k.length) + c.v.length) := by
  obtain ⟨entry, found, holds⟩ := holds
  obtain ⟨node, held, rfl⟩ := Option.map_eq_some_iff.mp found
  obtain ⟨next, free⟩ := free
  have prev : node.prev = none := congrArg Links.prev (Option.some.inj ((chain_of_heap held).symm.trans free))
  have front : ∀ m ∈ lru.hot, (lru.chain m).isSome := by
    intro m first
    rw [listed.hot] at first
    exact listed.isSome (List.mem_of_head? first)
  have apart : lru.hot ≠ some c.addr := by
    rw [listed.hot]
    exact fun first => new (List.mem_of_head? first)
  obtain ⟨heap, run, chain, entries⟩ := lruInsert_run held front apart
  rw [prev, listed.hot] at chain
  refine ⟨_, run, ⟨?_, ?_, ?_, rfl, ?_⟩, ⟨⟨entries, rfl, rfl, rfl, rfl, rfl⟩, rfl, rfl⟩, rfl, ?_⟩
  · intro other member
    rcases List.mem_cons.mp member with rfl | member
    · exact ⟨node.entry, (congrFun entries other.addr).trans found, holds⟩
    · obtain ⟨entry, found, holds⟩ := listed.holds other member
      exact ⟨entry, (congrFun entries other.addr).trans found, holds⟩
  · exact List.nodup_cons.mpr ⟨new, listed.distinct⟩
  · change Linked (lru.withHeap heap).chain none _ none
    rw [chain]
    exact listed.linked.push listed.distinct new
  · simp only [listed.cold, addrs_cons]
    rw [List.getLast?_cons]
    cases (addrs cached).getLast? <;> rfl
  · have kLen : node.kLen = c.k.length := holds.key.1
    have vLen : node.vLen = c.v.length := holds.vLen
    simp only [kLen, vLen]

theorem total_cons (c : Cached) (cached : List Cached) : total (c :: cached) = c.weight + total cached := List.sum_cons

theorem total_append (xs ys : List Cached) : total (xs ++ ys) = total xs + total ys := by
  rw [total, List.map_append, List.sum_append]
  rfl

theorem Counted.congr {after : KvLru} (counted : Counted cached lru) (nodeCount : after.nodeCount = lru.nodeCount)
    (size : after.size = lru.size) : Counted cached after :=
  ⟨nodeCount.trans counted.nodeCount, size.trans counted.size, nodeCount ▸ counted.fewNodes, size ▸ counted.fewBytes⟩

/-- Taking a node out counts down by the node. -/
theorem Counted.unlink {after : KvLru} (counted : Counted (xs ++ c :: ys) lru)
    (nodeCount : after.nodeCount = wrap 32 (lru.nodeCount - 1))
    (size : after.size = wrap 32 (wrap 32 (lru.size - c.k.length) - c.v.length)) : Counted (xs ++ ys) after := by
  obtain ⟨nodes, bytes, fewNodes, fewBytes⟩ := counted
  rw [List.length_append, List.length_cons] at nodes
  rw [total_append, total_cons, Cached.weight] at bytes
  rw [wrap_32_of_range (by omega) (by omega)] at nodeCount
  have less : wrap 32 (lru.size - c.k.length) = lru.size - c.k.length := wrap_32_of_range (by omega) (by omega)
  rw [less, wrap_32_of_range (by omega) (by omega)] at size
  constructor
  · rw [List.length_append]
    omega
  · rw [total_append]
    omega
  · omega
  · omega

/-- Putting a node in counts up by the node, where the counters can. -/
theorem Counted.insert {after : KvLru} (counted : Counted cached lru)
    (nodeCount : after.nodeCount = wrap 32 (lru.nodeCount + 1))
    (size : after.size = wrap 32 (wrap 32 (lru.size + c.k.length) + c.v.length))
    (fewNodes : lru.nodeCount + 1 < 2 ^ 31) (fewBytes : lru.size + c.weight < 2 ^ 31) :
    Counted (c :: cached) after := by
  obtain ⟨nodes, bytes, _, _⟩ := counted
  rw [Cached.weight] at fewBytes
  rw [wrap_32_of_range (by omega) (by omega)] at nodeCount
  have more : wrap 32 (lru.size + c.k.length) = lru.size + c.k.length := wrap_32_of_range (by omega) (by omega)
  rw [more, wrap_32_of_range (by omega) (by omega)] at size
  constructor
  · rw [List.length_cons]
    omega
  · rw [total_cons, Cached.weight]
    omega
  · omega
  · omega

/-- A node that is used goes to the front. -/
theorem Listed.touch (listed : Listed (xs ++ c :: ys) lru) (counted : Counted (xs ++ c :: ys) lru) :
    ∃ middle after, lruDel c.addr lru = (.ok (), middle) ∧ lruInsert c.addr middle = (.ok (), after) ∧
      Listed (c :: (xs ++ ys)) after ∧ Counted (c :: (xs ++ ys)) after ∧ Steady lru after := by
  obtain ⟨entry, found, holds⟩ := listed.holds c (List.mem_append_right xs List.mem_cons_self)
  have new := addrs_out listed.distinct
  obtain ⟨middle, del, cut, steady, free, nodeCount, size⟩ := listed.unlink
  have fewer := counted.unlink nodeCount size
  obtain ⟨after, insert, whole, later, nodeCount, size⟩ :=
    cut.insert ⟨entry, (congrFun steady.entries c.addr).trans found, holds⟩ ⟨none, free⟩ new
  refine ⟨middle, after, del, insert, whole, ?_, steady.trans later⟩
  have nodes := counted.nodeCount
  have bytes := counted.size
  rw [List.length_append, List.length_cons] at nodes
  rw [total_append, total_cons] at bytes
  apply fewer.insert nodeCount size
  · have below := counted.fewNodes
    rw [fewer.nodeCount, List.length_append]
    omega
  · have below := counted.fewBytes
    rw [fewer.size, total_append]
    omega

/-- Neither the order of the nodes nor their links matter to the buckets. -/
theorem Bucketed.perm {after : KvLru} {cached' : List Cached} (bucketed : Bucketed cached lru)
    (same : ∀ c, c ∈ cached' ↔ c ∈ cached) (steady : Steady lru after) : Bucketed cached' after := by
  refine ⟨fun index n => ?_, fun index => ?_, fun c member => ?_⟩
  · rw [steady.tab, steady.bucketCount, bucketed.bucket]
    simp only [same]
  · rw [steady.tab]
    exact bucketed.once index
  · rw [InTable, steady.bucketCount]
    exact bucketed.inTable c ((same c).mp member)

theorem mem_touched (xs ys : List Cached) (c d : Cached) : d ∈ c :: (xs ++ ys) ↔ d ∈ xs ++ c :: ys := by
  simp only [List.mem_cons, List.mem_append, or_left_comm]

theorem WellFormed.touch (formed : WellFormed (xs ++ c :: ys) lru) :
    ∃ middle after, lruDel c.addr lru = (.ok (), middle) ∧ lruInsert c.addr middle = (.ok (), after) ∧
      WellFormed (c :: (xs ++ ys)) after ∧ Steady lru after := by
  obtain ⟨middle, after, del, insert, listed, counted, steady⟩ := formed.listed.touch formed.counted
  refine ⟨middle, after, del, insert, ⟨listed, counted, ?_, ?_⟩, steady⟩
  · exact formed.bucketed.perm (mem_touched xs ys c) steady
  · intro d member
    rw [steady.fresh]
    exact formed.below d ((mem_touched xs ys c d).mp member)

/-- A cache of one bucket with one node. -/
def single (k v : List UInt8) (maxSize maxElemSize : Int) (junk : Nat → Mem) : KvLru :=
  { heap := fun n => if n = 0 then some ⟨Buf.ofList k, k.length, Buf.ofList v, v.length, 0, none, none⟩ else none
    fresh := 1, junk := junk, allocs := 2, tab := fun index => if index = 0 then [0] else [], bucketCount := 1
    size := (k.length + v.length : Nat), maxSize := maxSize, maxElemSize := maxElemSize, nodeCount := 1
    hot := some 0, cold := some 0 }

theorem lruHash_one (data : List UInt8) : lruHash data 1 = 0 := by
  simp only [lruHash, Int.tmod_one, ite_self]
  rfl

theorem single_formed {k v : List UInt8} (small : k.length + v.length < 2 ^ 31) (maxSize maxElemSize : Int)
    (junk : Nat → Mem) : WellFormed [⟨0, k, v⟩] (single k v maxSize maxElemSize junk) := by
  refine ⟨⟨?_, List.nodup_singleton 0, ⟨rfl, trivial⟩, rfl, rfl⟩, ⟨rfl, rfl, show (1 : Int) < 2 ^ 31 by decide, ?_⟩, ⟨?_, ?_, ?_⟩, ?_⟩
  · intro c member
    obtain rfl := List.mem_singleton.mp member
    exact ⟨_, rfl, ⟨rfl, Buf.toList_ofList k⟩, rfl, Buf.toList_ofList v⟩
  · simp only [single]
    omega
  · intro index n
    simp only [single, lruHash_one, List.mem_singleton, exists_eq_left]
    by_cases first : index = 0
    · simp only [first, if_true, List.mem_singleton, and_true, eq_comm]
    · simp only [first, if_false, List.not_mem_nil, Ne.symm first, and_false]
  · intro index
    simp only [single]
    split
    · exact List.nodup_singleton 0
    · exact List.nodup_nil
  · intro c _
    simp only [InTable, single, lruHash_one]
    omega
  · intro c member
    obtain rfl := List.mem_singleton.mp member
    exact Nat.zero_lt_one

/-- A cache of one bucket with two nodes. -/
def pair (k v l w : List UInt8) (maxSize maxElemSize : Int) : KvLru :=
  { heap := fun n => match n with
      | 0 => some ⟨Buf.ofList k, k.length, Buf.ofList v, v.length, 0, none, some 1⟩
      | 1 => some ⟨Buf.ofList l, l.length, Buf.ofList w, w.length, 0, some 0, none⟩
      | _ => none
    fresh := 2, junk := fun _ _ => 0, allocs := 4, tab := fun index => if index = 0 then [0, 1] else [], bucketCount := 1
    size := (k.length + v.length + (l.length + w.length) : Nat), maxSize := maxSize, maxElemSize := maxElemSize, nodeCount := 2
    hot := some 0, cold := some 1 }

theorem pair_formed {k v l w : List UInt8} (small : k.length + v.length + (l.length + w.length) < 2 ^ 31) (maxSize maxElemSize : Int) :
    WellFormed [⟨0, k, v⟩, ⟨1, l, w⟩] (pair k v l w maxSize maxElemSize) := by
  refine ⟨⟨?_, show [0, 1].Nodup by decide, ⟨rfl, rfl, trivial⟩, rfl, rfl⟩, ⟨rfl, ?_, show (2 : Int) < 2 ^ 31 by decide, ?_⟩, ⟨?_, ?_, ?_⟩, ?_⟩
  · refine List.forall_mem_cons.mpr ⟨?_, List.forall_mem_singleton.mpr ?_⟩
    · exact ⟨_, rfl, ⟨rfl, Buf.toList_ofList k⟩, rfl, Buf.toList_ofList v⟩
    · exact ⟨_, rfl, ⟨rfl, Buf.toList_ofList l⟩, rfl, Buf.toList_ofList w⟩
  · rfl
  · simp only [pair]
    omega
  · intro index n
    simp only [pair, lruHash_one, List.mem_cons, List.not_mem_nil, or_false, exists_eq_or_imp, exists_eq_left]
    by_cases first : index = 0
    · simp [first, eq_comm]
    · simp [first, Ne.symm first]
  · intro index
    simp only [pair]
    split
    · decide
    · exact List.nodup_nil
  · intro c _
    simp only [InTable, pair, lruHash_one]
    omega
  · exact List.forall_mem_cons.mpr ⟨Nat.zero_lt_two, List.forall_mem_singleton.mpr Nat.one_lt_two⟩

end KvLru

end Cache

end Pingkv
