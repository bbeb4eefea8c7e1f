import Pingkv.Cache.Layout

/-! `kv_lru::_ageout`: which nodes it deletes, and that it comes to an end. -/

namespace Pingkv

open Exec LinkedList

namespace Cache

/-- The key that `_del` reads from a node. -/
theorem Entry.Holds.keyBytes {entry : Entry} {k v : List UInt8} (holds : entry.Holds k v) :
    entry.k.byte.slice 0 entry.kLen.toNat = k := by
  have len := congrArg List.length holds.key.2
  rw [Buf.toList_length] at len
  rw [holds.key.1, Int.toNat_natCast, ← len]
  exact holds.key.2

namespace KvLru

/-- The settings, the addresses handed out and the memory to come are the same. -/
structure Static (before after : KvLru) : Prop where
  bucketCount : after.bucketCount = before.bucketCount
  fresh : after.fresh = before.fresh
  junk : after.junk = before.junk
  allocs : after.allocs = before.allocs
  maxSize : after.maxSize = before.maxSize
  maxElemSize : after.maxElemSize = before.maxElemSize

theorem Static.refl (lru : KvLru) : Static lru lru := ⟨rfl, rfl, rfl, rfl, rfl, rfl⟩

theorem Static.trans {before middle after : KvLru} (first : Static before middle) (second : Static middle after) :
    Static before after :=
  ⟨second.bucketCount.trans first.bucketCount, second.fresh.trans first.fresh, second.junk.trans first.junk,
    second.allocs.trans first.allocs, second.maxSize.trans first.maxSize, second.maxElemSize.trans first.maxElemSize⟩

theorem Steady.static {before after : KvLru} (steady : Steady before after) : Static before after :=
  ⟨steady.bucketCount, steady.fresh, steady.junk, steady.allocs, steady.maxSize, steady.maxElemSize⟩

variable {lru after : KvLru} {cached xs ys : List Cached} {c : Cached}

theorem dropped_chain {n m : Nat} (other : m ≠ n) (index : Int) : (lru.dropped n index).chain m = lru.chain m := by
  simp only [chain, dropped, Function.update_of_ne other]

/-- Deleting a node that is out of the list leaves the list. -/
theorem Listed.dropped (listed : Listed cached lru) {n : Nat} (out : n ∉ addrs cached) (index : Int) :
    Listed cached (lru.dropped n index) := by
  refine ⟨fun d member => ?_, listed.distinct, ?_, listed.hot, listed.cold⟩
  · have other : d.addr ≠ n := ne_of_mem_of_not_mem (List.mem_map_of_mem member) out
    rw [dropped_entries, Function.update_of_ne other]
    exact listed.holds d member
  · apply listed.linked.frame
    exact fun m member => dropped_chain (ne_of_mem_of_not_mem member out) index

/-- A node is in no bucket but the one of its key. -/
theorem Bucketed.only (bucketed : Bucketed (xs ++ c :: ys) lru) (distinct : (addrs (xs ++ c :: ys)).Nodup) {index : Int}
    (other : index ≠ lruHash c.k lru.bucketCount) : c.addr ∉ lru.tab index := by
  intro member
  obtain ⟨d, there, same, rfl⟩ := (bucketed.bucket index _).mp member
  rcases List.mem_cons.mp ((mem_touched xs ys c d).mpr there) with rfl | rest
  · exact other rfl
  · exact addrs_out distinct (same ▸ List.mem_map_of_mem rest)

/-- A node that is deleted leaves the bucket of its key, and so every one. -/
theorem Bucketed.dropped_tab (bucketed : Bucketed (xs ++ c :: ys) lru) (distinct : (addrs (xs ++ c :: ys)).Nodup)
    (index : Int) :
    (lru.dropped c.addr (lruHash c.k lru.bucketCount)).tab index = (lru.tab index).filter fun n => n ≠ c.addr := by
  by_cases own : index = lruHash c.k lru.bucketCount
  · subst own
    simp only [KvLru.dropped, Function.update_self, (bucketed.once _).erase_eq_filter, bne, ne_eq, decide_not,
      beq_eq_decide]
  · simp only [KvLru.dropped, Function.update_of_ne own]
    apply Eq.symm
    apply List.filter_eq_self.mpr
    exact fun n member => decide_eq_true (ne_of_mem_of_not_mem member (bucketed.only distinct own))

theorem Bucketed.dropped (bucketed : Bucketed (xs ++ c :: ys) lru) (distinct : (addrs (xs ++ c :: ys)).Nodup) :
    Bucketed (xs ++ ys) (lru.dropped c.addr (lruHash c.k lru.bucketCount)) := by
  refine ⟨fun index n => ?_, fun index => ?_, fun d member => ?_⟩
  · rw [bucketed.dropped_tab distinct, List.mem_filter, decide_eq_true_eq, bucketed.bucket]
    constructor
    · rintro ⟨⟨d, member, rfl, hash⟩, other⟩
      rcases List.mem_cons.mp ((mem_touched xs ys c d).mpr member) with rfl | rest
      · exact absurd rfl other
      · exact ⟨d, rest, rfl, hash⟩
    · rintro ⟨d, member, rfl, hash⟩
      exact ⟨⟨d, (mem_touched xs ys c d).mp (List.mem_cons_of_mem c member), rfl, hash⟩,
        ne_of_mem_of_not_mem (List.mem_map_of_mem member) (addrs_out distinct)⟩
  · rw [bucketed.dropped_tab distinct]
    exact (bucketed.once index).filter _
  · exact bucketed.inTable d ((mem_touched xs ys c d).mp (List.mem_cons_of_mem c member))

/-- `_del` takes a node out of the list and out of its bucket, and frees it. -/
theorem WellFormed.del (formed : WellFormed (xs ++ c :: ys) lru) :
    ∃ after, del (some c.addr) lru = (.ok (), after) ∧ WellFormed (xs ++ ys) after ∧ Static lru after ∧
      after.entries = Function.update lru.entries c.addr none ∧
        ∀ index, after.tab index = (lru.tab index).filter fun n => n ≠ c.addr := by
  have member : c ∈ xs ++ c :: ys := List.mem_append_right xs List.mem_cons_self
  obtain ⟨entry, found, holds⟩ := formed.listed.holds c member
  obtain ⟨cut, unlinked, listed, steady, _, nodeCount, size⟩ := formed.listed.unlink
  obtain ⟨node, held, rfl⟩ := Option.map_eq_some_iff.mp ((congrFun steady.entries c.addr).trans found)
  have out := addrs_out formed.listed.distinct
  have inTable : cut.InTable c.k := by
    rw [InTable, steady.bucketCount]
    exact formed.bucketed.inTable c member
  have there : c.addr ∈ cut.tab (lruHash c.k cut.bucketCount) := by
    rw [steady.tab, steady.bucketCount]
    exact (formed.bucketed.bucket _ _).mpr ⟨c, member, rfl, rfl⟩
  have bucketed : Bucketed (xs ++ c :: ys) cut := formed.bucketed.perm (fun _ => Iff.rfl) steady
  refine ⟨cut.dropped c.addr (lruHash c.k cut.bucketCount), ?_, ⟨?_, ?_, ?_, ?_⟩, ?_, ?_, ?_⟩
  · refine (bind_ok unlinked).trans ((bind_ok (node_run held)).trans ?_)
    rw [show node.k.byte.slice 0 node.kLen.toNat = c.k from holds.keyBytes]
    refine (bind_ok (place_run inTable)).trans ((bind_ok (read_run _ cut)).trans ?_)
    rw [if_pos there, update_run]
    rfl
  · exact listed.dropped out _
  · exact (formed.counted.unlink nodeCount size).congr rfl rfl
  · exact bucketed.dropped formed.listed.distinct
  · intro d member
    rw [show (cut.dropped c.addr _).fresh = lru.fresh from steady.fresh]
    exact formed.below d ((mem_touched xs ys c d).mp (List.mem_cons_of_mem c member))
  · exact steady.static.trans ⟨rfl, rfl, rfl, rfl, rfl, rfl⟩
  · rw [dropped_entries, steady.entries]
  · intro index
    rw [bucketed.dropped_tab formed.listed.distinct, steady.tab]

/-- The node at the cold end. -/
theorem Listed.cold_eq (listed : Listed (xs ++ [c]) lru) : lru.cold = some c.addr := by
  rw [listed.cold, addrs_append, addrs_cons, List.getLast?_append_cons]
  rfl

/-- `_del` of the node at the cold end. -/
theorem WellFormed.del_cold (formed : WellFormed (xs ++ [c]) lru) :
    ∃ after, KvLru.del lru.cold lru = (.ok (), after) ∧ WellFormed xs after ∧ Static lru after ∧
      after.entries = Function.update lru.entries c.addr none ∧
        ∀ index, after.tab index = (lru.tab index).filter fun n => n ≠ c.addr := by
  rw [formed.listed.cold_eq]
  simpa only [List.append_nil] using formed.del

/-- Deleting a run of nodes from the cold end, as short as it can be for what is
left not to weigh more than `bound`. -/
structure Evicts (bound : Int) (cached kept gone : List Cached) : Prop where
  whole : cached = kept ++ gone
  light : total kept ≤ bound
  shortest : ∀ kept' gone', cached = kept' ++ gone' → total kept' ≤ bound → gone.length ≤ gone'.length

theorem Evicts.none {bound : Int} (light : total cached ≤ bound) : Evicts bound cached cached [] :=
  ⟨(List.append_nil cached).symm, light, fun _ _ _ _ => Nat.zero_le _⟩

/-- What is too heavy loses its last node first. -/
theorem Evicts.concat {bound : Int} {kept gone : List Cached} (evicts : Evicts bound xs kept gone)
    (heavy : ¬ total (xs ++ [c]) ≤ bound) : Evicts bound (xs ++ [c]) kept (gone ++ [c]) := by
  refine ⟨by rw [evicts.whole, List.append_assoc], evicts.light, fun kept' gone' whole light => ?_⟩
  rcases List.eq_nil_or_concat gone' with rfl | ⟨rest, last, rfl⟩
  · rw [List.append_nil] at whole
    exact absurd (whole ▸ light) heavy
  · rw [List.concat_eq_append, ← List.append_assoc] at whole
    obtain ⟨whole, _⟩ := List.append_inj' whole rfl
    have least := evicts.shortest kept' rest whole light
    rw [List.concat_eq_append, List.length_append, List.length_append]
    exact Nat.add_le_add_right least 1

/-- The nodes at the hot end that weigh no more than `bound` together. -/
def survivors (bound : Int) : List Cached → List Cached
  | [] => []
  | c :: rest => if c.weight ≤ bound then c :: survivors (bound - c.weight) rest else []

/-- What is left are as many nodes from the hot end as the bound allows. -/
theorem Evicts.kept_eq {bound : Int} {kept gone : List Cached} (evicts : Evicts bound cached kept gone) :
    kept = survivors bound cached := by
  induction cached generalizing bound kept with
  | nil => exact (List.append_eq_nil_iff.mp evicts.whole.symm).1
  | cons c rest ih =>
    rw [survivors]
    cases kept with
    | nil =>
      rw [if_neg]
      intro light
      have whole : c :: rest = gone := evicts.whole
      have fewer := evicts.shortest [c] rest rfl (by simpa only [total, List.map_cons, List.map_nil, List.sum_singleton])
      rw [← whole, List.length_cons] at fewer
      exact absurd fewer (Nat.not_succ_le_self _)
    | cons first later =>
      obtain ⟨rfl, whole⟩ := List.cons.inj evicts.whole
      have light := evicts.light
      rw [total_cons] at light
      have next : Evicts (bound - c.weight) rest later gone := by
        refine ⟨whole, by omega, fun kept' gone' whole' light' => ?_⟩
        apply evicts.shortest (c :: kept') gone' (by rw [whole', List.cons_append])
        rw [total_cons]
        omega
      rw [if_pos (by omega), ← ih next]

/-- `_ageout` with at least as many turns as there are nodes, and one more. -/
theorem WellFormed.ageout {fuel : Nat} (formed : WellFormed cached lru) (nonneg : 0 ≤ lru.maxSize.tdiv 2)
    (enough : cached.length < fuel) :
    ∃ after kept gone, ageout fuel lru = (.ok (), after) ∧ Evicts (lru.maxSize.tdiv 2) cached kept gone ∧
      WellFormed kept after ∧ Static lru after ∧ (∀ n, lru.entries n = none → after.entries n = none) ∧
        (∀ c ∈ gone, after.entries c.addr = none) ∧
          ∀ index, after.tab index = (lru.tab index).filter fun n => n ∈ addrs kept := by
  induction fuel generalizing cached lru with
  | zero => exact absurd enough (Nat.not_lt_zero _)
  | succ fuel ih =>
    by_cases heavy : lru.size > lru.maxSize.tdiv 2
    · have bytes := formed.counted.size
      rcases List.eq_nil_or_concat cached with rfl | ⟨xs, c, rfl⟩
      · simp only [total, List.map_nil, List.sum_nil] at bytes
        omega
      · rw [List.concat_eq_append] at formed enough bytes ⊢
        obtain ⟨middle, deleted, formed', static, entries, tab⟩ := formed.del_cold
        have enough' : xs.length < fuel := by
          rw [List.length_append, List.length_singleton] at enough
          omega
        obtain ⟨after, kept, gone, run, evicts, rest, static', free, freed, tab'⟩ :=
          ih formed' (by rw [static.maxSize]; exact nonneg) enough'
        rw [static.maxSize] at evicts
        refine ⟨after, kept, gone ++ [c], ?_, evicts.concat (by omega), rest, static.trans static', ?_, ?_, ?_⟩
        · refine (bind_ok (read_run _ lru)).trans ?_
          simp only [id]
          rw [if_pos heavy]
          exact (bind_ok deleted).trans run
        · intro n empty
          apply free
          rw [entries]
          by_cases own : n = c.addr
          · rw [own, Function.update_self]
          · rw [Function.update_of_ne own, empty]
        · intro d member
          rcases List.mem_append.mp member with early | last
          · exact freed d early
          · obtain rfl := List.mem_singleton.mp last
            apply free
            rw [entries, Function.update_self]
        · intro index
          have out : c.addr ∉ addrs (xs ++ []) := addrs_out formed.listed.distinct
          rw [tab', tab, List.filter_filter]
          apply List.filter_congr
          intro n _
          by_cases left : n ∈ addrs kept
          · have inside : n ∈ addrs (xs ++ []) := by
              rw [List.append_nil, evicts.whole, addrs_append]
              exact List.mem_append_left _ left
            simp only [left, ne_of_mem_of_not_mem inside out, ne_eq, not_false_eq_true, decide_true, Bool.and_true]
          · simp only [left, decide_false, Bool.false_and]
    · refine ⟨lru, cached, [], ?_, Evicts.none ?_, formed, Static.refl lru, fun _ empty => empty, ?_, ?_⟩
      · refine (bind_ok (read_run _ lru)).trans ?_
        simp only [id]
        rw [if_neg heavy]
        rfl
      · rw [← formed.counted.size]
        omega
      · exact fun _ none => absurd none (List.not_mem_nil)
      · intro index
        apply Eq.symm
        apply List.filter_eq_self.mpr
        intro n member
        obtain ⟨c, there, rfl, _⟩ := (formed.bucketed.bucket index n).mp member
        exact decide_eq_true (List.mem_map_of_mem there)

/-- `_ageout` ends without a null pointer, with the shortest run from the cold
end deleted that brings the size down to half of `_max_size`. -/
theorem ageout_evicts (cached : List Cached) (lru : KvLru) (formed : WellFormed cached lru) (nonneg : 0 ≤ lru.maxSize) :
    ∃ turns, ∀ fuel, turns ≤ fuel → ∃ after kept gone, KvLru.ageout fuel lru = (.ok (), after) ∧
      Evicts (lru.maxSize / 2) cached kept gone ∧ WellFormed kept after ∧ after.size ≤ lru.maxSize / 2 ∧
        Static lru after ∧ ∀ c ∈ gone, after.entries c.addr = none := by
  have half : lru.maxSize.tdiv 2 = lru.maxSize / 2 := Int.tdiv_eq_ediv_of_nonneg nonneg
  refine ⟨cached.length + 1, fun fuel enough => ?_⟩
  obtain ⟨after, kept, gone, run, evicts, formed, static, _, freed, _⟩ := formed.ageout (by omega) enough
  rw [half] at evicts
  refine ⟨after, kept, gone, run, evicts, formed, ?_, static, freed⟩
  rw [formed.counted.size]
  exact evicts.light

/-- Of two nodes of two bytes each in a cache of five, the cold one is deleted. -/
theorem pair_evicted : ∃ turns, ∀ fuel, turns ≤ fuel →
    ∃ after, KvLru.ageout fuel (pair [97] [49] [98] [50] 5 50) = (.ok (), after) ∧ WellFormed [⟨0, [97], [49]⟩] after ∧
      after.size ≤ 2 ∧ after.entries 1 = none := by
  obtain ⟨turns, ends⟩ := ageout_evicts _ _ (pair_formed (k := [97]) (v := [49]) (l := [98]) (w := [50]) (by decide) 5 50)
    (by decide)
  refine ⟨turns, fun fuel enough => ?_⟩
  obtain ⟨after, kept, gone, run, evicts, formed, size, _, freed⟩ := ends fuel enough
  have left : survivors 2 [⟨0, [97], [49]⟩, ⟨1, [98], [50]⟩] = [⟨0, [97], [49]⟩] := by decide
  obtain rfl : kept = [⟨0, [97], [49]⟩] := evicts.kept_eq.trans left
  obtain rfl : [⟨1, [98], [50]⟩] = gone := (List.cons.inj evicts.whole).2
  exact ⟨after, run, formed, size, freed _ (List.mem_singleton.mpr rfl)⟩

end KvLru

end Cache

end Pingkv
