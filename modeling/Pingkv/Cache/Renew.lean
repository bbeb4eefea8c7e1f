import Pingkv.Cache.Keep

/-! Whether a get of a key can still hand out what was cached before a set. -/

namespace Pingkv

open Exec

namespace Cache

namespace KvLru

/-- The nodes in the bucket of a key. -/
def bucket (lru : KvLru) (k : List UInt8) : List Nat := lru.tab (lruHash k lru.bucketCount)

/-- A lookup of `k` takes the node of its bucket that has this key, and no other. -/
def LooksUp (lru : KvLru) (k : List UInt8) : Prop :=
  lru.Exact k ∧ ∀ n ∈ lru.bucket k, ∀ entry ∈ lru.entries n, entry.HasKey k → lru.lookup k = some n

instance (lru : KvLru) (k : List UInt8) : Decidable (lru.LooksUp k) :=
  inferInstanceAs (Decidable (_ ∧ ∀ n ∈ lru.bucket k, ∀ entry ∈ lru.entries n, entry.HasKey k → lru.lookup k = some n))

/-- In the bucket of `k` the key is cached with `v` only. -/
def Current (k v : List UInt8) (lru : KvLru) : Prop :=
  ∀ n ∈ lru.bucket k, ∀ entry ∈ lru.entries n, entry.HasKey k → entry.Holds k v

end KvLru

/-- The lookup of a call is exact, and where a set makes a node the memory of
the node holds the key and the value. -/
def Call.Exactly (lru : KvLru) : Call → Prop
  | .set k v => wrap 32 (k.length + v.length) ≤ lru.maxElemSize →
      lru.aged.LooksUp k ∧ (lru.aged.lookup k = none → lru.aged.FreshHolds k v)
  | .get k => lru.LooksUp k

instance (lru : KvLru) : (call : Call) → Decidable (call.Exactly lru)
  | .set _ _ => inferInstanceAs (Decidable (_ → _ ∧ (_ → _)))
  | .get _ => inferInstanceAs (Decidable (KvLru.LooksUp _ _))

/-- Every call of a run looks up exactly. -/
def AllExactly : List Call → KvLru → Prop
  | [], _ => True
  | call :: rest, lru => call.Exactly lru ∧ ((call.perform lru).1.isOk → AllExactly rest (call.perform lru).2)

instance AllExactly.decidable : (calls : List Call) → (lru : KvLru) → Decidable (AllExactly calls lru)
  | [], _ => isTrue trivial
  | call :: rest, lru =>
    have := AllExactly.decidable rest (call.perform lru).2
    inferInstanceAs (Decidable (_ ∧ (_ → _)))

/-- Once a set of `k` to `v` has returned, a get of `k` that hits hands out `v`,
whatever calls come between that do not set `k`. -/
def NoOlder (lru : KvLru) (k v : List UInt8) : Prop :=
  ∀ calls, (∀ v', .set k v' ∉ calls) → AllExactly (.set k v :: (calls ++ [.get k])) lru →
    ∀ later, run (.set k v :: calls) lru = (.ok (), later) →
      ∀ value vLen after, KvLru.get k later = (.ok (some (value, vLen)), after) → value.toList = v ∧ vLen = v.length

namespace KvLru

variable {lru after : KvLru} {cached : List Cached} {c : Cached} {k v k' v' : List UInt8}

theorem Current.congr (current : Current k v lru) (entries : after.entries = lru.entries) (tab : after.tab = lru.tab)
    (bucketCount : after.bucketCount = lru.bucketCount) : Current k v after := by
  intro n member entry found
  rw [bucket, tab, bucketCount] at member
  rw [entries] at found
  exact current n member entry found

theorem Current.same (current : Current k v lru) (same : Same lru after) : Current k v after :=
  current.congr same.entries same.tab same.bucketCount

/-- A lookup takes a node of the bucket. -/
theorem lookup_mem {n : Nat} (looked : lru.lookup k = some n) : n ∈ lru.bucket k := by
  unfold lookup at looked
  rw [bucket]
  cases nodes : lru.tab (lruHash k lru.bucketCount) with
  | nil =>
    rw [nodes] at looked
    cases looked
  | cons first rest =>
    rw [nodes, walk] at looked
    split at looked
    · obtain rfl := Option.some.inj looked
      exact List.mem_cons_self
    · exact List.mem_cons_of_mem first (List.mem_of_find?_eq_some looked)

/-- What is deleted is not cached any more. -/
theorem Current.drop (current : Current k v lru) (n : Nat) (index : Int) : Current k v (lru.dropped n index) := by
  intro m member entry found
  have still : m ∈ lru.bucket k := by
    by_cases own : lruHash k lru.bucketCount = index
    · subst own
      simp only [bucket, dropped, Function.update_self] at member
      exact List.mem_of_mem_erase member
    · simp only [bucket, dropped, Function.update_of_ne own] at member
      exact member
  rw [dropped_entries] at found
  by_cases gone : m = n
  · rw [gone, Function.update_self] at found
    cases found
  · rw [Function.update_of_ne gone] at found
    exact current m still entry found

theorem ageout_current (fuel : Nat) : Keeps (Current k v) (ageout fuel) :=
  ageout_keeps (fun same current => current.same same) (fun _ n index current => current.drop n index) fuel

/-- `_set` of any key, with what it does to the nodes that hold `k`. -/
theorem setElem_current
    (hit : ∀ n, lru.lookup k' = some n → ∀ m ∈ lru.bucket k, m ≠ n →
      ∀ entry ∈ lru.entries m, entry.HasKey k → entry.Holds k v)
    (own : ∀ n, lru.lookup k' = some n → ∀ entry ∈ lru.entries n, entry.HasKey k → v' = v)
    (miss : lru.lookup k' = none → Current k v lru ∧ lru.FreshHolds k' v' ∧ (k' = k → v' = v)) :
    wp (setElem k' v') (fun _ => Current k v) (fun _ _ => True) lru := by
  refine wp_bind (getNode_spec k' lru) ?_
  rintro found after ⟨same, rfl⟩
  cases looked : lru.lookup k' with
  | some n =>
    refine wp_bind_ok rfl (wp_bind (node_spec _ n).loosen ?_)
    rintro node _ ⟨held, rfl⟩
    have entry : lru.entries n = some node.entry := same.entries ▸ entries_of_heap held
    apply wp_of_ok (update_run _ _)
    intro m member written found key
    have inside : m ∈ lru.bucket k := by
      rw [bucket, ← same.tab, ← same.bucketCount]
      exact member
    rw [entries_update] at found
    by_cases here : m = n
    · subst here
      rw [Function.update_self, Option.mem_some_iff] at found
      subst found
      obtain rfl := own m looked node.entry entry key
      exact ⟨key, rfl, (Mem.slice_copy ..).trans (Buf.toList_ofList v')⟩
    · rw [Function.update_of_ne here] at found
      exact hit n looked m inside here written (congrFun same.entries m ▸ found) key
  | none =>
    obtain ⟨current, ⟨freshKey, freshValue⟩, renews⟩ := miss looked
    rw [← same.junk, ← same.allocs] at freshKey freshValue
    let made : KvLru := (initLruNode k' v' after).2
    -- What the nodes hold behind the new one, in whatever buckets they are.
    have holds (m : Nat) (inside : m ∈ lru.bucket k ∨ m = after.fresh) : ∀ entry ∈ made.entries m,
        entry.HasKey k → entry.Holds k v := by
      intro entry found key
      rw [show made.entries = Function.update after.entries after.fresh _ from
        entries_update { after with allocs := after.allocs + 1 + 1, fresh := after.fresh + 1 } _ _] at found
      by_cases here : m = after.fresh
      · rw [here, Function.update_self, Option.mem_some_iff] at found
        subst found
        let new : Entry := ⟨⟨k'.length, after.junk after.allocs⟩, k'.length, ⟨v'.length, after.junk (after.allocs + 1)⟩,
          v'.length⟩
        have value : new.Holds k' v' := ⟨⟨rfl, freshKey⟩, rfl, freshValue⟩
        obtain rfl : k' = k := value.key.2.symm.trans key.2
        obtain rfl := renews rfl
        exact value
      · rw [Function.update_of_ne here] at found
        exact current m (inside.resolve_right here) entry (congrFun same.entries m ▸ found) key
    refine wp_bind_ok rfl (wp_bind (lruInsert_same _ made (Same.refl made)).loosen fun _ linked kept => ?_)
    refine wp_bind (place_spec k' linked).loosen ?_
    rintro index _ ⟨rfl, rfl⟩
    apply wp_of_ok (update_run _ _)
    intro m member entry found key
    apply holds m _ entry (congrFun kept.entries m ▸ found) key
    have before : linked.tab = lru.tab := kept.tab.trans same.tab
    have count : linked.bucketCount = lru.bucketCount := kept.bucketCount.trans same.bucketCount
    simp only [bucket, before, count] at member ⊢
    by_cases there : lruHash k lru.bucketCount = lruHash k' lru.bucketCount
    · rw [there, Function.update_self, List.mem_append, List.mem_singleton] at member
      rwa [there]
    · rw [Function.update_of_ne there] at member
      exact .inl member

/-- A set of `k` that is not refused, with an exact lookup. -/
theorem setElem_renews (looksUp : lru.LooksUp k) (holds : lru.lookup k = none → lru.FreshHolds k v) :
    wp (setElem k v) (fun _ => Current k v) (fun _ _ => True) lru := by
  apply setElem_current
  · intro n looked m inside other entry found key
    have same := looksUp.2 m inside entry found key
    exact absurd (Option.some.inj (same.symm.trans looked)) other
  · exact fun _ _ _ _ _ => rfl
  · intro missed
    refine ⟨fun m inside entry found key => ?_, holds missed, fun _ => rfl⟩
    cases missed.symm.trans (looksUp.2 m inside entry found key)

/-- A set of another key with an exact lookup. -/
theorem setElem_other (current : Current k v lru) (other : k' ≠ k) (exact_ : lru.Exact k')
    (holds : lru.lookup k' = none → lru.FreshHolds k' v') :
    wp (setElem k' v') (fun _ => Current k v) (fun _ _ => True) lru := by
  apply setElem_current
  · exact fun _ _ m inside _ entry found key => current m inside entry found key
  · intro n looked entry found key
    exact absurd ((exact_ n looked entry found).2.symm.trans key.2) other
  · exact fun missed => ⟨current, holds missed, fun same => absurd same other⟩

theorem set_other (current : Current k v lru) (other : k' ≠ k) (exactly : (Call.set k' v').Exactly lru) :
    wp (KvLru.set k' v') (fun _ => Current k v) (fun _ _ => True) lru := by
  by_cases accepted : wrap 32 (k'.length + v'.length) ≤ lru.maxElemSize
  · obtain ⟨looksUp, holds⟩ := exactly accepted
    apply set_accepted_spec accepted (ageout_current _) current
    exact fun aged => setElem_other aged other looksUp.1 holds
  · exact wp_of_ok (set_refused accepted) current

/-- A get with an exact lookup hands out the current value. -/
theorem getElem_current (current : Current k v lru) (exact_ : lru.Exact k') :
    wp (getElem k') (fun hit after => Current k v after ∧
      (k' = k → ∀ got ∈ hit, got.1.toList = v ∧ got.2 = v.length)) (fun _ _ => True) lru := by
  refine wp_bind (getNode_spec k' lru) ?_
  rintro found after ⟨same, rfl⟩
  cases looked : lru.lookup k' with
  | none => exact wp_pure ⟨current.same same, fun _ _ none => nomatch none⟩
  | some n =>
    refine wp_bind (node_spec _ n).loosen ?_
    rintro node _ ⟨held, rfl⟩
    have entry : lru.entries n = some node.entry := same.entries ▸ entries_of_heap held
    refine wp_bind_ok rfl ?_
    split
    · exact trivial
    · refine wp_pure ⟨(current.same same).congr rfl rfl rfl, ?_⟩
      rintro rfl _ ⟨⟩
      have holds := current n (lookup_mem looked) node.entry entry (exact_ n looked node.entry entry)
      have vLen : node.vLen = v.length := holds.vLen
      have value : node.v.byte.slice 0 node.v.len = v := holds.value
      have size : node.v.len = v.length := by
        have len := congrArg List.length value
        rwa [Mem.slice_length] at len
      refine ⟨(Mem.slice_copy ..).trans ?_, vLen⟩
      rw [vLen, Int.toNat_natCast, ← size]
      exact value

end KvLru

variable {lru : KvLru} {calls : List Call} {k v : List UInt8}

open Cache.KvLru (Current)

/-- A call that does not set `k` leaves its value. -/
theorem Call.perform_current {call : Call} (current : Current k v lru) (exactly : call.Exactly lru)
    (other : ∀ v', call ≠ .set k v') : wp call.perform (fun _ => Current k v) (fun _ _ => True) lru := by
  cases call with
  | set k' v' =>
    have apart : k' ≠ k := fun same => other v' (same ▸ rfl)
    exact wp_bind (KvLru.set_other current apart exactly) fun _ _ kept => wp_pure kept
  | get k' =>
    apply (KvLru.getElem_current current exactly.1).mono
    · exact fun _ _ kept => kept.1
    · exact fun _ _ halts => halts

/-- Calls that do not set `k` leave its value, and each later call looks up exactly. -/
theorem run_current {rest : List Call} {later : KvLru} (current : Current k v lru) (others : ∀ v', .set k v' ∉ calls)
    (exactly : AllExactly (calls ++ rest) lru) (ran : run calls lru = (.ok (), later)) :
    Current k v later ∧ AllExactly rest later := by
  induction calls generalizing lru with
  | nil =>
    obtain rfl : lru = later := congrArg Prod.snd ran
    exact ⟨current, exactly⟩
  | cons call more ih =>
    obtain ⟨first, next⟩ := exactly
    obtain ⟨got, middle, performed, ran⟩ := bind_eq_ok ran
    rw [performed] at next
    have other (v' : List UInt8) : call ≠ .set k v' := fun same => others v' (same ▸ List.mem_cons_self)
    exact ih ((Call.perform_current current first other).ok performed)
      (fun v' member => others v' (List.mem_cons_of_mem call member)) (next rfl) ran

/-- Behind a set that leaves `k` with `v` only, no get finds anything else. -/
theorem noOlder_of_current (sets : AllExactly [.set k v] lru → wp (KvLru.set k v) (fun _ => Current k v) (fun _ _ => True) lru) :
    NoOlder lru k v := by
  intro calls others exactly later ran value vLen after hit
  obtain ⟨first, next⟩ := exactly
  obtain ⟨got, middle, performed, ran⟩ := bind_eq_ok ran
  rw [performed] at next
  obtain ⟨_, _, set, ⟨⟩⟩ := bind_eq_ok performed
  have current := (sets ⟨first, fun _ => trivial⟩).ok set
  obtain ⟨current, exactly⟩ := run_current current others (next rfl) ran
  exact ((KvLru.getElem_current current exactly.1.1).ok hit).2 rfl (value, vLen) rfl

namespace KvLru

variable {cached : List Cached} {c d : Cached}

/-- The key of a node in the list, from its entry. -/
theorem WellFormed.key_of_entry (formed : WellFormed cached lru) (member : d ∈ cached) {entry : Entry}
    (found : entry ∈ lru.entries d.addr) (key : entry.HasKey k) : d.k = k := by
  obtain ⟨same, found', holds⟩ := formed.listed.holds d member
  obtain rfl := Option.some.inj (found'.symm.trans found)
  exact holds.key.2.symm.trans key.2

/-- A lookup that finds the node of its key is exact. -/
theorem WellFormed.looksUp (formed : WellFormed cached lru) (finds : Finds cached lru k) : lru.LooksUp k := by
  obtain ⟨found, after, run, finds⟩ := finds
  obtain ⟨_, rfl⟩ := (getNode_spec k lru).ok run
  constructor
  · intro n looked entry there
    obtain ⟨c, member, rfl, own⟩ := (finds n).mp looked
    obtain ⟨same, there', holds⟩ := formed.listed.holds c member
    obtain rfl := Option.some.inj (there'.symm.trans there)
    exact own ▸ holds.key
  · intro n inside entry there key
    obtain ⟨c, member, rfl, _⟩ := (formed.bucketed.bucket _ n).mp inside
    exact (finds c.addr).mpr ⟨c, member, rfl, formed.key_of_entry member there key⟩

/-- What a get of a cached key hands out. -/
theorem WellFormed.get_cached (formed : WellFormed cached lru) (finds : Finds cached lru k) (member : c ∈ cached)
    (own : c.k = k) : ∃ value after, KvLru.get k lru = (.ok (some value), after) ∧ value.1.toList = c.v := by
  obtain ⟨found, after, run, finds⟩ := finds
  obtain rfl := (finds c.addr).mpr ⟨c, member, rfl, own⟩
  obtain ⟨_, hit, cached', _, looked⟩ := (formed.getNode k).ok run
  obtain ⟨value, same, copied⟩ := looked.formed.copy (looked.perm.mem_iff.mpr member)
  exact ⟨value, _, (bind_ok run).trans copied, same⟩

/-- The value of a cached key is the only one in its bucket. -/
theorem WellFormed.current (formed : WellFormed cached lru) (finds : Finds cached lru k) (member : c ∈ cached)
    (own : c.k = k) : Current k c.v lru := by
  obtain ⟨found, after, _, finds⟩ := finds
  intro n inside entry there key
  obtain ⟨d, member', rfl, _⟩ := (formed.bucketed.bucket _ n).mp inside
  have first := (finds c.addr).mpr ⟨c, member, rfl, own⟩
  have second := (finds d.addr).mpr ⟨d, member', rfl, formed.key_of_entry member' there key⟩
  obtain rfl := eq_of_addr formed.listed.distinct member member' (Option.some.inj (first.symm.trans second))
  obtain ⟨same, there', holds⟩ := formed.listed.holds c member
  obtain rfl := Option.some.inj (there'.symm.trans there)
  exact own ▸ holds

/-- A refused set of another value leaves the old one to the next get. -/
theorem WellFormed.older (formed : WellFormed cached lru) (finds : Finds cached lru k) (member : c ∈ cached)
    (own : c.k = k) (refused : ¬ wrap 32 (k.length + v.length) ≤ lru.maxElemSize) (noOlder : NoOlder lru k v) :
    c.v = v := by
  have set : (Call.set k v).perform lru = (.ok none, lru) := bind_ok (set_refused refused)
  obtain ⟨value, after, hit, same⟩ := formed.get_cached finds member own
  have exactly : AllExactly [.set k v, .get k] lru := by
    refine ⟨fun accepted => absurd accepted refused, fun _ => ?_⟩
    rw [set]
    exact ⟨formed.looksUp finds, fun _ => trivial⟩
  have ran : run [.set k v] lru = (.ok (), lru) := bind_ok set
  exact same.symm.trans (noOlder [] (fun _ none => nomatch none) exactly lru ran value.1 value.2 after hit).1

/-- Where a key is cached and found, no get behind a set of it hands out an older
value exactly if the set is not refused, or sets what was cached. -/
theorem noOlder_iff (cached : List Cached) (lru : KvLru) (k v : List UInt8) (c : Cached)
    (formed : WellFormed cached lru) (finds : Finds cached lru k) (member : c ∈ cached) (own : c.k = k) :
    NoOlder lru k v ↔ wrap 32 (k.length + v.length) ≤ lru.maxElemSize ∨ c.v = v := by
  by_cases accepted : wrap 32 (k.length + v.length) ≤ lru.maxElemSize
  · refine iff_of_true (noOlder_of_current fun exactly => ?_) (.inl accepted)
    obtain ⟨looksUp, holds⟩ := exactly.1 accepted
    have nothing : Keeps (fun _ => True) (KvLru.ageout (lru.fresh + 1)) := fun _ _ => wp_always
    exact set_accepted_spec accepted nothing trivial fun _ => setElem_renews looksUp holds
  · rw [or_iff_right accepted]
    constructor
    · exact formed.older finds member own accepted
    · rintro rfl
      exact noOlder_of_current fun _ => wp_of_ok (set_refused accepted) (formed.current finds member own)

/-- A lookup finds the only node by its key. -/
theorem single_finds_own (maxElemSize : Int) :
    Finds [⟨0, [97], [49]⟩] (single [97] [49] 100 maxElemSize fun _ _ => 0) [97] := by
  refine ⟨some 0, _, rfl, fun n => ?_⟩
  simp only [Option.some.injEq, List.mem_singleton, exists_eq_left, and_true]

theorem single_noOlder : NoOlder (single [97] [49] 100 50 fun _ _ => 0) [97] [50, 51] :=
  (noOlder_iff _ _ [97] [50, 51] ⟨0, [97], [49]⟩ (single_formed (by decide) ..) (single_finds_own 50)
    List.mem_cons_self rfl).mpr (.inl (by decide +kernel))

/-- A value over the limit is not cached, and the old one stays. -/
theorem refused_set_stays_older :
    KvLru.set [97] [50, 51] (single [97] [49] 100 2 fun _ _ => 0) = (.ok (), single [97] [49] 100 2 fun _ _ => 0) ∧
      ¬ NoOlder (single [97] [49] 100 2 fun _ _ => 0) [97] [50, 51] := by
  have refused : ¬ wrap 32 (([97] : List UInt8).length + ([50, 51] : List UInt8).length) ≤
      (single [97] [49] 100 2 fun _ _ => 0).maxElemSize := by decide +kernel
  have formed := single_formed (k := [97]) (v := [49]) (by decide) 100 2 fun _ _ => 0
  have member : (⟨0, [97], [49]⟩ : Cached) ∈ [(⟨0, [97], [49]⟩ : Cached)] := List.mem_cons_self
  refine ⟨set_refused refused, fun noOlder => ?_⟩
  have same : ([49] : List UInt8) = [50, 51] := formed.older (single_finds_own 2) member rfl refused noOlder
  cases same

end KvLru

end Cache

end Pingkv
