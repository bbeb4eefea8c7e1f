import Pingkv.Cache.Lru

/-! Where the values that hits of a `kv_lru` hand out come from. -/

namespace Pingkv

open Exec

namespace Cache

/-- A node without its links. -/
structure Entry where
  k : Buf
  kLen : Int
  v : Buf
  vLen : Int

def LruNode.entry (node : LruNode) : Entry := ⟨node.k, node.kLen, node.v, node.vLen⟩

namespace Entry

def HasKey (entry : Entry) (k : List UInt8) : Prop := entry.kLen = k.length ∧ entry.k.toList = k

instance (entry : Entry) (k : List UInt8) : Decidable (entry.HasKey k) := inferInstanceAs (Decidable (_ ∧ _))

/-- The key and the value of an entry, with their lengths. -/
structure Holds (entry : Entry) (k v : List UInt8) : Prop where
  key : entry.HasKey k
  vLen : entry.vLen = v.length
  value : entry.v.toList = v

/-- The bytes of the array for the key that `memcmp` compares agree with `k`. -/
def Starts (k : List UInt8) (entry : Entry) : Prop :=
  entry.kLen ≠ 0 ∧ k.length ≤ entry.k.len ∧ entry.k.byte.slice 0 k.length = k

instance (k : List UInt8) (entry : Entry) : Decidable (entry.Starts k) := inferInstanceAs (Decidable (_ ∧ _ ∧ _))

end Entry

namespace KvLru

def entries (lru : KvLru) (n : Nat) : Option Entry := (lru.heap n).map LruNode.entry

/-- The key of a node is not empty. -/
def Keyed (lru : KvLru) (n : Nat) : Prop := ∃ entry ∈ lru.entries n, entry.kLen ≠ 0

instance (lru : KvLru) (n : Nat) : Decidable (lru.Keyed n) :=
  inferInstanceAs (Decidable (∃ entry ∈ lru.entries n, entry.kLen ≠ 0))

/-- The node a lookup takes from a bucket: the first if its key starts with
`k`, else the next one whose key is not empty. -/
def walk (lru : KvLru) (k : List UInt8) : List Nat → Option Nat
  | [] => none
  | first :: rest =>
    if ∃ entry ∈ lru.entries first, entry.Starts k then some first else rest.find? fun n => decide (lru.Keyed n)

/-- The node that a lookup of `k` takes. -/
def lookup (lru : KvLru) (k : List UInt8) : Option Nat := lru.walk k (lru.tab (lruHash k lru.bucketCount))

/-- The node that a lookup of `k` takes, if it takes one, has this key. -/
def Exact (lru : KvLru) (k : List UInt8) : Prop :=
  ∀ n ∈ lru.lookup k, ∀ entry ∈ lru.entries n, entry.HasKey k

instance (lru : KvLru) (k : List UInt8) : Decidable (lru.Exact k) :=
  inferInstanceAs (Decidable (∀ n ∈ lru.lookup k, ∀ entry ∈ lru.entries n, entry.HasKey k))

/-- The memory that the next node gets holds `k` and `v` as it is. -/
def FreshHolds (lru : KvLru) (k v : List UInt8) : Prop :=
  (lru.junk lru.allocs).slice 0 k.length = k ∧ (lru.junk (lru.allocs + 1)).slice 0 v.length = v

instance (lru : KvLru) (k v : List UInt8) : Decidable (lru.FreshHolds k v) := inferInstanceAs (Decidable (_ ∧ _))

/-- The cache as a set looks it up, after `_ageout` where that runs. -/
def aged (lru : KvLru) : KvLru := if lru.size > lru.maxSize then (ageout (lru.fresh + 1) lru).2 else lru

/-- Only links and counts differ. -/
structure Same (before after : KvLru) : Prop where
  entries : after.entries = before.entries
  tab : after.tab = before.tab
  bucketCount : after.bucketCount = before.bucketCount
  fresh : after.fresh = before.fresh
  junk : after.junk = before.junk
  allocs : after.allocs = before.allocs

theorem Same.refl (lru : KvLru) : Same lru lru := ⟨rfl, rfl, rfl, rfl, rfl, rfl⟩

theorem entries_update (lru : KvLru) (n : Nat) (node : LruNode) :
    { lru with heap := Function.update lru.heap n (some node) }.entries =
      Function.update lru.entries n (some node.entry) := by
  funext place
  by_cases here : place = n
  · subst here
    simp only [entries, Function.update_self, Option.map_some]
  · simp only [entries, Function.update_of_ne here]

theorem entries_of_heap {lru : KvLru} {n : Nat} {node : LruNode} (held : lru.heap n = some node) :
    lru.entries n = some node.entry := by
  rw [entries, held, Option.map_some]

/-- The node is freed, and its address leaves its bucket. -/
def dropped (lru : KvLru) (n : Nat) (index : Int) : KvLru :=
  { lru with
    heap := Function.update lru.heap n none
    tab := Function.update lru.tab index ((lru.tab index).erase n) }

theorem dropped_entries (lru : KvLru) (n : Nat) (index : Int) :
    (lru.dropped n index).entries = Function.update lru.entries n none := by
  funext place
  by_cases here : place = n
  · subst here
    simp only [entries, dropped, Function.update_self, Option.map_none]
  · simp only [entries, dropped, Function.update_of_ne here]

theorem node_keeps {stays : KvLru → Prop} (n : Nat) : Keeps stays (node n) := by
  refine (keeps_read _).bind fun heap => ?_
  split
  · exact keeps_pure _
  · exact keeps_stop _

theorem node_spec (lru : KvLru) (n : Nat) :
    wp (node n) (fun got after => lru.heap n = some got ∧ lru = after) (fun _ after => lru = after) lru := by
  refine wp_bind_ok (read_run _ lru) ?_
  cases held : lru.heap n with
  | none => exact wp_of_error (fault_run lru) rfl
  | some got => exact wp_pure ⟨rfl, rfl⟩

section Links

variable {start : KvLru}

theorem modify_same {n : Nat} {change : LruNode → LruNode} (links : ∀ node, (change node).entry = node.entry) :
    Keeps (Same start) (modify n change) := by
  intro lru same
  refine wp_bind ((node_spec lru n).mono (fun _ _ holds => holds) fun _ _ unchanged => unchanged ▸ same) ?_
  rintro node _ ⟨held, rfl⟩
  apply wp_of_ok (update_run _ _)
  refine ⟨?_, same.tab, same.bucketCount, same.fresh, same.junk, same.allocs⟩
  rw [entries_update, links, ← same.entries]
  exact Function.update_eq_self_iff.mpr (entries_of_heap held).symm

theorem modifyIf_same {n : Option Nat} {change : LruNode → LruNode} (links : ∀ node, (change node).entry = node.entry) :
    Keeps (Same start) (modifyIf n change) := by
  cases n with
  | none => exact keeps_pure _
  | some n => exact modify_same links

theorem update_same {change : KvLru → KvLru} (links : ∀ lru, Same lru (change lru)) :
    Keeps (Same start) (update change) := by
  intro lru same
  have later := links lru
  exact wp_of_ok (update_run _ _) ⟨later.entries.trans same.entries, later.tab.trans same.tab,
    later.bucketCount.trans same.bucketCount, later.fresh.trans same.fresh, later.junk.trans same.junk,
    later.allocs.trans same.allocs⟩

theorem lruInsert_same (n : Nat) : Keeps (Same start) (lruInsert n) := by
  refine (keeps_read _).bind fun hot => ?_
  refine Keeps.bind (modifyIf_same (by exact fun _ => rfl)) fun _ => ?_
  refine Keeps.bind (modify_same (by exact fun _ => rfl)) fun _ => (node_keeps n).bind fun inserted => ?_
  exact update_same (by exact fun _ => ⟨rfl, rfl, rfl, rfl, rfl, rfl⟩)

theorem lruDel_same (n : Nat) : Keeps (Same start) (lruDel n) := by
  refine (node_keeps n).bind fun gone => ?_
  refine Keeps.bind (update_same (by exact fun _ => ⟨rfl, rfl, rfl, rfl, rfl, rfl⟩)) fun _ => ?_
  refine Keeps.bind (modifyIf_same (by exact fun _ => rfl)) fun _ => ?_
  refine Keeps.bind (modifyIf_same (by exact fun _ => rfl)) fun _ => ?_
  refine Keeps.bind (modify_same (by exact fun _ => rfl)) fun _ => ?_
  exact update_same (by exact fun _ => ⟨rfl, rfl, rfl, rfl, rfl, rfl⟩)

end Links

theorem memcmp_spec (bytes : List UInt8) (buf : Buf) (lru : KvLru) :
    wp (memcmp bytes buf)
      (fun equal after => lru = after ∧ (equal = true ↔ bytes.length ≤ buf.len ∧ buf.byte.slice 0 bytes.length = bytes))
      (fun _ _ => True) lru := by
  simp only [memcmp]
  split
  · rename_i differ
    refine wp_pure ⟨rfl, iff_of_false Bool.false_ne_true fun ⟨inside, agree⟩ => differ ?_⟩
    rw [Nat.min_eq_left inside, agree, List.take_length]
  · rename_i agree
    split
    · exact trivial
    · rename_i inside
      have inside := Nat.le_of_not_lt inside
      rw [Nat.min_eq_left inside, List.take_length, not_not] at agree
      exact wp_pure ⟨rfl, iff_of_true rfl ⟨inside, agree.symm⟩⟩

theorem matchKey_spec (bytes : List UInt8) (ln : LruNode) (lru : KvLru) :
    wp (matchKey bytes ln) (fun matched after => lru = after ∧ (matched = true ↔ ln.entry.Starts bytes))
      (fun _ _ => True) lru := by
  unfold matchKey
  split
  · rename_i keyed
    apply (memcmp_spec bytes ln.k lru).mono _ fun _ _ halts => halts
    rintro matched after ⟨unchanged, agrees⟩
    exact ⟨unchanged, agrees.trans (and_iff_right keyed).symm⟩
  · rename_i empty
    exact wp_pure ⟨rfl, iff_of_false Bool.false_ne_true fun starts => empty starts.1⟩

/-- The end of a lookup that has found its node. -/
theorem found_spec {start lru : KvLru} (same : Same start lru) (n : Nat) :
    wp (do
        lruDel n
        lruInsert n
        pure (some n))
      (fun found after => Same start after ∧ found = some n) (fun _ _ => True) lru := by
  refine wp_bind (lruDel_same n lru same).loosen fun _ _ same => ?_
  refine wp_bind (lruInsert_same n _ same).loosen fun _ _ same => ?_
  exact wp_pure ⟨same, rfl⟩

/-- One turn of the loop: the node matches, or the lookup goes on with `k_len` 0. -/
theorem find_step {start lru : KvLru} {k : List UInt8} {kLen : Int} {n : Nat} {rest : List Nat} (same : Same start lru)
    {post : Option Nat → KvLru → Prop}
    (hit : (∃ entry ∈ start.entries n, entry.Starts (k.take kLen.toNat)) →
      ∀ after, Same start after → post (some n) after)
    (miss : ¬ (∃ entry ∈ start.entries n, entry.Starts (k.take kLen.toNat)) →
      wp (find k 0 rest) post (fun _ _ => True) lru) :
    wp (find k kLen (n :: rest)) post (fun _ _ => True) lru := by
  refine wp_bind (node_spec lru n).loosen ?_
  rintro ln _ ⟨held, rfl⟩
  have entry : start.entries n = some ln.entry := same.entries ▸ entries_of_heap held
  rw [entry] at hit miss
  refine wp_bind (matchKey_spec _ ln lru) ?_
  rintro matched _ ⟨rfl, agrees⟩
  cases matched with
  | true =>
    apply (found_spec same n).mono
    · rintro _ after ⟨same, rfl⟩
      exact hit ⟨ln.entry, rfl, agrees.mp rfl⟩ after same
    · exact fun _ _ _ => trivial
  | false =>
    apply miss
    rintro ⟨_, ⟨⟩, starts⟩
    exact Bool.false_ne_true (agrees.mpr starts)

/-- With `k_len` 0 any node with a key that is not empty matches. -/
theorem find_zero {start : KvLru} (k : List UInt8) (ns : List Nat) {lru : KvLru} (same : Same start lru) :
    wp (find k 0 ns)
      (fun found after => Same start after ∧
        found = ns.find? fun n => decide (start.Keyed n)) (fun _ _ => True) lru := by
  have anything (n : Nat) : (∃ entry ∈ start.entries n, entry.Starts (k.take (Int.toNat 0))) ↔ start.Keyed n := by
    simp only [Keyed, Entry.Starts, Int.toNat_zero, List.take_zero, List.length_nil, Nat.zero_le, Mem.slice_zero, and_self,
      and_true]
  induction ns generalizing lru with
  | nil => exact wp_pure ⟨same, rfl⟩
  | cons n rest ih =>
    apply find_step same
    · intro keyed after same
      rw [List.find?_cons_of_pos (by exact decide_eq_true ((anything n).mp keyed))]
      exact ⟨same, rfl⟩
    · intro empty
      rw [List.find?_cons_of_neg (by simpa only [decide_eq_true_eq] using (anything n).not.mp empty)]
      exact ih same

theorem find_spec {start : KvLru} (k : List UInt8) (ns : List Nat) :
    wp (find k k.length ns) (fun found after => Same start after ∧ found = start.walk k ns) (fun _ _ => True) start := by
  cases ns with
  | nil => exact wp_pure ⟨Same.refl start, rfl⟩
  | cons n rest =>
    have whole : k.take (k.length : Int).toNat = k := List.take_length
    apply find_step (Same.refl start)
    · intro starts after same
      rw [whole] at starts
      rw [walk, if_pos starts]
      exact ⟨same, rfl⟩
    · intro differs
      rw [whole] at differs
      rw [walk, if_neg differs]
      exact find_zero k rest (Same.refl start)

theorem place_spec (data : List UInt8) (lru : KvLru) :
    wp (place data) (fun index after => index = lruHash data lru.bucketCount ∧ lru = after) (fun _ _ => True) lru := by
  refine wp_bind_ok (read_run _ lru) ?_
  simp only
  split
  · exact wp_pure ⟨rfl, rfl⟩
  · exact trivial

theorem getNode_spec (k : List UInt8) (lru : KvLru) :
    wp (getNode k) (fun found after => Same lru after ∧ found = lru.lookup k) (fun _ _ => True) lru := by
  refine wp_bind (place_spec k lru) ?_
  rintro index _ ⟨rfl, rfl⟩
  exact wp_bind_ok (read_run _ _) (find_spec k _)

/-- Every node holds a key and a value that were set together. -/
def Genuine (calls : List Call) (lru : KvLru) : Prop :=
  ∀ n, ∀ entry ∈ lru.entries n, ∃ k v, .set k v ∈ calls ∧ entry.Holds k v

variable {lru after : KvLru} {calls : List Call} {k v : List UInt8}

theorem Genuine.same (genuine : Genuine calls lru) (same : after.entries = lru.entries) : Genuine calls after := by
  intro n entry member
  rw [same] at member
  exact genuine n entry member

theorem Genuine.mono {more : List Call} (genuine : Genuine calls lru) (sub : calls ⊆ more) : Genuine more lru := by
  intro n entry member
  obtain ⟨k, v, earlier, holds⟩ := genuine n entry member
  exact ⟨k, v, sub earlier, holds⟩

/-- A node that comes to hold a key and a value set now. -/
theorem Genuine.put (genuine : Genuine calls lru) {n : Nat} {node : LruNode} (holds : node.entry.Holds k v) :
    Genuine (calls ++ [.set k v]) { lru with heap := Function.update lru.heap n (some node) } := by
  intro place entry member
  rw [entries_update] at member
  by_cases here : place = n
  · subst here
    rw [Function.update_self, Option.mem_some_iff] at member
    exact ⟨k, v, List.mem_append_right _ (List.mem_singleton.mpr rfl), member ▸ holds⟩
  · rw [Function.update_of_ne here] at member
    exact genuine.mono (List.subset_append_left ..) place entry member

theorem Genuine.dropped (genuine : Genuine calls lru) (n : Nat) (index : Int) : Genuine calls (lru.dropped n index) := by
  intro place entry member
  rw [dropped_entries] at member
  by_cases here : place = n
  · rw [here, Function.update_self] at member
    cases member
  · rw [Function.update_of_ne here] at member
    exact genuine place entry member

theorem place_keeps {stays : KvLru → Prop} (data : List UInt8) : Keeps stays (place data) := by
  refine (keeps_read _).bind fun bucketCount => ?_
  exact keeps_ite (keeps_pure _) (keeps_stop _)

section Ageout

variable {stays : KvLru → Prop} (steady : ∀ {before after}, Same before after → stays before → stays after)
  (drops : ∀ before n index, stays before → stays (before.dropped n index))

include steady drops

/-- What does not depend on links and counts stays in `_del` if it stays where a
node is dropped. -/
theorem del_keeps (n : Option Nat) : Keeps stays (del n) := by
  cases n with
  | none => exact keeps_stop _
  | some n =>
    have unlinked : Keeps stays (lruDel n) := fun before kept =>
      (lruDel_same n before (Same.refl before)).mono (fun _ _ same => steady same kept) fun _ _ same => steady same kept
    refine unlinked.bind fun _ => (node_keeps n).bind fun gone => (place_keeps _).bind fun index => ?_
    refine (keeps_read _).bind fun tab => keeps_ite (keeps_update fun before kept => ?_) (keeps_pure _)
    exact drops before n index kept

theorem ageout_keeps (fuel : Nat) : Keeps stays (ageout fuel) := by
  induction fuel with
  | zero => exact keeps_stop _
  | succ fuel ih =>
    exact (keeps_read _).bind fun before => keeps_ite ((del_keeps steady drops before.cold).bind fun _ => ih) (keeps_pure _)

end Ageout

theorem ageout_genuine (fuel : Nat) : Keeps (Genuine calls) (ageout fuel) :=
  ageout_keeps (fun same genuine => genuine.same same.entries) (fun _ n index genuine => genuine.dropped n index) fuel

theorem setElem_genuine (genuine : Genuine calls lru) (exact_ : lru.Exact k)
    (holds : lru.lookup k = none → lru.FreshHolds k v) :
    wp (setElem k v) (fun _ => Genuine (calls ++ [.set k v])) (fun _ _ => True) lru := by
  refine wp_bind (getNode_spec k lru) ?_
  rintro found after ⟨same, rfl⟩
  cases looked : lru.lookup k with
  | some n =>
    refine wp_bind_ok rfl (wp_bind (node_spec _ n).loosen ?_)
    rintro node _ ⟨held, rfl⟩
    have entry : lru.entries n = some node.entry := same.entries ▸ entries_of_heap held
    apply wp_of_ok (update_run _ _)
    have kept : Genuine calls { after with allocs := after.allocs + 1 } := genuine.same same.entries
    apply kept.put
    refine ⟨exact_ n looked node.entry entry, rfl, ?_⟩
    exact (Mem.slice_copy ..).trans (Buf.toList_ofList v)
  | none =>
    obtain ⟨key, value⟩ := holds looked
    rw [← same.junk, ← same.allocs] at key value
    have made : Genuine (calls ++ [.set k v]) (initLruNode k v after).2 := by
      have kept : Genuine calls { after with allocs := after.allocs + 1 + 1, fresh := after.fresh + 1 } :=
        genuine.same same.entries
      exact kept.put ⟨⟨rfl, key⟩, rfl, value⟩
    refine wp_bind_ok rfl ?_
    refine wp_bind ((lruInsert_same _ _ (Same.refl _)).loosen.mono (fun _ _ same => made.same same.entries)
      fun _ _ halts => halts) fun _ _ made => ?_
    refine wp_bind ((place_keeps k _ made).loosen) fun index _ made => ?_
    exact wp_of_ok (update_run _ _) made

theorem getElem_genuine (genuine : Genuine calls lru) (exact_ : lru.Exact k) :
    wp (getElem k)
      (fun hit after => Genuine calls after ∧
        ∀ found ∈ hit, ∃ v, .set k v ∈ calls ∧ found.1.toList = v ∧ found.2 = v.length) (fun _ _ => True) lru := by
  refine wp_bind (getNode_spec k lru) ?_
  rintro found after ⟨same, rfl⟩
  cases looked : lru.lookup k with
  | none => exact wp_pure ⟨genuine.same same.entries, fun _ none => nomatch none⟩
  | some n =>
    refine wp_bind (node_spec _ n).loosen ?_
    rintro node _ ⟨held, rfl⟩
    have entry : lru.entries n = some node.entry := same.entries ▸ entries_of_heap held
    obtain ⟨key, v, earlier, holds⟩ := genuine n node.entry entry
    have same_key : k = key := (exact_ n looked node.entry entry).2.symm.trans holds.key.2
    have size : node.vLen.toNat = node.v.len := by
      have len := congrArg List.length holds.value
      rw [Buf.toList_length] at len
      exact (congrArg Int.toNat holds.vLen).trans ((Int.toNat_natCast _).trans len.symm)
    refine wp_bind_ok rfl ?_
    rw [size, if_neg (Nat.lt_irrefl _)]
    refine wp_pure ⟨genuine.same same.entries, ?_⟩
    rintro _ ⟨⟩
    refine ⟨v, same_key ▸ earlier, ?_, holds.vLen⟩
    exact (Mem.slice_copy ..).trans holds.value

theorem set_refused (refused : ¬ wrap 32 (k.length + v.length) ≤ lru.maxElemSize) : set k v lru = (.ok (), lru) := by
  refine (bind_ok (read_run _ lru)).trans ?_
  simp only [id]
  rw [if_neg refused, pure_run]

theorem set_accepted (accepted : wrap 32 (k.length + v.length) ≤ lru.maxElemSize) :
    set k v lru = (do
      if lru.size > lru.maxSize then ageout (lru.fresh + 1)
      setElem k v) lru := by
  refine (bind_ok (read_run _ lru)).trans ?_
  simp only [id]
  rw [if_pos accepted]

/-- A set that is not refused, by what `_ageout` keeps and what `_set` then does. -/
theorem set_accepted_spec {kept : KvLru → Prop} {post : Unit → KvLru → Prop}
    (accepted : wrap 32 (k.length + v.length) ≤ lru.maxElemSize) (ages : Keeps kept (ageout (lru.fresh + 1)))
    (holds : kept lru) (sets : kept lru.aged → wp (setElem k v) post (fun _ _ => True) lru.aged) :
    wp (set k v) post (fun _ _ => True) lru := by
  refine wp.congr ?_ (set_accepted accepted)
  unfold aged at sets
  by_cases full : lru.size > lru.maxSize
  · simp only [full, if_true] at sets ⊢
    rcases (ages lru holds).cases with ⟨_, after, run, left⟩ | ⟨_, after, run, _⟩
    · rw [run] at sets
      exact wp_bind_ok run (sets left)
    · exact wp_of_error (bind_error run) trivial
  · simp only [full, if_false] at sets ⊢
    exact sets holds

/-- A set whose lookup is exact keeps every node genuine. -/
theorem set_genuine (genuine : Genuine calls lru)
    (sound : wrap 32 (k.length + v.length) ≤ lru.maxElemSize →
      lru.aged.Exact k ∧ (lru.aged.lookup k = none → lru.aged.FreshHolds k v)) :
    wp (set k v) (fun _ => Genuine (calls ++ [.set k v])) (fun _ _ => True) lru := by
  by_cases accepted : wrap 32 (k.length + v.length) ≤ lru.maxElemSize
  · obtain ⟨exact_, holds⟩ := sound accepted
    apply set_accepted_spec accepted (ageout_genuine _) genuine
    exact fun aged => setElem_genuine aged exact_ holds
  · exact wp_of_ok (set_refused accepted) (genuine.mono (List.subset_append_left ..))

end KvLru

/-- The lookup of a call takes the node of its key if it takes one, and where a
set takes none the memory of the node it makes holds the key and the value. -/
def Call.Sound (lru : KvLru) : Call → Prop
  | .set k v => wrap 32 (k.length + v.length) ≤ lru.maxElemSize →
      lru.aged.Exact k ∧ (lru.aged.lookup k = none → lru.aged.FreshHolds k v)
  | .get k => lru.Exact k

instance (lru : KvLru) : (call : Call) → Decidable (call.Sound lru)
  | .set _ _ => inferInstanceAs (Decidable (_ → _ ∧ (_ → _)))
  | .get _ => inferInstanceAs (Decidable (KvLru.Exact _ _))

/-- Every call of a run is sound in the cache it starts from. -/
def AllSound : List Call → KvLru → Prop
  | [], _ => True
  | call :: rest, lru => call.Sound lru ∧ ((call.perform lru).1.isOk → AllSound rest (call.perform lru).2)

instance AllSound.decidable : (calls : List Call) → (lru : KvLru) → Decidable (AllSound calls lru)
  | [], _ => isTrue trivial
  | call :: rest, lru =>
    have := AllSound.decidable rest (call.perform lru).2
    inferInstanceAs (Decidable (_ ∧ (_ → _)))

/-- Each hit of a run hands out a value that an earlier call set under its key. -/
def Provenance (calls : List Call) (start : KvLru) : Prop :=
  ∀ before k rest, calls = before ++ .get k :: rest → ∀ lru, run before start = (.ok (), lru) →
    ∀ v vLen after, KvLru.get k lru = (.ok (some (v, vLen)), after) →
      .set k v.toList ∈ before ∧ vLen = v.toList.length

open Cache.KvLru (Genuine)

theorem Call.perform_genuine {call : Call} {calls : List Call} {lru : KvLru} (genuine : Genuine calls lru)
    (sound : call.Sound lru) : wp call.perform (fun _ => Genuine (calls ++ [call])) (fun _ _ => True) lru := by
  cases call with
  | set k v => exact wp_bind (KvLru.set_genuine genuine sound) fun _ _ kept => wp_pure kept
  | get k =>
    apply (KvLru.getElem_genuine genuine sound).mono _ fun _ _ halts => halts
    exact fun _ _ kept => kept.1.mono (List.subset_append_left ..)

/-- Sound calls keep every node genuine, and with them each later call is sound. -/
theorem run_genuine {rest : List Call} (calls : List Call) {earlier : List Call} {start lru : KvLru}
    (genuine : Genuine earlier start) (sound : AllSound (calls ++ rest) start) (ran : run calls start = (.ok (), lru)) :
    Genuine (earlier ++ calls) lru ∧ AllSound rest lru := by
  induction calls generalizing earlier start with
  | nil =>
    obtain rfl : start = lru := congrArg Prod.snd ran
    rw [List.append_nil]
    exact ⟨genuine, sound⟩
  | cons call later ih =>
    obtain ⟨first, more⟩ := sound
    obtain ⟨got, middle, performed, ran⟩ := bind_eq_ok ran
    rw [performed] at more
    have kept := (Call.perform_genuine genuine first).ok performed
    have whole := ih kept (more rfl) ran
    rwa [List.append_assoc, List.singleton_append] at whole

/-- From a cache just set up, hits hand out what was set under their key as
long as each call is sound. -/
theorem provenance_of_sound (bucketCount maxSize maxElemSize : Int) (junk : Nat → Mem) (calls : List Call)
    (sound : AllSound calls (.init bucketCount maxSize maxElemSize junk)) :
    Provenance calls (.init bucketCount maxSize maxElemSize junk) := by
  rintro before k rest rfl lru ran v vLen after hit
  have empty : Genuine [] (.init bucketCount maxSize maxElemSize junk) := fun _ _ none => nomatch none
  obtain ⟨genuine, sound⟩ := run_genuine before empty sound ran
  obtain ⟨_, stored⟩ := (KvLru.getElem_genuine genuine sound.1).ok hit
  obtain ⟨_, earlier, rfl, len⟩ := stored (v, vLen) rfl
  exact ⟨earlier, len⟩

/-- Two sets and two gets of a key that the fresh memory happens to hold. -/
theorem provenance_lucky : Provenance [.set [97] [97], .get [97], .set [97] [7, 8], .get [97]]
    (.init 4 100 50 fun _ _ => 97) :=
  provenance_of_sound 4 100 50 (fun _ _ => 97) _ (by decide +kernel)

/-- A get hits the bytes that were in the memory of a new node; and where keys
and values were copied, a get of a third key hits the second node of its bucket. -/
theorem fresh_bytes_hit :
    (∃ v after, KvLru.get [98] (run [.set [97] [49]] (.init 1 100 50 fun _ _ => 98)).2 = (.ok (some (v, 1)), after) ∧
      v.toList = [98]) ∧
    ¬ Provenance [.set [97] [49], .get [98]] (.init 1 100 50 fun _ _ => 98) ∧
    ∃ v after, KvLru.get [99] (run [.set [97] [49], .set [98] [50]]
      (.init 1 100 50 fun alloc _ => [97, 49, 98, 50].getD alloc 0)).2 = (.ok (some (v, 1)), after) ∧ v.toList = [50] := by
  refine ⟨⟨_, _, rfl, by decide +kernel⟩, fun provenance => ?_, ⟨_, _, rfl, by decide +kernel⟩⟩
  have stored := (provenance [.set [97] [49]] [98] [] rfl _ rfl _ _ _ rfl).1
  rcases List.mem_singleton.mp stored with ⟨⟩

end Cache

end Pingkv
