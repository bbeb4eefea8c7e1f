import Pingkv.Cache.Layout

/-! What `kv_lru::_get` finds in the bucket of a key. -/

namespace Pingkv

open Exec LinkedList

namespace Cache

/-- What the loop of `_get` makes of a bucket: the first node if its key starts
with `k`, an access behind the key of the first node where it ends before `k`
does, and else the next node with a key that is not empty. -/
def search (k : List UInt8) : List Cached → Except Exec.Stop (Option Cached)
  | [] => .ok none
  | first :: rest =>
    if first.k ≠ [] ∧ k <+: first.k then .ok (some first)
    else if first.k ≠ [] ∧ first.k <+: k then .error .fault
    else .ok (rest.find? fun c => c.k ≠ [])

/-- A search for `k` among the keys of its bucket finds `k`, or there is none:
`k` comes first, or the first key is empty or neither of the two starts with the
other, and the next key that is not empty is `k`. -/
def Clear (k : List UInt8) : List (List UInt8) → Prop
  | [] => True
  | first :: rest => k ≠ [] ∧ (first = k ∨ ((first = [] ∨ (¬ first <+: k ∧ ¬ k <+: first)) ∧
      ∀ later ∈ rest.find? fun key => key ≠ [], later = k))

instance (k : List UInt8) : (keys : List (List UInt8)) → Decidable (Clear k keys)
  | [] => inferInstanceAs (Decidable True)
  | first :: rest => inferInstanceAs (Decidable (k ≠ [] ∧ (first = k ∨ ((first = [] ∨
      (¬ first <+: k ∧ ¬ k <+: first)) ∧ ∀ later ∈ rest.find? fun key => key ≠ [], later = k))))

/-- The nodes of the bucket of a key, as they were set. -/
def bucketOf (lru : KvLru) (k : List UInt8) (cached : List Cached) : List Cached :=
  (lru.tab (KvLru.lruHash k lru.bucketCount)).filterMap fun n => cached.find? fun c => c.addr = n

theorem find?_key (k : List UInt8) (bucket : List Cached) :
    (∀ c ∈ bucket.find? (fun c => c.k ≠ []), c.k = k) ↔
      ∀ later ∈ (bucket.map Cached.k).find? (fun key => key ≠ []), later = k := by
  rw [List.find?_map]
  simp only [Option.mem_def, Option.map_eq_some_iff, Function.comp_def]
  constructor
  · rintro right _ ⟨c, found, rfl⟩
    exact right c found
  · exact fun right c found => right c.k ⟨c, found, rfl⟩

section Search

variable {k : List UInt8} {first : Cached} {rest bucket : List Cached}

theorem search_first (keyed : first.k ≠ []) (starts : k <+: first.k) :
    search k (first :: rest) = .ok (some first) := if_pos ⟨keyed, starts⟩

theorem search_over (keyed : first.k ≠ []) (differs : ¬ k <+: first.k) (ends : first.k <+: k) :
    search k (first :: rest) = .error .fault :=
  (if_neg fun matched => differs matched.2).trans (if_pos ⟨keyed, ends⟩)

theorem search_rest (differs : first.k = [] ∨ ¬ first.k <+: k ∧ ¬ k <+: first.k) :
    search k (first :: rest) = .ok (rest.find? fun c => c.k ≠ []) := by
  rcases differs with empty | differs
  · exact (if_neg fun matched => matched.1 empty).trans (if_neg fun matched => matched.1 empty)
  · exact (if_neg fun matched => differs.2 matched.2).trans (if_neg fun matched => differs.1 matched.2)

/-- What the first node of a bucket is for a search. -/
theorem search_cases (k : List UInt8) (first : Cached) : (first.k ≠ [] ∧ k <+: first.k) ∨
    (first.k ≠ [] ∧ ¬ k <+: first.k ∧ first.k <+: k) ∨ (first.k = [] ∨ ¬ first.k <+: k ∧ ¬ k <+: first.k) := by
  by_cases empty : first.k = []
  · exact .inr (.inr (.inl empty))
  · by_cases starts : k <+: first.k
    · exact .inl ⟨empty, starts⟩
    · by_cases ends : first.k <+: k
      · exact .inr (.inl ⟨empty, starts, ends⟩)
      · exact .inr (.inr (.inr ⟨ends, starts⟩))

/-- The node a search hands out, if any, has the key, and else no node has it. -/
def Right (k : List UInt8) (bucket : List Cached) (hit : Option Cached) : Prop :=
  (∀ c ∈ hit, c.k = k) ∧ (hit = none → ∀ c ∈ bucket, c.k ≠ k)

/-- Behind a first node that does not match, the next key that is not empty has
to be the right one. -/
theorem right_rest (differs : first.k = [] ∨ ¬ first.k <+: k ∧ ¬ k <+: first.k) :
    Right k (first :: rest) (rest.find? fun c => c.k ≠ []) ↔
      k ≠ [] ∧ ∀ c ∈ rest.find? (fun c => c.k ≠ []), c.k = k := by
  constructor
  · rintro ⟨right, absent⟩
    refine ⟨?_, right⟩
    rintro rfl
    have empty : first.k = [] := differs.resolve_right fun neither => neither.2 List.nil_prefix
    cases found : rest.find? fun c => c.k ≠ [] with
    | none => exact absent found first List.mem_cons_self empty
    | some later =>
      have keyed := List.find?_some found
      exact of_decide_eq_true keyed (right later found)
  · rintro ⟨keyed, right⟩
    refine ⟨right, fun none c member same => ?_⟩
    rcases List.mem_cons.mp member with rfl | later
    · rcases differs with empty | differs
      · exact keyed (same.symm.trans empty)
      · exact differs.1 (same ▸ List.prefix_rfl)
    · have empty := List.find?_eq_none.mp none c later
      simp only [same, decide_eq_true_eq, not_not] at empty
      exact keyed empty

/-- A search is right exactly where the bucket is clear for its key. -/
theorem search_right_iff (k : List UInt8) (bucket : List Cached) :
    (∃ hit, search k bucket = .ok hit ∧ Right k bucket hit) ↔ Clear k (bucket.map Cached.k) := by
  cases bucket with
  | nil => exact iff_of_true ⟨none, rfl, fun _ none => (nomatch none), fun _ _ none => (nomatch none)⟩ trivial
  | cons first rest =>
    rw [List.map_cons, Clear, ← find?_key]
    rcases search_cases k first with ⟨keyed, starts⟩ | ⟨keyed, differs, ends⟩ | differs
    · rw [search_first keyed starts]
      constructor
      · rintro ⟨_, ⟨⟩, right, _⟩
        have same := right first rfl
        exact ⟨same ▸ keyed, .inl same⟩
      · rintro ⟨_, same | ⟨empty | neither, _⟩⟩
        · exact ⟨some first, rfl, fun _ here => Option.some.inj here ▸ same, fun none => (nomatch none)⟩
        · exact absurd empty keyed
        · exact absurd starts neither.2
    · rw [search_over keyed differs ends]
      constructor
      · rintro ⟨_, ⟨⟩, _⟩
      · rintro ⟨_, same | ⟨empty | neither, _⟩⟩
        · exact absurd (same ▸ List.prefix_rfl) differs
        · exact absurd empty keyed
        · exact absurd ends neither.1
    · rw [search_rest differs]
      constructor
      · rintro ⟨_, ⟨⟩, right⟩
        obtain ⟨keyed, right⟩ := (right_rest differs).mp right
        exact ⟨keyed, .inr ⟨differs, right⟩⟩
      · rintro ⟨keyed, same | ⟨_, right⟩⟩
        · rcases differs with empty | differs
          · exact absurd (same.symm.trans empty) keyed
          · exact absurd (same ▸ List.prefix_rfl) differs.1
        · exact ⟨_, rfl, (right_rest differs).mpr ⟨keyed, right⟩⟩

end Search

namespace KvLru

variable {lru after : KvLru} {cached bucket : List Cached} {c : Cached} {k : List UInt8} {node : LruNode}

/-- `memcmp` by which of the two texts starts with the other. -/
theorem memcmp_run (bytes : List UInt8) (buf : Buf) (lru : KvLru) :
    memcmp bytes buf lru = if bytes <+: buf.toList then (.ok true, lru)
      else if buf.toList <+: bytes then (.error .fault, lru) else (.ok false, lru) := by
  have part (len : Nat) (inside : len ≤ buf.len) : buf.byte.slice 0 len = buf.toList.take len := by
    rw [Buf.toList, show buf.len = len + (buf.len - len) by omega, Mem.slice_append,
      List.take_left' (Mem.slice_length ..)]
  have size : buf.toList.length = buf.len := Buf.toList_length buf
  simp only [memcmp]
  rw [part _ (Nat.min_le_right ..)]
  rcases Nat.le_total bytes.length buf.len with short | long
  · rw [Nat.min_eq_left short, List.take_length]
    by_cases starts : bytes <+: buf.toList
    · rw [if_pos starts, if_neg (not_not.mpr (List.prefix_iff_eq_take.mp starts)), if_neg (Nat.not_lt.mpr short)]
      rfl
    · have past : ¬ buf.toList <+: bytes := by
        intro past
        have same := past.eq_of_length_le (by omega)
        exact starts (same ▸ List.prefix_rfl)
      rw [if_neg starts, if_neg past, if_pos fun same => starts (List.prefix_iff_eq_take.mpr same)]
      rfl
  · rw [Nat.min_eq_right long, ← size, List.take_length]
    by_cases past : buf.toList <+: bytes
    · have same := (List.prefix_iff_eq_take.mp past).symm
      rw [if_neg (not_not.mpr same), if_pos past]
      by_cases starts : bytes <+: buf.toList
      · rw [if_pos starts, if_neg (Nat.not_lt.mpr starts.length_le)]
        rfl
      · rw [if_neg starts, if_pos]
        · rfl
        · by_contra whole
          have same := past.eq_of_length_le (Nat.not_lt.mp whole)
          exact starts (same ▸ List.prefix_rfl)
    · have differs : ¬ bytes <+: buf.toList := by
        intro starts
        have same := starts.eq_of_length_le (by omega)
        exact past (same ▸ List.prefix_rfl)
      rw [if_neg differs, if_neg past, if_pos fun same => past (List.prefix_iff_eq_take.mpr same.symm)]
      rfl

/-- The node of a bucket that the test of `_get` meets. -/
theorem matchKey_run (holds : node.entry.Holds c.k c.v) (bytes : List UInt8) (lru : KvLru) :
    matchKey bytes node lru = if c.k ≠ [] ∧ bytes <+: c.k then (.ok true, lru)
      else if c.k ≠ [] ∧ c.k <+: bytes then (.error .fault, lru) else (.ok false, lru) := by
  have kLen : node.kLen = c.k.length := holds.key.1
  have key : node.k.toList = c.k := holds.key.2
  rw [matchKey, kLen]
  by_cases empty : c.k = []
  · simp only [empty, List.length_nil, Int.natCast_zero, ne_eq, not_true_eq_false, if_false, false_and, pure_run]
  · have some_ : (c.k.length : Int) ≠ 0 := by
      rw [Int.natCast_ne_zero, ne_eq, List.length_eq_zero_iff]
      exact empty
    rw [if_pos some_, memcmp_run, key]
    simp only [ne_eq, empty, not_false_eq_true, true_and]

/-- A lookup has found a node, which is at the front of the list then, or none. -/
structure Looked (cached : List Cached) (lru : KvLru) (hit : Option Cached) (found : Option Nat) (after : KvLru)
    (cached' : List Cached) : Prop where
  found : found = hit.map Cached.addr
  steady : Steady lru after
  perm : cached'.Perm cached
  formed : WellFormed cached' after
  front : ∀ c ∈ hit, ∃ rest, cached' = c :: rest

theorem looked_none (formed : WellFormed cached lru) : Looked cached lru none none lru cached :=
  ⟨rfl, Steady.refl lru, .refl cached, formed, fun _ none => nomatch none⟩

/-- The end of a lookup that has found its node. -/
theorem WellFormed.found (formed : WellFormed cached lru) (member : c ∈ cached) :
    wp (do
        lruDel c.addr
        lruInsert c.addr
        pure (some c.addr))
      (fun found after => ∃ cached', Looked cached lru (some c) found after cached') (fun _ _ => False) lru := by
  obtain ⟨xs, ys, rfl⟩ := List.append_of_mem member
  obtain ⟨middle, after, del, insert, later, steady⟩ := formed.touch
  refine wp_bind_ok del (wp_bind_ok insert (wp_pure ⟨c :: (xs ++ ys), rfl, steady, ?_, later, ?_⟩))
  · exact List.perm_middle.symm
  · rintro _ ⟨⟩
    exact ⟨_, rfl⟩

/-- One turn of the loop of `_get`. -/
theorem WellFormed.find_turn (formed : WellFormed cached lru) (member : c ∈ cached) {kLen : Int} {ns : List Nat}
    {post : Option Nat → KvLru → Prop} {halt : Stop → KvLru → Prop}
    (hit : c.k ≠ [] → k.take kLen.toNat <+: c.k → ∀ found after cached',
      Looked cached lru (some c) found after cached' → post found after)
    (past : c.k ≠ [] → ¬ k.take kLen.toNat <+: c.k → c.k <+: k.take kLen.toNat → halt .fault lru)
    (miss : (c.k = [] ∨ ¬ c.k <+: k.take kLen.toNat ∧ ¬ k.take kLen.toNat <+: c.k) → wp (find k 0 ns) post halt lru) :
    wp (find k kLen (c.addr :: ns)) post halt lru := by
  obtain ⟨node, held, holds⟩ := formed.listed.held member
  have test := matchKey_run holds (k.take kLen.toNat) lru
  refine wp_bind_ok (node_run held) ?_
  rcases search_cases (k.take kLen.toNat) c with ⟨keyed, starts⟩ | ⟨keyed, differs, ends⟩ | differs
  · rw [if_pos ⟨keyed, starts⟩] at test
    refine wp_bind_ok test ?_
    apply (formed.found member).mono
    · rintro found after ⟨cached', looked⟩
      exact hit keyed starts found after cached' looked
    · exact fun _ _ none => none.elim
  · rw [if_neg (fun matched => differs matched.2), if_pos ⟨keyed, ends⟩] at test
    exact wp_of_error (bind_error test) (past keyed differs ends)
  · have unmatched : ¬ (c.k ≠ [] ∧ k.take kLen.toNat <+: c.k) := fun matched =>
      differs.elim (fun empty => matched.1 empty) fun neither => neither.2 matched.2
    have inside : ¬ (c.k ≠ [] ∧ c.k <+: k.take kLen.toNat) := fun matched =>
      differs.elim (fun empty => matched.1 empty) fun neither => neither.1 matched.2
    rw [if_neg unmatched, if_neg inside] at test
    exact wp_bind_ok test (miss differs)

/-- Behind the first node that does not match, no byte is compared. -/
theorem WellFormed.find_later (formed : WellFormed cached lru) (k : List UInt8) (bucket : List Cached)
    (nodes : bucket ⊆ cached) :
    wp (find k 0 (addrs bucket))
      (fun found after => ∃ cached', Looked cached lru (bucket.find? fun c => c.k ≠ []) found after cached')
      (fun _ _ => False) lru := by
  induction bucket with
  | nil => exact wp_pure ⟨cached, looked_none formed⟩
  | cons c rest ih =>
    have ih := ih fun d member => nodes (List.mem_cons_of_mem c member)
    apply formed.find_turn (nodes List.mem_cons_self)
    · intro keyed _ found after cached' looked
      rw [List.find?_cons_of_pos (by exact decide_eq_true keyed)]
      exact ⟨cached', looked⟩
    · exact fun _ differs _ => differs List.nil_prefix
    · intro differs
      have empty : c.k = [] := differs.resolve_right fun neither => neither.2 List.nil_prefix
      rw [List.find?_cons_of_neg (by simp [empty])]
      exact ih

/-- The loop of `_get` past a bucket. -/
theorem WellFormed.find_search (formed : WellFormed cached lru) (k : List UInt8) (bucket : List Cached)
    (nodes : bucket ⊆ cached) :
    wp (find k k.length (addrs bucket))
      (fun found after => ∃ hit cached', search k bucket = .ok hit ∧ Looked cached lru hit found after cached')
      (fun reason _ => search k bucket = .error reason) lru := by
  cases bucket with
  | nil => exact wp_pure ⟨none, cached, rfl, looked_none formed⟩
  | cons c rest =>
    have whole : k.take (k.length : Int).toNat = k := List.take_length
    have later := formed.find_later k rest fun d member => nodes (List.mem_cons_of_mem c member)
    apply formed.find_turn (nodes List.mem_cons_self)
    · intro keyed starts found after cached' looked
      rw [whole] at starts
      exact ⟨some c, cached', search_first keyed starts, looked⟩
    · intro keyed differs ends
      rw [whole] at differs ends
      exact search_over keyed differs ends
    · intro differs
      rw [whole] at differs
      apply later.mono
      · rintro found after ⟨cached', looked⟩
        exact ⟨_, cached', search_rest differs, looked⟩
      · exact fun _ _ none => none.elim

theorem addrs_filterMap (ns : List Nat) (there : ∀ n ∈ ns, ∃ c ∈ cached, c.addr = n) :
    addrs (ns.filterMap fun n => cached.find? fun c => c.addr = n) = ns := by
  induction ns with
  | nil => rfl
  | cons n rest ih =>
    obtain ⟨c, member, own⟩ := there n List.mem_cons_self
    obtain ⟨d, found⟩ := Option.isSome_iff_exists.mp
      (List.find?_isSome.mpr ⟨c, member, decide_eq_true own⟩ : (cached.find? fun c => c.addr = n).isSome)
    have addr : d.addr = n := by simpa using List.find?_some found
    have later := ih fun m later => there m (List.mem_cons_of_mem n later)
    simp only [List.filterMap_cons, found, addrs_cons, addr, later]

/-- Two nodes at one address are one. -/
theorem eq_of_addr (distinct : (addrs cached).Nodup) {d : Cached} (member : c ∈ cached) (member' : d ∈ cached)
    (same : c.addr = d.addr) : c = d :=
  List.inj_on_of_nodup_map distinct member member' same

theorem WellFormed.addrs_bucketOf (formed : WellFormed cached lru) (k : List UInt8) :
    addrs (bucketOf lru k cached) = lru.tab (lruHash k lru.bucketCount) := by
  apply addrs_filterMap
  intro n member
  obtain ⟨c, there, own, _⟩ := (formed.bucketed.bucket _ n).mp member
  exact ⟨c, there, own⟩

theorem bucketOf_subset (k : List UInt8) : bucketOf lru k cached ⊆ cached := by
  intro c member
  obtain ⟨n, _, found⟩ := List.mem_filterMap.mp member
  exact List.mem_of_find?_eq_some found

/-- The bucket of a key holds every node with a key of the same hash. -/
theorem WellFormed.mem_bucketOf (formed : WellFormed cached lru) (member : c ∈ cached) (own : c.k = k) :
    c ∈ bucketOf lru k cached := by
  have there : c.addr ∈ addrs (bucketOf lru k cached) := by
    rw [formed.addrs_bucketOf]
    exact (formed.bucketed.bucket _ _).mpr ⟨c, member, rfl, by rw [own]⟩
  obtain ⟨d, inside, same⟩ := List.mem_map.mp there
  exact eq_of_addr formed.listed.distinct (bucketOf_subset k inside) member same ▸ inside

/-- `_get` of a node, by the search in the bucket of the key. -/
theorem WellFormed.getNode (formed : WellFormed cached lru) (k : List UInt8) :
    wp (KvLru.getNode k)
      (fun found after => lru.InTable k ∧ ∃ hit cached', search k (bucketOf lru k cached) = .ok hit ∧
        Looked cached lru hit found after cached')
      (fun reason _ => ¬ lru.InTable k ∨ search k (bucketOf lru k cached) = .error reason) lru := by
  by_cases inTable : lru.InTable k
  · refine wp_bind_ok (place_run inTable) (wp_bind_ok (read_run _ lru) ?_)
    rw [← formed.addrs_bucketOf]
    apply (formed.find_search k _ (bucketOf_subset k)).mono
    · exact fun _ _ found => ⟨inTable, found⟩
    · exact fun _ _ stopped => .inr stopped
  · have outside : place k lru = (.error .fault, lru) := by
      refine (bind_ok (read_run _ lru)).trans ?_
      rw [if_neg (show ¬ (_ ∧ _) from inTable), fault_run]
    exact wp_of_error (bind_error outside) (.inl inTable)

/-- `_get` of a node returns the one with the key, and null where there is none. -/
def Finds (cached : List Cached) (lru : KvLru) (k : List UInt8) : Prop :=
  ∃ found after, KvLru.getNode k lru = (.ok found, after) ∧
    ∀ n, found = some n ↔ ∃ c ∈ cached, c.addr = n ∧ c.k = k

/-- Where no two nodes have one key, a lookup that returns is right where its
search is. -/
theorem Looked.right_iff {hit : Option Cached} {found : Option Nat} {cached' : List Cached}
    (formed : WellFormed cached lru) (keys : ∀ c ∈ cached, ∀ d ∈ cached, c.k = d.k → c = d)
    (looked : Looked cached lru hit found after cached') :
    (∀ n, found = some n ↔ ∃ c ∈ cached, c.addr = n ∧ c.k = k) ↔ Right k (bucketOf lru k cached) hit := by
  have inside (c : Cached) (here : c ∈ hit) : c ∈ cached := by
    obtain ⟨rest, rfl⟩ := looked.front c here
    exact looked.perm.mem_iff.mp List.mem_cons_self
  rw [looked.found]
  constructor
  · refine fun finds => ⟨fun c here => ?_, fun none c member own => ?_⟩
    · obtain ⟨d, member, same, own⟩ := (finds c.addr).mp (congrArg (Option.map Cached.addr) here)
      exact eq_of_addr formed.listed.distinct member (inside c here) same ▸ own
    · have found := (finds c.addr).mpr ⟨c, bucketOf_subset k member, rfl, own⟩
      rw [none] at found
      cases found
  · refine fun right n => ⟨fun found => ?_, ?_⟩
    · obtain ⟨c, here, own⟩ := Option.map_eq_some_iff.mp found
      exact ⟨c, inside c here, own, right.1 c here⟩
    · rintro ⟨c, member, rfl, own⟩
      cases same : hit with
      | none => exact absurd own (right.2 same c (formed.mem_bucketOf member own))
      | some d =>
        have matched := right.1 d same
        rw [Option.map_some, keys c member d (inside d same) (own.trans matched.symm)]

/-- In a well-formed cache `_get` finds the node of a key, or that there is none,
exactly where the key has a place in `_tab` and its bucket is clear for it. -/
theorem finds_iff (cached : List Cached) (lru : KvLru) (k : List UInt8) (formed : WellFormed cached lru)
    (keys : ∀ c ∈ cached, ∀ d ∈ cached, c.k = d.k → c = d) :
    Finds cached lru k ↔ lru.InTable k ∧ Clear k ((bucketOf lru k cached).map Cached.k) := by
  rw [← search_right_iff]
  rcases (formed.getNode k).cases with ⟨found, after, run, inTable, hit, cached', searched, looked⟩ |
    ⟨reason, after, run, stopped⟩
  · constructor
    · rintro ⟨found', after', run', finds⟩
      obtain ⟨⟨⟩, rfl⟩ := Prod.mk.inj (run.symm.trans run')
      exact ⟨inTable, hit, searched, (looked.right_iff formed keys).mp finds⟩
    · rintro ⟨_, hit', searched', right⟩
      obtain rfl : hit = hit' := Except.ok.inj (searched.symm.trans searched')
      exact ⟨found, after, run, (looked.right_iff formed keys).mpr right⟩
  · constructor
    · rintro ⟨_, _, run', _⟩
      cases run.symm.trans run'
    · rintro ⟨inTable, hit, searched, _⟩
      rcases stopped with outside | stopped
      · exact absurd inTable outside
      · cases stopped.symm.trans searched

/-- The second key of a bucket. -/
theorem pair_finds : Finds [⟨0, [97], [49]⟩, ⟨1, [98], [50]⟩] (pair [97] [49] [98] [50] 100 50) [98] :=
  (finds_iff _ _ [98] (pair_formed (by decide) ..) (by decide)).mpr (by decide +kernel)

/-- A lookup of a key that the key of the first node starts with takes that node. -/
theorem single_finds_longer :
    WellFormed [⟨0, [97, 98], [49]⟩] (single [97, 98] [49] 100 50 fun _ _ => 0) ∧
      ¬ Finds [⟨0, [97, 98], [49]⟩] (single [97, 98] [49] 100 50 fun _ _ => 0) [97] := by
  refine ⟨single_formed (by decide) .., ?_⟩
  rintro ⟨found, after, run, finds⟩
  obtain ⟨⟨⟩, rfl⟩ := Prod.mk.inj run
  obtain ⟨c, member, _, own⟩ := (finds 0).mp rfl
  obtain rfl := List.mem_singleton.mp member
  cases own

end KvLru

end Cache

end Pingkv
