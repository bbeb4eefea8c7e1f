import Pingkv.Tool.Contents

/-! `hash_table::Iterator`: from bucket to bucket, and in each from node to node. -/

namespace Pingkv

open Exec

namespace Tool

namespace HashTable

variable {K V : Type}

/-- An `Iterator`. Its `_bs` and its `_table` are those of the table that it is used on. -/
structure Iterator where
  n : Option Nat
  idx : Int
  deriving DecidableEq, Repr

/-- The loop of `begin`, for the buckets that are left from number `i` on. -/
def beginLoop (table : HashTable K V) : Nat → Int → Iterator
  | 0, _ => ⟨none, table.bucketCount.toInt - 1⟩
  | left + 1, i => if 0 < (table.buckets i).size then ⟨(table.buckets i).firstNode, i⟩ else beginLoop table left (i + 1)

/-- `hash_table::begin`. -/
def «begin» (table : HashTable K V) : Iterator := beginLoop table table.bucketCount.toInt.toNat 0

/-- `hash_table::end`. -/
def «end» (table : HashTable K V) : Iterator := ⟨none, table.bucketCount.toInt - 1⟩

namespace Iterator

/-- The loop of `operator++`, for the buckets behind `_idx`. -/
def nextBucket (table : HashTable K V) : Nat → Iterator → Iterator
  | 0, it => it
  | left + 1, it =>
    if it.idx < table.bucketCount.toInt - 1 then
      if 0 < (table.buckets (it.idx + 1)).size then ⟨(table.buckets (it.idx + 1)).firstNode, it.idx + 1⟩
      else nextBucket table left { it with idx := it.idx + 1 }
    else it

/-- `operator++`, in front and behind. -/
def next (it : Iterator) : Exec (HashTable K V) Iterator :=
  match it.n with
  | some n => do
    match (← inNodes (Heap.load n)).next with
    | some m => pure { it with n := some m }
    | none => read fun table => nextBucket table (table.bucketCount.toInt - 1 - it.idx).toNat { it with n := none }
  | none => fault

/-- `operator*`. -/
def deref (it : Iterator) : Exec (HashTable K V) (Option Nat) :=
  match it.n with
  | some n => do pure (← inNodes (Heap.load n)).data
  | none => pure none

/-- `operator!=`. -/
def ne (it other : Iterator) : Exec (HashTable K V) Bool := do
  let data ← other.deref
  match it.n with
  | some n => do
    let node ← inNodes (Heap.load n)
    match (← read id).compElem node.data data with
    | some order => pure (order ≠ 0)
    | none => fault
  | none => pure (data ≠ none)

end Iterator

/-- `for(; it != end(); ++it)`, given a number of turns it may take: the elements that `*it` points to. -/
def visit : Nat → Iterator → Exec (HashTable K V) (List (Option Nat))
  | 0, _ => exhausted
  | turns + 1, it => do
    if ← it.ne (← read «end») then do
      let data ← it.deref
      let it ← it.next
      return data :: (← visit turns it)
    else return []

variable {entries : Int → List (Entry K V)} {table : HashTable K V} {e : Entry K V} {it : Iterator} {i : Int}
  {left : Nat} {rest : List (Entry K V)}

/-- The entries of some buckets from number `i` on. -/
def entriesFrom (entries : Int → List (Entry K V)) : Nat → Int → List (Entry K V)
  | 0, _ => []
  | left + 1, i => entries i ++ entriesFrom entries left (i + 1)

/-- The entries that are still to be visited, the one under the iterator first. -/
def Iterator.Before (entries : Int → List (Entry K V)) (table : HashTable K V) (it : Iterator) (rest : List (Entry K V)) :
    Prop :=
  it.n = none ∧ rest = [] ∨ ∃ xs e ys, entries it.idx = xs ++ e :: ys ∧ it.n = some e.node ∧
    rest = e :: (ys ++ entriesFrom entries (table.bucketCount.toInt - 1 - it.idx).toNat (it.idx + 1))

/-- The loop of `operator++` goes on where that of `begin` would start. -/
theorem Iterator.nextBucket_eq (table : HashTable K V) (left : Nat) (i : Int) (buckets : i + left + 1 = table.bucketCount.toInt) :
    nextBucket table left ⟨none, i⟩ = beginLoop table left (i + 1) := by
  induction left generalizing i with
  | zero => exact congrArg (Iterator.mk none) (by omega)
  | succ left ih =>
    rw [nextBucket, beginLoop, if_pos (by dsimp only; omega)]
    split
    · rfl
    · exact ih (i + 1) (by omega)

/-- The first bucket that holds something, and all entries from there on. -/
theorem Stands.beginLoop_before (stands : Stands entries table) (left : Nat) (i : Int)
    (buckets : i + left = table.bucketCount.toInt) :
    (beginLoop table left i).Before entries table (entriesFrom entries left i) := by
  induction left generalizing i with
  | zero => exact .inl ⟨rfl, rfl⟩
  | succ left ih =>
    have size : (table.buckets i).size = (entries i).length := by
      rw [show (table.buckets i).size = _ from (stands.lists i).size, List.length_map]
    have first : (table.buckets i).firstNode = (nodesOf (entries i)).head? := (stands.lists i).first
    rw [beginLoop]
    cases own : entries i with
    | nil =>
      rw [own, List.length_nil] at size
      rw [if_neg (by omega), entriesFrom, own, List.nil_append]
      exact ih (i + 1) (by omega)
    | cons e ys =>
      rw [own, List.length_cons] at size
      rw [own] at first
      rw [if_pos (by omega)]
      refine .inr ⟨[], e, ys, own, first, ?_⟩
      rw [entriesFrom, own, List.cons_append, show table.bucketCount.toInt - 1 - i = (left : Int) by omega, Int.toNat_natCast]

/-- An iterator is never past the last bucket. -/
theorem beginLoop_idx (left : Nat) (i : Int) (buckets : i + left = table.bucketCount.toInt) :
    (beginLoop table left i).idx < table.bucketCount.toInt := by
  induction left generalizing i with
  | zero =>
    rw [beginLoop]
    dsimp only
    omega
  | succ left ih =>
    rw [beginLoop]
    split
    · dsimp only
      omega
    · exact ih (i + 1) (by omega)

/-- What a node points to behind it. -/
theorem Stands.next_run (stands : Stands entries table) {xs ys : List (Entry K V)} (split : entries i = xs ++ e :: ys) :
    ∃ node, inNodes (Heap.load e.node) table = (.ok node, table) ∧ node.next = (nodesOf ys).head? := by
  have linked := (stands.lists i).linked
  rw [split, List.map_append, places_append, List.map_cons, places, places, List.map_cons] at linked
  obtain ⟨node, held, links⟩ := Option.map_eq_some_iff.mp linked.links
  refine ⟨node, within_ok (Heap.load_run held), ?_⟩
  exact (congrArg LinkedList.Links.next links).trans (Option.or_none ..)

/-- `++` moves on to the next entry. -/
theorem Stands.iterator_next (stands : Stands entries table) (inside : it.idx < table.bucketCount.toInt)
    (before : it.Before entries table (e :: rest)) :
    ∃ after, it.next table = (.ok after, table) ∧ after.Before entries table rest ∧ after.idx < table.bucketCount.toInt := by
  obtain ⟨_, none⟩ | ⟨xs, f, ys, split, here, same⟩ := before
  · cases none
  · obtain ⟨rfl, rfl⟩ := List.cons.inj same
    obtain ⟨node, loaded, behind⟩ := stands.next_run split
    have enter : it.next table = (match node.next with
        | some m => pure { it with n := some m }
        | none => read fun table => Iterator.nextBucket table (table.bucketCount.toInt - 1 - it.idx).toNat { it with n := none } :
          Exec (HashTable K V) Iterator) table := by
      rw [Iterator.next, here]
      exact bind_ok loaded
    cases ys with
    | nil =>
      have last : node.next = none := behind
      have turns : it.idx + 1 + (table.bucketCount.toInt - 1 - it.idx).toNat = table.bucketCount.toInt := by omega
      have scan := Iterator.nextBucket_eq table (table.bucketCount.toInt - 1 - it.idx).toNat it.idx (by omega)
      refine ⟨beginLoop table (table.bucketCount.toInt - 1 - it.idx).toNat (it.idx + 1), ?_, ?_, ?_⟩
      · rw [enter, last, ← scan]
        rfl
      · exact stands.beginLoop_before _ _ turns
      · exact beginLoop_idx _ _ turns
    | cons g ys =>
      have follows : node.next = some g.node := behind
      refine ⟨{ it with n := some g.node }, by rw [enter, follows]; rfl, .inr ⟨xs ++ [e], g, ys, ?_, rfl, rfl⟩, inside⟩
      rw [split, List.append_assoc]
      rfl

/-- An iterator that stands on an entry differs from the end: its data is not `NULL`. -/
theorem Stands.iterator_ne (stands : Stands entries table) (member : e ∈ entries i) (here : it.n = some e.node) :
    it.ne table.end table = (.ok true, table) ∧ it.deref table = (.ok (some e.elem), table) := by
  obtain ⟨node, loaded, data⟩ := stands.load_run member
  constructor
  · rw [Iterator.ne, show table.end.deref = (pure none : Exec (HashTable K V) _) from rfl, pure_bind_run, here]
    dsimp only
    rw [bind_ok loaded, read_bind_run, data]
    rfl
  · rw [Iterator.deref, here]
    dsimp only
    rw [bind_ok loaded, data]
    rfl

/-- The loop ends behind the last entry; it visits the entries that were left, in order. -/
theorem Stands.visit_run (stands : Stands entries table) (turns : Nat) (enough : rest.length < turns)
    (inside : it.idx < table.bucketCount.toInt) (before : it.Before entries table rest) :
    visit turns it table = (.ok (rest.map fun e => some e.elem), table) := by
  induction turns generalizing it rest with
  | zero => omega
  | succ turns ih =>
    rw [visit, read_bind_run]
    cases rest with
    | nil =>
      obtain ⟨none, _⟩ | ⟨_, _, _, _, _, same⟩ := before
      · rw [Iterator.ne, none]
        rfl
      · cases same
    | cons e rest =>
      obtain ⟨after, moved, before', inside'⟩ := stands.iterator_next inside before
      obtain ⟨_, none⟩ | ⟨xs, f, ys, split, here, same⟩ := before
      · cases none
      · obtain ⟨rfl, _⟩ := List.cons.inj same
        have member : e ∈ entries it.idx := split ▸ List.mem_append_right xs List.mem_cons_self
        obtain ⟨differs, data⟩ := stands.iterator_ne member here
        rw [bind_ok differs, if_pos rfl, bind_ok data, bind_ok moved, bind_ok (ih (by simpa using enough) inside' before')]
        rfl

theorem mem_entriesFrom : e ∈ entriesFrom entries left i ↔ ∃ j : Int, i ≤ j ∧ j < i + left ∧ e ∈ entries j := by
  induction left generalizing i with
  | zero =>
    simp only [entriesFrom, List.not_mem_nil, false_iff]
    rintro ⟨j, lower, upper, _⟩
    omega
  | succ left ih =>
    rw [entriesFrom, List.mem_append, ih]
    constructor
    · rintro (own | ⟨j, lower, upper, later⟩)
      · exact ⟨i, Int.le_refl i, by omega, own⟩
      · exact ⟨j, by omega, by omega, later⟩
    · rintro ⟨j, lower, upper, member⟩
      by_cases here : j = i
      · exact .inl (here ▸ member)
      · exact .inr ⟨j, by omega, by omega, member⟩

/-- All entries of a table. -/
def allEntries (entries : Int → List (Entry K V)) (table : HashTable K V) : List (Entry K V) :=
  entriesFrom entries table.bucketCount.toInt.toNat 0

/-- Only the buckets of the table hold entries. -/
theorem Stands.mem_allEntries (stands : Stands entries table) : e ∈ allEntries entries table ↔ ∃ i, e ∈ entries i := by
  rw [allEntries, mem_entriesFrom]
  constructor
  · rintro ⟨i, _, _, member⟩
    exact ⟨i, member⟩
  · rintro ⟨i, member⟩
    have inside := bucketIndex_mem stands.positive e.k
    rw [stands.hashed i e member] at inside
    exact ⟨i, inside.1, by omega, member⟩

/-- No two entries of a table have equivalent keys. -/
theorem Stands.entriesFrom_apart (lawful : Lawful table.hashFunc table.compFunc) (stands : Stands entries table)
    (left : Nat) (i : Int) : (entriesFrom entries left i).Pairwise fun e f => lawful.key e.k ≠ lawful.key f.k := by
  induction left generalizing i with
  | zero => exact .nil
  | succ left ih =>
    refine List.pairwise_append.mpr ⟨(stands.apart i).imp fun differ same => differ (lawful.key_eq.mp same), ih (i + 1), ?_⟩
    intro e first f second same
    obtain ⟨j, above, _, member⟩ := mem_entriesFrom.mp second
    have index := (stands.unique lawful first member (lawful.key_eq.mp same)).1
    omega

/-- As many keys are held as there are entries. -/
theorem Represents.card (lawful : Lawful table.hashFunc table.compFunc) {contents : Contents lawful V}
    (represents : Represents lawful contents entries) (stands : Stands entries table) :
    contents.keys.card = (allEntries entries table).length := by
  have apart : (allEntries entries table).Pairwise fun e f => lawful.key e.k ≠ lawful.key f.k :=
    stands.entriesFrom_apart lawful _ 0
  have keys : ((allEntries entries table).map fun e => lawful.key e.k).toFinset = contents.keys := by
    ext key
    rw [List.mem_toFinset, List.mem_map, Finmap.mem_keys, Finmap.mem_iff]
    constructor
    · rintro ⟨e, member, rfl⟩
      obtain ⟨i, member⟩ := stands.mem_allEntries.mp member
      exact ⟨e.v, (represents _ _).mpr ⟨i, e, member, rfl, rfl⟩⟩
    · rintro ⟨v, held⟩
      obtain ⟨i, e, member, same, _⟩ := (represents key v).mp held
      exact ⟨e, stands.mem_allEntries.mpr ⟨i, member⟩, same⟩
  rw [← keys, List.toFinset_card_of_nodup (List.pairwise_map.mpr apart), List.length_map]

theorem Stands.buckets (stands : Stands entries table) : (0 : Int) + table.bucketCount.toInt.toNat = table.bucketCount.toInt := by
  have positive := stands.positive
  omega

/-- An iteration over a table, of whatever order, finds what the table holds. -/
theorem Refines.visit {hashFunc : K → Int64} {compFunc : K → K → Int} {lawful : Lawful hashFunc compFunc} {defaultValue : V}
    {contents : Contents lawful V} (refines : Refines lawful defaultValue contents table) : ∃ visited : List Nat,
      (∀ turns, visited.length < turns → HashTable.visit turns table.begin table = (.ok (visited.map some), table)) ∧
      visited.Nodup ∧ (visited.length : Int) = table.size ∧ ∀ key v, contents.lookup key = some v ↔
        ∃ p ∈ visited, ∃ k, table.elems.cell p = some ⟨k, some v⟩ ∧ lawful.key k = key := by
  obtain ⟨rfl, rfl, _, size, entries, stands, represents⟩ := refines
  have apart : (allEntries entries table).Pairwise fun e f => lawful.key e.k ≠ lawful.key f.k :=
    stands.entriesFrom_apart lawful _ 0
  have buckets := stands.buckets
  refine ⟨(allEntries entries table).map Entry.elem, ?_, ?_, ?_, ?_⟩
  · intro turns enough
    rw [List.map_map]
    exact stands.visit_run turns (by rwa [List.length_map] at enough) (beginLoop_idx _ _ buckets)
      (stands.beginLoop_before _ _ buckets)
  · rw [List.Nodup, List.pairwise_map]
    refine apart.imp_of_mem fun {e f} first second differ same => differ ?_
    obtain ⟨i, first⟩ := stands.mem_allEntries.mp first
    obtain ⟨j, second⟩ := stands.mem_allEntries.mp second
    rw [(stands.elem_inj lawful first second same).2]
  · rw [size, represents.card lawful stands, List.length_map]
  · intro key v
    rw [represents key v]
    constructor
    · rintro ⟨i, e, member, same, rfl⟩
      exact ⟨e.elem, List.mem_map_of_mem (stands.mem_allEntries.mpr ⟨i, member⟩), e.k, stands.stored i e member, same⟩
    · rintro ⟨p, visited, k, stored, same⟩
      obtain ⟨e, member, rfl⟩ := List.mem_map.mp visited
      obtain ⟨i, member⟩ := stands.mem_allEntries.mp member
      have element := Option.some.inj ((stands.stored i e member).symm.trans stored)
      simp only [Element.mk.injEq, Option.some.injEq] at element
      exact ⟨i, e, member, element.1 ▸ same, element.2⟩

/-- Behind any calls, an iteration from `begin` to `end` comes by each element that the calls
left in the table, and by none of them twice. -/
theorem visits_each {hashFunc : K → Int64} {compFunc : K → K → Int} (lawful : Lawful hashFunc compFunc) {bucketCount : Int}
    {defaultValue : V} (started : init bucketCount defaultValue hashFunc compFunc = some table) (past : List (Call K V)) :
    ∃ reached, ∃ visited : List Nat, run past table = (.ok (), reached) ∧
      (∀ turns, visited.length < turns → HashTable.visit turns reached.begin reached = (.ok (visited.map some), reached)) ∧
      visited.Nodup ∧ (visited.length : Int) = reached.size ∧ ∀ key v, (contentsOf lawful past).lookup key = some v ↔
        ∃ p ∈ visited, ∃ k, reached.elems.cell p = some ⟨k, some v⟩ ∧ lawful.key k = key := by
  obtain ⟨reached, ran, refines⟩ := (init_refines lawful started).run past
  obtain ⟨visited, visits⟩ := refines.visit
  exact ⟨reached, visited, ran, visits⟩

/-- Two elements in one bucket, one in another and a deleted one between them. -/
theorem visits_three : ∃ table reached, ∃ visited : List Nat,
    init 3 0 (fun k : Int => Int64.ofInt k) (fun a b => a - b) = some table ∧
    run [.addOrReplace 5 1, .addOrReplace 133 2, .addOrReplace 7 3, .addOrReplace 90 4, .del 7] table = (.ok (), reached) ∧
    HashTable.visit 4 reached.begin reached = (.ok (visited.map some), reached) ∧ visited.length = 3 := by
  obtain ⟨table, started⟩ : ∃ table : HashTable Int Nat,
      init 3 0 (fun k : Int => Int64.ofInt k) (fun a b => a - b) = some table := ⟨_, rfl⟩
  obtain ⟨reached, visited, ran, visits, _, length, _⟩ := visits_each lawful_sub started
    [.addOrReplace 5 1, .addOrReplace 133 2, .addOrReplace 7 3, .addOrReplace 90 4, .del 7]
  have three : (visited.length : Int) = 3 := by
    rw [length]
    obtain rfl := Option.some.inj started
    have size := congrArg (fun outcome => outcome.2.size) ran
    exact size.symm.trans (by decide +kernel)
  exact ⟨table, reached, visited, started, ran, visits 4 (by omega), by omega⟩

end HashTable

end Tool

end Pingkv
