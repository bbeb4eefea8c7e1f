import Pingkv.Tool.Iterator

/-! `operator--` of `hash_table::Iterator`, and what it takes `operator++` back to. -/

namespace Pingkv

open Exec

namespace Tool

namespace HashTable

variable {K V : Type}

namespace Iterator

/-- The loop of `operator--`, for the buckets in front of `_idx`. -/
def prevBucket (table : HashTable K V) : Nat → Iterator → Iterator
  | 0, it => it
  | left + 1, it =>
    if 0 < it.idx then
      if 0 < (table.buckets (it.idx - 1)).size then ⟨(table.buckets (it.idx - 1)).firstNode, it.idx - 1⟩
      else prevBucket table left { it with idx := it.idx - 1 }
    else it

/-- `operator--`, in front and behind. -/
def prev (it : Iterator) : Exec (HashTable K V) Iterator :=
  match it.n with
  | some n => do
    match (← inNodes (Heap.load n)).prev with
    | some m => pure { it with n := some m }
    | none => read fun table => prevBucket table it.idx.toNat { it with n := none }
  | none => fault

/-- `++` and then `--` lead back to the same element. -/
def Returns (it : Iterator) (table : HashTable K V) : Prop := ∃ after back,
  it.next table = (.ok after, table) ∧ after.prev table = (.ok back, table) ∧ back.n = it.n

/-- The element is the last one of several in its bucket. -/
def LastOfSeveral (it : Iterator) (table : HashTable K V) : Prop :=
  1 < (table.buckets it.idx).size ∧ it.n = (table.buckets it.idx).lastNode

instance (it : Iterator) (table : HashTable K V) : Decidable (it.LastOfSeveral table) := inferInstanceAs (Decidable (_ ∧ _))

end Iterator

/-- The positions that some moves lead through, one after the other. -/
def trail (move : Iterator → Exec (HashTable K V) Iterator) : Nat → Iterator → Exec (HashTable K V) (List Iterator)
  | 0, it => return [it]
  | moves + 1, it => do return it :: (← trail move moves (← move it))

/-- The positions from `begin` on, one for each element. -/
def Positions (table : HashTable K V) (its : List Iterator) : Prop :=
  (its.length : Int) = table.size ∧
    ∀ moves, moves + 1 = its.length → trail Iterator.next moves table.begin table = (.ok its, table)

/-- `--` leads back from each position that `++` leads to, and from the last one through all elements. -/
def Retraces (table : HashTable K V) (its : List Iterator) : Prop :=
  (∀ front it behind, its = front ++ it :: behind → behind ≠ [] → it.Returns table) ∧
    ∀ last ∈ its.getLast?, ∃ back, trail Iterator.prev (its.length - 1) last table = (.ok back, table) ∧
      back.map Iterator.n = (its.map Iterator.n).reverse

/-- Each bucket in front of one that holds something holds at most one element. -/
def Spread (table : HashTable K V) : Prop := ∀ i j, 0 ≤ i → i < j → j < table.bucketCount.toInt →
  0 < (table.buckets j).size → (table.buckets i).size ≤ 1

variable {entries : Int → List (Entry K V)} {table : HashTable K V} {e f : Entry K V} {it : Iterator} {i j : Int}
  {left : Nat} {xs ys front rest : List (Entry K V)}

/-- The iterator that stands on an entry. -/
def Entry.spot (table : HashTable K V) (e : Entry K V) : Iterator := ⟨some e.node, table.bucketIndex e.k⟩

theorem Stands.size_eq (stands : Stands entries table) (i : Int) : (table.buckets i).size = (entries i).length := by
  rw [show (table.buckets i).size = _ from (stands.lists i).size, List.length_map]

theorem Stands.firstNode_eq (stands : Stands entries table) (i : Int) :
    (table.buckets i).firstNode = (nodesOf (entries i)).head? := (stands.lists i).first

theorem Stands.lastNode_eq (stands : Stands entries table) (i : Int) :
    (table.buckets i).lastNode = (nodesOf (entries i)).getLast? := (stands.lists i).last

/-- The first entry of some buckets is the first one of its own, and the buckets before it are empty. -/
theorem entriesFrom_cons (same : entriesFrom entries left i = e :: rest) :
    ∃ j ys, i ≤ j ∧ j < i + left ∧ entries j = e :: ys ∧ ∀ m, i ≤ m → m < j → entries m = [] := by
  induction left generalizing i with
  | zero => cases same
  | succ left ih =>
    cases own : entries i with
    | nil =>
      rw [entriesFrom, own, List.nil_append] at same
      obtain ⟨j, ys, lower, upper, holds, empty⟩ := ih same
      refine ⟨j, ys, by omega, by push_cast; omega, holds, fun m above below => ?_⟩
      by_cases here : m = i
      · rw [here, own]
      · exact empty m (by omega) below
    | cons f ys =>
      rw [entriesFrom, own, List.cons_append] at same
      obtain ⟨rfl, _⟩ := List.cons.inj same
      exact ⟨i, ys, Int.le_refl i, by push_cast; omega, own, fun m above below => absurd below (by omega)⟩

/-- The loop of `--` stops at the first node of the bucket it comes to. -/
theorem Stands.prevBucket_run (stands : Stands entries table) (lower : 0 ≤ i) (holds : entries i ≠ []) (left : Nat) :
    ∀ j, i < j → j ≤ i + left → (∀ m, i < m → m < j → entries m = []) →
      Iterator.prevBucket table left ⟨none, j⟩ = ⟨(table.buckets i).firstNode, i⟩ := by
  induction left with
  | zero =>
    intro j above below
    omega
  | succ left ih =>
    intro j above below empty
    have size := stands.size_eq (j - 1)
    rw [Iterator.prevBucket, if_pos (by dsimp only; omega)]
    by_cases here : j - 1 = i
    · have some := List.length_pos_of_ne_nil holds
      rw [here] at size
      dsimp only
      rw [here, if_pos (by omega)]
    · rw [empty (j - 1) (by omega) (by omega), List.length_nil] at size
      rw [if_neg (by dsimp only; omega)]
      exact ih (j - 1) (by omega) (by omega) fun m passed under => empty m passed (by omega)

/-- What a node points to in front of it. -/
theorem Stands.prev_run (stands : Stands entries table) (split : entries i = xs ++ e :: ys) :
    ∃ node, inNodes (Heap.load e.node) table = (.ok node, table) ∧ node.prev = (nodesOf xs).getLast? := by
  have linked := (stands.lists i).linked
  rw [split, List.map_append, places_append, List.map_cons, places, places, List.map_cons] at linked
  obtain ⟨node, held, links⟩ := Option.map_eq_some_iff.mp linked.links
  refine ⟨node, within_ok (Heap.load_run held), ?_⟩
  exact (congrArg LinkedList.Links.prev links).trans (Option.or_none ..)

theorem Stands.spot_idx (stands : Stands entries table) (member : e ∈ entries i) : e.spot table = ⟨some e.node, i⟩ := by
  rw [Entry.spot, stands.hashed i e member]

/-- `--` inside a bucket. -/
theorem Stands.prev_inside (stands : Stands entries table) (split : entries i = xs ++ e :: f :: ys) :
    (f.spot table).prev table = (.ok (e.spot table), table) := by
  have again : entries i = (xs ++ [e]) ++ f :: ys := by rw [split, List.append_assoc]; rfl
  obtain ⟨node, loaded, before⟩ := stands.prev_run again
  have last : node.prev = some e.node := by
    rw [before, nodesOf, places, List.map_append, List.map_append]
    exact List.getLast?_concat
  rw [stands.spot_idx (split ▸ by simp : e ∈ entries i), stands.spot_idx (split ▸ by simp : f ∈ entries i), Iterator.prev]
  refine (bind_ok loaded).trans ?_
  rw [last]
  rfl

/-- `--` from the first entry of a bucket leads to the first one of the bucket before. -/
theorem Stands.prev_across (stands : Stands entries table) (lower : 0 ≤ i) (above : i < j) (first : entries i = e :: xs)
    (later : entries j = f :: ys) (empty : ∀ m, i < m → m < j → entries m = []) :
    (f.spot table).prev table = (.ok (e.spot table), table) := by
  obtain ⟨node, loaded, before⟩ := stands.prev_run (show entries j = [] ++ f :: ys from later)
  have none : node.prev = none := before
  have stops := stands.prevBucket_run lower (by rw [first]; simp) j.toNat j above (by omega) empty
  have head : (table.buckets i).firstNode = some e.node := by
    rw [stands.firstNode_eq, first]
    rfl
  rw [stands.spot_idx (first ▸ by simp : e ∈ entries i), stands.spot_idx (later ▸ by simp : f ∈ entries j), Iterator.prev]
  refine (bind_ok loaded).trans ?_
  rw [none]
  dsimp only
  rw [read_run, stops, head]

/-- An iterator in front of some entries stands on the first one. -/
theorem Stands.before_spot (stands : Stands entries table) (before : it.Before entries table (e :: rest)) : it = e.spot table := by
  obtain ⟨_, none⟩ | ⟨xs, f, ys, split, here, same⟩ := before
  · cases none
  · obtain ⟨rfl, _⟩ := List.cons.inj same
    rw [stands.spot_idx (split ▸ by simp : e ∈ entries it.idx), ← here]

/-- `++` comes by every entry. -/
theorem Stands.reaches (stands : Stands entries table) (front : List (Entry K V)) : ∀ {it : Iterator},
    it.Before entries table (front ++ rest) → it.idx < table.bucketCount.toInt →
      ∃ there : Iterator, there.Before entries table rest ∧ there.idx < table.bucketCount.toInt := by
  induction front with
  | nil => exact fun before inside => ⟨_, before, inside⟩
  | cons e front ih =>
    intro it before inside
    obtain ⟨after, _, before', inside'⟩ := stands.iterator_next inside before
    exact ih before' inside'

theorem Stands.before_of_split (stands : Stands entries table) (split : allEntries entries table = front ++ e :: rest) :
    (e.spot table).Before entries table (e :: rest) ∧ (e.spot table).idx < table.bucketCount.toInt := by
  have before : table.begin.Before entries table (front ++ e :: rest) := by
    rw [← split]
    exact stands.beginLoop_before _ _ stands.buckets
  obtain ⟨it, before, inside⟩ := stands.reaches front before (beginLoop_idx _ _ stands.buckets)
  rw [← stands.before_spot before]
  exact ⟨before, inside⟩

theorem Stands.next_spot (stands : Stands entries table) (split : allEntries entries table = front ++ e :: f :: rest) :
    (e.spot table).next table = (.ok (f.spot table), table) := by
  obtain ⟨before, inside⟩ := stands.before_of_split split
  obtain ⟨after, moved, before', _⟩ := stands.iterator_next inside before
  rw [moved, stands.before_spot before']

/-- One entry behind another is in the same bucket, or the first of a later one. -/
theorem Stands.step_cases (stands : Stands entries table) (split : allEntries entries table = front ++ e :: f :: rest) :
    ∃ i xs, 0 ≤ i ∧ ((∃ ys, entries i = xs ++ e :: f :: ys) ∨ entries i = xs ++ [e] ∧ ∃ j ys, i < j ∧
      entries j = f :: ys ∧ ∀ m, i < m → m < j → entries m = []) := by
  obtain ⟨before, inside⟩ := stands.before_of_split split
  obtain ⟨_, none⟩ | ⟨xs, g, ys, own, here, same⟩ := before
  · cases none
  obtain ⟨rfl, behind⟩ := List.cons.inj same
  have lower := (bucketIndex_mem stands.positive e.k).1
  refine ⟨(e.spot table).idx, xs, lower, ?_⟩
  cases ys with
  | nil =>
    obtain ⟨j, ys, above, _, holds, empty⟩ := entriesFrom_cons behind.symm
    exact .inr ⟨own, j, ys, by omega, holds, fun m passed under => empty m (by omega) under⟩
  | cons g ys =>
    obtain ⟨rfl, _⟩ := List.cons.inj behind
    exact .inl ⟨ys, own⟩

/-- Nodes of one bucket are apart. -/
theorem Stands.node_ne (stands : Stands entries table) (split : entries i = xs ++ e :: ys) (member : f ∈ xs ∨ f ∈ ys) :
    f.node ≠ e.node := by
  have distinct := (stands.lists i).distinct
  rw [split, List.map_append, places_append, List.map_cons, places, places, List.map_cons, List.nodup_middle] at distinct
  intro same
  refine (List.nodup_cons.mp distinct).1 ?_
  rw [← List.map_append, ← List.map_append]
  have node : e.slot.1 = f.slot.1 := same.symm
  rw [node]
  exact List.mem_map_of_mem (List.mem_map_of_mem (List.mem_append.mpr member))

/-- The last entry of several in a bucket. -/
theorem Stands.lastOfSeveral_iff (stands : Stands entries table) (split : entries i = xs ++ e :: ys) :
    (e.spot table).LastOfSeveral table ↔ xs ≠ [] ∧ ys = [] := by
  rw [stands.spot_idx (split ▸ by simp : e ∈ entries i), Iterator.LastOfSeveral, stands.size_eq, stands.lastNode_eq, split,
    List.length_append, List.length_cons]
  rcases List.eq_nil_or_concat ys with rfl | ⟨zs, f, rfl⟩
  · have last : (nodesOf (xs ++ [e])).getLast? = some e.node := by
      rw [nodesOf, places, List.map_append, List.map_append]
      exact List.getLast?_concat
    rw [last, ← List.length_pos_iff, List.length_nil]
    constructor
    · rintro ⟨several, _⟩
      exact ⟨by omega, rfl⟩
    · rintro ⟨several, _⟩
      exact ⟨by omega, rfl⟩
  · rw [List.concat_eq_append] at split ⊢
    refine iff_of_false (fun both => ?_) (fun both => by simp at both)
    have last : (nodesOf (xs ++ e :: (zs ++ [f]))).getLast? = some f.node := by
      rw [← List.cons_append, ← List.append_assoc, nodesOf, places, List.map_append, List.map_append]
      exact List.getLast?_concat
    exact stands.node_ne split (.inr (by simp)) (Option.some.inj (last.symm.trans both.2.symm))

/-- `--` leads back to the entry that `++` came from, or to another one of its bucket. -/
theorem Stands.prev_spot (stands : Stands entries table) (split : allEntries entries table = front ++ e :: f :: rest) :
    ∃ g : Entry K V, (f.spot table).prev table = (.ok (g.spot table), table) ∧
      (if (e.spot table).LastOfSeveral table then g.node ≠ e.node else g = e) := by
  obtain ⟨i, xs, lower, ⟨ys, own⟩ | ⟨own, j, ys, above, later, empty⟩⟩ := stands.step_cases split
  · refine ⟨e, stands.prev_inside own, ?_⟩
    rw [if_neg (fun last => by simpa using ((stands.lastOfSeveral_iff own).mp last).2)]
  · cases xs with
    | nil =>
      refine ⟨e, stands.prev_across lower above own later empty, ?_⟩
      rw [if_neg (fun last => ((stands.lastOfSeveral_iff own).mp last).1 rfl)]
    | cons g xs =>
      refine ⟨g, stands.prev_across lower above own later empty, ?_⟩
      rw [if_pos ((stands.lastOfSeveral_iff own).mpr ⟨by simp, rfl⟩)]
      exact stands.node_ne own (.inl List.mem_cons_self)

/-- What `++` does is undone by `--` but for the last of several elements of a bucket. -/
theorem Stands.returns_iff (stands : Stands entries table) (split : allEntries entries table = front ++ e :: f :: rest) :
    (e.spot table).Returns table ↔ ¬ (e.spot table).LastOfSeveral table := by
  obtain ⟨g, back, same⟩ := stands.prev_spot split
  have moved := stands.next_spot split
  constructor
  · rintro ⟨after, last, moved', back', equal⟩ several
    obtain ⟨here, _⟩ := Prod.mk.inj (moved.symm.trans moved')
    rw [← Except.ok.inj here] at back'
    obtain ⟨there, _⟩ := Prod.mk.inj (back.symm.trans back')
    rw [← Except.ok.inj there] at equal
    rw [if_pos several] at same
    exact same (Option.some.inj equal)
  · intro free
    rw [if_neg free] at same
    subst same
    exact ⟨_, _, moved, back, rfl⟩

theorem Stands.trail_next (stands : Stands entries table) (rest : List (Entry K V)) : ∀ {it : Iterator} {e : Entry K V},
    it.Before entries table (e :: rest) → it.idx < table.bucketCount.toInt →
      trail Iterator.next rest.length it table = (.ok ((e :: rest).map (Entry.spot table)), table) := by
  induction rest with
  | nil =>
    intro it e before _
    rw [stands.before_spot before]
    rfl
  | cons f rest ih =>
    intro it e before inside
    obtain ⟨after, moved, before', inside'⟩ := stands.iterator_next inside before
    rw [stands.before_spot before] at moved ⊢
    exact (bind_ok moved).trans (bind_ok (ih before' inside'))

/-- Where `--` undoes each `++`, it leads back through all entries in front. -/
theorem Stands.trail_prev (stands : Stands entries table) (free : ∀ front e f rest,
      allEntries entries table = front ++ e :: f :: rest → ¬ (e.spot table).LastOfSeveral table) (moves : Nat) :
    ∀ {front : List (Entry K V)} {e rest}, front.length = moves → allEntries entries table = front ++ e :: rest →
      trail Iterator.prev moves (e.spot table) table = (.ok ((front ++ [e]).map (Entry.spot table)).reverse, table) := by
  induction moves with
  | zero =>
    intro front e rest none _
    rw [List.length_eq_zero_iff.mp none]
    rfl
  | succ moves ih =>
    intro front e rest length split
    rcases List.eq_nil_or_concat front with rfl | ⟨before, d, rfl⟩
    · cases length
    · rw [List.concat_eq_append] at length split ⊢
      rw [List.append_assoc, List.singleton_append] at split
      obtain ⟨g, back, same⟩ := stands.prev_spot split
      rw [if_neg (free before d e rest split)] at same
      rw [same] at back
      have list : e.spot table :: ((before ++ [d]).map (Entry.spot table)).reverse =
          ((before ++ [d] ++ [e]).map (Entry.spot table)).reverse := by simp
      rw [← list]
      exact (bind_ok back).trans (bind_ok (ih (by simpa using length) split))

theorem entriesFrom_append (entries : Int → List (Entry K V)) (left more : Nat) (i : Int) :
    entriesFrom entries (left + more) i = entriesFrom entries left i ++ entriesFrom entries more (i + left) := by
  induction left generalizing i with
  | zero => simp [entriesFrom]
  | succ left ih =>
    rw [Nat.succ_add, entriesFrom, ih, entriesFrom, List.append_assoc]
    congr 3
    push_cast
    omega

/-- No bucket with several elements is followed by one that holds something, if none of its last elements is. -/
theorem Stands.spread_iff (stands : Stands entries table) : Spread table ↔ ∀ front e f rest,
    allEntries entries table = front ++ e :: f :: rest → ¬ (e.spot table).LastOfSeveral table := by
  constructor
  · rintro spread front e f rest split
    obtain ⟨i, xs, lower, ⟨ys, own⟩ | ⟨own, j, ys, above, later, _⟩⟩ := stands.step_cases split
    · exact fun last => by simpa using ((stands.lastOfSeveral_iff own).mp last).2
    · have upper := (bucketIndex_mem stands.positive f.k).2
      rw [stands.hashed j f (by simp [later])] at upper
      have few := spread i j lower above upper (by rw [stands.size_eq, later]; simp)
      rw [stands.size_eq, own] at few
      exact fun last => ((stands.lastOfSeveral_iff own).mp last).1 (by simpa using few)
  · intro free i j lower above upper holds
    by_contra several
    rw [stands.size_eq] at holds several
    rcases List.eq_nil_or_concat (entries i) with none | ⟨xs, e, own⟩
    · simp [none] at several
    · rw [List.concat_eq_append] at own
      obtain ⟨f, member⟩ := List.exists_mem_of_length_pos holds
      have behind : f ∈ entriesFrom entries (table.bucketCount.toInt - 1 - i).toNat (i + 1) :=
        mem_entriesFrom.mpr ⟨j, by omega, by omega, member⟩
      have split : allEntries entries table =
          (entriesFrom entries i.toNat 0 ++ xs) ++ e :: entriesFrom entries (table.bucketCount.toInt - 1 - i).toNat (i + 1) := by
        have count : table.bucketCount.toInt.toNat = i.toNat + ((table.bucketCount.toInt - 1 - i).toNat + 1) := by omega
        have here : (0 : Int) + i.toNat = i := by omega
        rw [allEntries, count, entriesFrom_append, here, entriesFrom, own]
        simp
      cases rest : entriesFrom entries (table.bucketCount.toInt - 1 - i).toNat (i + 1) with
      | nil =>
        rw [rest] at behind
        cases behind
      | cons g rest' =>
        rw [rest] at split
        refine free _ e g rest' split ((stands.lastOfSeveral_iff own).mpr ⟨?_, rfl⟩)
        rintro rfl
        simp [own] at several

private theorem split_of_map {α β : Type} {map : α → β} {list : List α} {first : List β} {x y : β} {last : List β}
    (split : list.map map = first ++ x :: y :: last) :
    ∃ front a b behind, list = front ++ a :: b :: behind ∧ map a = x := by
  obtain ⟨front, later, rfl, _, same⟩ := List.map_eq_append_iff.mp split
  obtain ⟨a, others, rfl, here, next⟩ := List.map_eq_cons_iff.mp same
  obtain ⟨b, behind, rfl, _, _⟩ := List.map_eq_cons_iff.mp next
  exact ⟨front, a, b, behind, rfl, here⟩

/-- The positions of a table, and where they are led back through. -/
theorem Stands.retraces (stands : Stands entries table) (size : ((allEntries entries table).length : Int) = table.size) :
    ∃ its, Positions table its ∧
      (∀ front it next behind, its = front ++ it :: next :: behind → (it.Returns table ↔ ¬ it.LastOfSeveral table)) ∧
      (Retraces table its ↔ Spread table) := by
  have positions : Positions table ((allEntries entries table).map (Entry.spot table)) := by
    refine ⟨by rwa [List.length_map], fun moves enough => ?_⟩
    rw [List.length_map] at enough
    cases all : allEntries entries table with
    | nil =>
      rw [all] at enough
      cases enough
    | cons e rest =>
      have before : table.begin.Before entries table (e :: rest) := by
        rw [← all]
        exact stands.beginLoop_before _ _ stands.buckets
      rw [all, List.length_cons, Nat.succ_inj] at enough
      rw [enough]
      exact stands.trail_next rest before (beginLoop_idx _ _ stands.buckets)
  have returns (front : List Iterator) (it next : Iterator) (behind : List Iterator)
      (split : (allEntries entries table).map (Entry.spot table) = front ++ it :: next :: behind) :
      it.Returns table ↔ ¬ it.LastOfSeveral table := by
    obtain ⟨_, e, f, _, own, rfl⟩ := split_of_map split
    exact stands.returns_iff own
  refine ⟨_, positions, returns, ?_⟩
  rw [stands.spread_iff]
  constructor
  · rintro ⟨back, _⟩ front e f rest split
    refine (stands.returns_iff split).mp (back (front.map (Entry.spot table)) _ ((f :: rest).map (Entry.spot table)) ?_ (by simp))
    rw [split]
    simp
  · intro free
    constructor
    · rintro front it (_ | ⟨next, behind⟩) split some
      · exact absurd rfl some
      · refine (returns front it next behind split).mpr ?_
        obtain ⟨_, e, f, _, own, rfl⟩ := split_of_map split
        exact free _ e f _ own
    · intro last found
      rcases List.eq_nil_or_concat (allEntries entries table) with none | ⟨front, e, split⟩
      · rw [none] at found
        cases found
      · rw [List.concat_eq_append] at split
        have back := stands.trail_prev free front.length rfl split
        rw [split, List.map_append, List.map_singleton, List.getLast?_concat] at found
        obtain rfl := Option.some.inj found
        rw [split, List.length_map, List.length_append, List.length_singleton, Nat.add_sub_cancel]
        exact ⟨_, back, by rw [List.map_reverse]⟩

/-- What a table with some contents is led back through. -/
theorem Refines.retraces {hashFunc : K → Int64} {compFunc : K → K → Int} {lawful : Lawful hashFunc compFunc} {defaultValue : V}
    {contents : Contents lawful V} (refines : Refines lawful defaultValue contents table) : ∃ its, Positions table its ∧
      (∀ front it next behind, its = front ++ it :: next :: behind → (it.Returns table ↔ ¬ it.LastOfSeveral table)) ∧
      (Retraces table its ↔ Spread table) := by
  obtain ⟨rfl, rfl, _, size, entries, stands, represents⟩ := refines
  exact stands.retraces (by rw [size, represents.card lawful stands])

/-- Behind any calls, `--` undoes a `++` exactly where that does not leave the last of several elements of a bucket,
and leads back through all elements exactly where only the last bucket in use holds several. -/
theorem retraces_iff_spread {hashFunc : K → Int64} {compFunc : K → K → Int} (lawful : Lawful hashFunc compFunc)
    {bucketCount : Int} {defaultValue : V} (started : init bucketCount defaultValue hashFunc compFunc = some table)
    (past : List (Call K V)) : ∃ reached its, run past table = (.ok (), reached) ∧ Positions reached its ∧
      (∀ front it next behind, its = front ++ it :: next :: behind → (it.Returns reached ↔ ¬ it.LastOfSeveral reached)) ∧
      (Retraces reached its ↔ Spread reached) := by
  obtain ⟨reached, ran, refines⟩ := (init_refines lawful started).run past
  obtain ⟨its, retraces⟩ := refines.retraces
  exact ⟨reached, its, ran, retraces⟩

/-- Two elements in two buckets are walked back through. -/
theorem two_retraced : ∃ table reached its, init 3 0 (fun k : Int => Int64.ofInt k) (fun a b => a - b) = some table ∧
    run [.addOrReplace 5 1, .addOrReplace 7 2] table = (.ok (), reached) ∧ Positions reached its ∧ its.length = 2 ∧
    Retraces reached its := by
  obtain ⟨table, started⟩ : ∃ table : HashTable Int Nat,
      init 3 0 (fun k : Int => Int64.ofInt k) (fun a b => a - b) = some table := ⟨_, rfl⟩
  obtain ⟨reached, its, ran, positions, _, retraces⟩ := retraces_iff_spread lawful_sub started
    [.addOrReplace 5 1, .addOrReplace 7 2]
  refine ⟨table, reached, its, started, ran, positions, ?_, retraces.mpr ?_⟩
  · have length := positions.1
    obtain rfl := Option.some.inj started
    have size : reached.size = 2 := (congrArg (fun outcome => outcome.2.size) ran).symm.trans (by decide)
    omega
  · obtain rfl := Option.some.inj started
    have few : ∀ k < 128, (reached.buckets (k : Nat)).size ≤ 1 := by
      rw [← show _ = reached from congrArg Prod.snd ran]
      decide
    have count : reached.bucketCount.toInt = 128 :=
      (congrArg (fun outcome => outcome.2.bucketCount.toInt) ran).symm.trans (by decide)
    intro i j lower above upper _
    rw [count] at upper
    have small := few i.toNat (by omega)
    rwa [Int.toNat_of_nonneg lower] at small

/-- From the second element of a bucket `++` and `--` lead to the first one. -/
theorem second_of_two_left : ∃ table reached its, init 3 0 (fun k : Int => Int64.ofInt k) (fun a b => a - b) = some table ∧
    run [.addOrReplace 5 1, .addOrReplace 133 2, .addOrReplace 7 3] table = (.ok (), reached) ∧ Positions reached its ∧
    its = [⟨some 0, 5⟩, ⟨some 1, 5⟩, ⟨some 2, 7⟩] ∧ (Iterator.prev ⟨some 2, 7⟩ reached).1 = .ok ⟨some 0, 5⟩ ∧
    ¬ Retraces reached its := by
  obtain ⟨table, started⟩ : ∃ table : HashTable Int Nat,
      init 3 0 (fun k : Int => Int64.ofInt k) (fun a b => a - b) = some table := ⟨_, rfl⟩
  obtain ⟨reached, ran, refines⟩ := (init_refines lawful_sub started).run
    [.addOrReplace 5 1, .addOrReplace 133 2, .addOrReplace 7 3]
  obtain ⟨its, positions, _, retraces⟩ := refines.retraces
  refine ⟨table, reached, its, started, ran, positions, ?_, ?_, fun back => ?_⟩
  all_goals obtain rfl := Option.some.inj started
  · have length := positions.1
    have size : reached.size = 3 := (congrArg (fun outcome => outcome.2.size) ran).symm.trans (by decide)
    have walked := congrArg Prod.fst (positions.2 2 (by omega))
    rw [← show _ = reached from congrArg Prod.snd ran] at walked
    exact (Except.ok.inj (walked.symm.trans (by decide)))
  · rw [← show _ = reached from congrArg Prod.snd ran]
    decide
  · have few := retraces.mp back 5 7 (by decide) (by decide)
    rw [← show _ = reached from congrArg Prod.snd ran] at few
    exact absurd few (by decide)

end HashTable

end Tool

end Pingkv
