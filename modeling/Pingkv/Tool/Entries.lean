import Mathlib.Data.List.Find
import Mathlib.Data.List.Pairwise
import Pingkv.Tool.HashTable

/-! The entries in the buckets of a `hash_table`, and what each call reads and
changes of them. -/

namespace Pingkv

open Exec

namespace Tool

/-- `comp_func` is 0 between equivalent keys, and those have one hash. -/
structure Lawful {K : Type} (hashFunc : K → Int64) (compFunc : K → K → Int) : Prop where
  equivalence : Equivalence fun a b => compFunc a b = 0
  hash : ∀ a b, compFunc a b = 0 → hashFunc a = hashFunc b

namespace HashTable

/-- An element in a bucket: its node there, its address, its key and its value. -/
structure Entry (K V : Type) where
  node : Nat
  elem : Nat
  k : K
  v : V

variable {K V : Type}

def Entry.slot (entry : Entry K V) : Slot (Option Nat) := (entry.node, some entry.elem)

/-- Every bucket holds the elements whose keys belong there, each key once. -/
structure Stands (entries : Int → List (Entry K V)) (table : HashTable K V) : Prop where
  positive : 0 < table.bucketCount.toInt
  lists : ∀ bkt, (table.dataList bkt).Holds ((entries bkt).map Entry.slot)
  stored : ∀ bkt, ∀ e ∈ entries bkt, table.elems.cell e.elem = some ⟨e.k, some e.v⟩
  below : ∀ bkt, ∀ e ∈ entries bkt, e.elem < table.elems.fresh
  hashed : ∀ bkt, ∀ e ∈ entries bkt, table.bucketIndex e.k = bkt
  apart : ∀ bkt, (entries bkt).Pairwise fun e f => table.compFunc e.k f.k ≠ 0

/-- A mask that is not negative leaves a number between 0 and itself. -/
theorem toInt_and_mem (mask : Int64) (positive : 0 ≤ mask.toInt) (h : Int64) :
    0 ≤ (h &&& mask).toInt ∧ (h &&& mask).toInt ≤ mask.toInt := by
  have small : 2 * mask.toBitVec.toNat < 2 ^ 64 := BitVec.toInt_pos_iff.mp positive
  have le : (h &&& mask).toBitVec.toNat ≤ mask.toBitVec.toNat := Nat.and_le_right
  have masked : (h &&& mask).toInt = (h &&& mask).toBitVec.toNat := BitVec.toInt_eq_toNat_of_lt (by omega)
  have whole : mask.toInt = mask.toBitVec.toNat := BitVec.toInt_eq_toNat_of_lt small
  omega

/-- Every key has a bucket. -/
theorem bucketIndex_mem {table : HashTable K V} (positive : 0 < table.bucketCount.toInt) (k : K) :
    0 ≤ table.bucketIndex k ∧ table.bucketIndex k < table.bucketCount.toInt := by
  have mask : (table.bucketCount - 1).toInt = table.bucketCount.toInt - 1 :=
    Int64.toInt_sub_of_le _ _ (by decide) (Int64.le_iff_toInt_le.mpr positive)
  have inside := toInt_and_mem (table.bucketCount - 1) (by omega) (table.hashFunc k)
  unfold bucketIndex
  omega

variable {entries : Int → List (Entry K V)} {table : HashTable K V} {e f : Entry K V} {i j : Int} {k : K}

theorem Stands.bucket_run (stands : Stands entries table) (k : K) :
    bucket k table = (.ok (table.bucketIndex k), table) := by
  refine (bind_ok (read_run _ table)).trans ?_
  simp only [id, bucketIndex_mem stands.positive k, and_self, if_true, pure_run]

def nodesOf (entries : List (Entry K V)) : List Nat := places (entries.map Entry.slot)

theorem mem_nodesOf {list : List (Entry K V)} {n : Nat} : n ∈ nodesOf list ↔ ∃ e ∈ list, e.node = n := by
  rw [nodesOf, places, List.map_map]
  exact List.mem_map

section Apart

variable (lawful : Lawful table.hashFunc table.compFunc)
include lawful

/-- Equivalent keys have one bucket. -/
theorem bucketIndex_eq {a b : K} (same : table.compFunc a b = 0) : table.bucketIndex a = table.bucketIndex b := by
  rw [bucketIndex, bucketIndex, lawful.hash a b same]

/-- A class of keys has one entry at most. -/
theorem Stands.unique (stands : Stands entries table) (first : e ∈ entries i) (second : f ∈ entries j)
    (same : table.compFunc e.k f.k = 0) : i = j ∧ e = f := by
  have index : i = j := by
    rw [← stands.hashed i e first, ← stands.hashed j f second]
    exact bucketIndex_eq lawful same
  subst index
  refine ⟨rfl, ?_⟩
  by_contra different
  have symm : Std.Symm fun e f : Entry K V => table.compFunc e.k f.k ≠ 0 :=
    ⟨fun _ _ differ same => differ (lawful.equivalence.symm same)⟩
  exact (stands.apart i).forall first second different same

theorem Stands.elem_inj (stands : Stands entries table) (first : e ∈ entries i) (second : f ∈ entries j)
    (same : e.elem = f.elem) : i = j ∧ e = f := by
  have stored := (stands.stored i e first).symm.trans ((congrArg _ same).trans (stands.stored j f second))
  have keys : e.k = f.k := congrArg Element.k (Option.some.inj stored)
  exact stands.unique lawful first second (keys ▸ lawful.equivalence.refl e.k)

omit lawful in
theorem Stands.datas (stands : Stands entries table) (member : e ∈ entries i) :
    datas table.nodes e.node = some (some e.elem) :=
  (stands.lists i).data e.slot (List.mem_map_of_mem member)

theorem Stands.node_inj (stands : Stands entries table) (first : e ∈ entries i) (second : f ∈ entries j)
    (same : e.node = f.node) : i = j ∧ e = f := by
  have data := (stands.datas first).symm.trans ((congrArg _ same).trans (stands.datas second))
  exact stands.elem_inj lawful first second (Option.some.inj (Option.some.inj data))

theorem Stands.nodes_disjoint (stands : Stands entries table) (apart : i ≠ j) :
    List.Disjoint (nodesOf (entries i)) (nodesOf (entries j)) := by
  intro n first second
  obtain ⟨e, member, rfl⟩ := mem_nodesOf.mp first
  obtain ⟨f, member', same⟩ := mem_nodesOf.mp second
  exact apart (stands.node_inj lawful member member' same.symm).1

end Apart

/-- What happens to other elements does not matter. -/
theorem Stands.elems_spared (stands : Stands entries table) {elems : Heap (Element K V)}
    (same : ∀ n < table.elems.fresh, elems.cell n = table.elems.cell n) (grown : table.elems.fresh ≤ elems.fresh) :
    Stands entries { table with elems := elems } where
  positive := stands.positive
  lists := stands.lists
  stored bkt e member := (same e.elem (stands.below bkt e member)).trans (stands.stored bkt e member)
  below bkt e member := Nat.lt_of_lt_of_le (stands.below bkt e member) grown
  hashed := stands.hashed
  apart := stands.apart

/-- A call has an element of its own. -/
theorem Stands.push (stands : Stands entries table) (element : Element K V) :
    Stands entries { table with elems := table.elems.push element } :=
  stands.elems_spared (fun _ old => Heap.push_other (Nat.ne_of_lt old) element) (Nat.le_succ _)

/-- The element of its own is gone again. -/
theorem Stands.pop (stands : Stands entries table) (element : Element K V) :
    Stands entries { table with elems := (table.elems.push element).set table.elems.fresh none } := by
  apply stands.elems_spared
  · intro n old
    rw [Heap.set_other (Nat.ne_of_lt old), Heap.push_other (Nat.ne_of_lt old)]
  · exact Nat.le_succ _

/-- The entry of a key in its bucket. -/
def entryOf (table : HashTable K V) (k : K) (list : List (Entry K V)) : Option (Entry K V) :=
  list.find? fun e => decide (table.compFunc e.k k = 0)

theorem inDataList_run {α : Type} {call : Exec (LinkList (Option Nat)) α} {value : α} {after : LinkList (Option Nat)}
    {bkt : Int} (returned : call (table.dataList bkt) = (.ok value, after)) :
    inDataList bkt call table = (.ok value, putDataList bkt after table) :=
  within_ok returned

theorem putDataList_self (bkt : Int) : putDataList bkt (table.dataList bkt) table = table := by
  simp only [putDataList, dataList, Function.update_eq_self]

/-- `contains` finds the node of a key. -/
theorem Stands.contains_run (stands : Stands entries table) {ele : Nat} {v : Option V}
    (held : table.elems.cell ele = some ⟨k, v⟩) (new : ∀ e ∈ entries i, e.elem ≠ ele) :
    contains i ele table = (.ok ((table.entryOf k (entries i)).map Entry.node), table) := by
  have compared (e : Entry K V) (member : e ∈ entries i) :
      table.compElem e.slot.2 (some ele) = some (table.compFunc e.k k) := by
    have apart : some e.elem ≠ some ele := fun same => new e member (Option.some.inj same)
    simp only [compElem, Entry.slot, apart, if_false, stands.stored i e member, held, Option.bind_eq_bind,
      Option.bind_some]
  have compares : ∀ slot ∈ (entries i).map Entry.slot, (table.compElem slot.2 (some ele)).isSome := by
    intro slot member
    obtain ⟨e, there, rfl⟩ := List.mem_map.mp member
    rw [compared e there]
    rfl
  refine (bind_ok (read_run _ table)).trans ((inDataList_run ((stands.lists i).contains_run compares)).trans ?_)
  rw [putDataList_self, List.find?_map, Option.map_map, entryOf]
  congr 3
  apply List.find?_congr
  intro e member
  simp only [Function.comp, compared e member, Option.some.injEq]

theorem entryOf_some {list : List (Entry K V)} (found : table.entryOf k list = some e) :
    e ∈ list ∧ table.compFunc e.k k = 0 :=
  ⟨List.mem_of_find?_eq_some found, by simpa using List.find?_some found⟩

theorem entryOf_none {list : List (Entry K V)} (missing : table.entryOf k list = none) (member : e ∈ list) :
    table.compFunc e.k k ≠ 0 :=
  fun same => List.find?_eq_none.mp missing e member (decide_eq_true same)

theorem inElems_run {α : Type} {call : Exec (Heap (Element K V)) α} {value : α} {after : Heap (Element K V)}
    (returned : call table.elems = (.ok value, after)) :
    inElems call table = (.ok value, { table with elems := after }) :=
  within_ok returned

/-- The node of an entry, which leads to its element. -/
theorem Stands.load_run (stands : Stands entries table) (member : e ∈ entries i) :
    ∃ node, inNodes (Heap.load e.node) table = (.ok node, table) ∧ node.data = some e.elem := by
  obtain ⟨node, held, data⟩ := Option.map_eq_some_iff.mp (stands.datas member)
  exact ⟨node, within_ok (Heap.load_run held), data⟩

theorem Stands.valueOf_run (stands : Stands entries table) (member : e ∈ entries i) :
    valueOf (some e.node) table = (.ok e.v, table) := by
  obtain ⟨node, loaded, data⟩ := stands.load_run member
  refine (bind_ok loaded).trans ?_
  rw [data]
  exact bind_ok (inElems_run (Heap.load_run (stands.stored i e member)))

/-- The table while a call has an element of its own. -/
def withElem (table : HashTable K V) (element : Element K V) : HashTable K V :=
  { table with elems := table.elems.push element }

/-- The table behind a call that had an element of its own. -/
def pastElem (table : HashTable K V) (element : Element K V) : HashTable K V :=
  { table with elems := (table.elems.push element).set table.elems.fresh none }

theorem freeElem_run (element : Element K V) :
    freeElem (some table.elems.fresh) (table.withElem element) = (.ok (), table.pastElem element) :=
  inElems_run (Heap.free_run (Heap.push_self element))

/-- `contains` of a call with an element of its own. -/
theorem Stands.contains_own (stands : Stands entries table) (k : K) (v : Option V) :
    contains (table.bucketIndex k) table.elems.fresh (table.withElem ⟨k, v⟩) =
      (.ok ((table.entryOf k (entries (table.bucketIndex k))).map Entry.node), table.withElem ⟨k, v⟩) :=
  (stands.push ⟨k, v⟩).contains_run (Heap.push_self _)
    fun e member => Nat.ne_of_lt (stands.below _ e member)

/-- `find` hands out the value of the entry of the key. -/
theorem Stands.find_run (stands : Stands entries table) (k : K) :
    find k table = (.ok (((table.entryOf k (entries (table.bucketIndex k))).map Entry.v).getD table.defaultValue),
      table.pastElem ⟨k, none⟩) := by
  refine (bind_ok (stands.bucket_run k)).trans ((bind_ok (inElems_run (Heap.alloc_run ⟨k, none⟩))).trans ?_)
  refine (bind_ok (stands.contains_own k none)).trans ?_
  cases found : table.entryOf k (entries (table.bucketIndex k)) with
  | none => exact bind_ok (freeElem_run ⟨k, none⟩)
  | some e =>
    have member := (entryOf_some found).1
    exact (bind_ok ((stands.push ⟨k, none⟩).valueOf_run member)).trans (bind_ok (freeElem_run ⟨k, none⟩))

theorem Stands.del_missing (stands : Stands entries table)
    (missing : table.entryOf k (entries (table.bucketIndex k)) = none) :
    del k table = (.ok false, table.pastElem ⟨k, none⟩) := by
  refine (bind_ok (stands.bucket_run k)).trans ((bind_ok (inElems_run (Heap.alloc_run ⟨k, none⟩))).trans ?_)
  refine (bind_ok (stands.contains_own k none)).trans ?_
  rw [missing]
  exact bind_ok (freeElem_run ⟨k, none⟩)

/-- An entry whose element was written over. -/
def renew (e : Entry K V) (k : K) (v : V) (f : Entry K V) : Entry K V :=
  if f.elem = e.elem then { f with k := k, v := v } else f

theorem renew_slot (e : Entry K V) (k : K) (v : V) (f : Entry K V) : (renew e k v f).slot = f.slot := by
  unfold renew
  split <;> rfl

/-- The new key is equivalent to the one that was there. -/
theorem Stands.renew_key (lawful : Lawful table.hashFunc table.compFunc) (stands : Stands entries table)
    (member : e ∈ entries i) (same : table.compFunc e.k k = 0) (v : V) (there : f ∈ entries j) :
    table.compFunc (renew e k v f).k f.k = 0 := by
  unfold renew
  split
  · rename_i elem
    rw [(stands.elem_inj lawful there member elem).2]
    exact lawful.equivalence.symm same
  · exact lawful.equivalence.refl f.k

/-- The element of an equivalent key is written over. -/
theorem Stands.renewed (stands : Stands entries table) (lawful : Lawful table.hashFunc table.compFunc)
    (member : e ∈ entries i) (same : table.compFunc e.k k = 0) (v : V) :
    Stands (fun j => (entries j).map (renew e k v))
      { table with elems := table.elems.set e.elem (some ⟨k, some v⟩) } := by
  have keys {f : Entry K V} {j : Int} (there : f ∈ entries j) := stands.renew_key lawful member same v there
  refine ⟨stands.positive, ?_, ?_, ?_, ?_, ?_⟩
  · intro j
    rw [List.map_map, show Entry.slot ∘ renew e k v = Entry.slot from funext (renew_slot e k v)]
    exact stands.lists j
  · intro j f renewed
    obtain ⟨f, there, rfl⟩ := List.mem_map.mp renewed
    unfold renew
    split
    · rename_i elem
      rw [elem]
      exact Heap.set_self _
    · rename_i other
      exact (Heap.set_other other _).trans (stands.stored j f there)
  · intro j f renewed
    obtain ⟨f, there, rfl⟩ := List.mem_map.mp renewed
    have elem : (renew e k v f).elem = f.elem := Option.some.inj (congrArg Prod.snd (renew_slot e k v f))
    rw [elem]
    exact stands.below j f there
  · intro j f renewed
    obtain ⟨f, there, rfl⟩ := List.mem_map.mp renewed
    exact (bucketIndex_eq lawful (keys there)).trans (stands.hashed j f there)
  · intro j
    apply List.pairwise_map.mpr
    apply (stands.apart j).imp_of_mem
    intro f g first second apart equal
    have back := lawful.equivalence.symm (keys first)
    exact apart (lawful.equivalence.trans back (lawful.equivalence.trans equal (keys second)))

theorem Stands.addOrReplace_found (stands : Stands entries table) (v : V)
    (found : table.entryOf k (entries (table.bucketIndex k)) = some e) :
    addOrReplace k v table = (.ok false, { table.pastElem ⟨k, some v⟩ with
      elems := (table.pastElem ⟨k, some v⟩).elems.set e.elem (some ⟨k, some v⟩) }) := by
  have member := (entryOf_some found).1
  have stays := stands.pop ⟨k, some v⟩
  obtain ⟨node, loaded, data⟩ := stays.load_run member
  have added : addElem (table.bucketIndex k) k v table = (.ok 0, { table.pastElem ⟨k, some v⟩ with
      elems := (table.pastElem ⟨k, some v⟩).elems.set e.elem (some ⟨k, some v⟩) }) := by
    refine (bind_ok (inElems_run (Heap.alloc_run ⟨k, some v⟩))).trans ?_
    refine (bind_ok (stands.contains_own k (some v))).trans ?_
    rw [found]
    refine (bind_ok (freeElem_run ⟨k, some v⟩)).trans ((bind_ok loaded).trans ?_)
    rw [data]
    exact bind_ok (inElems_run (Heap.modify_run (stays.stored _ e member) _))
  refine (bind_ok (stands.bucket_run k)).trans ((bind_ok added).trans ?_)
  simp

/-- One bucket gets another list of entries. -/
theorem Stands.relisted (lawful : Lawful table.hashFunc table.compFunc) (stands : Stands entries table)
    {list : LinkList (Option Nat)} {own : List (Entry K V)} {elems : Heap (Element K V)} (size : Int)
    (holds : list.Holds (own.map Entry.slot)) (spares : Spares (nodesOf (entries i)) table.nodes list.nodes)
    (grown : table.nodes.fresh ≤ list.nodes.fresh)
    (kept : ∀ j ≠ i, ∀ e ∈ entries j, elems.cell e.elem = table.elems.cell e.elem)
    (more : table.elems.fresh ≤ elems.fresh)
    (stored : ∀ e ∈ own, elems.cell e.elem = some ⟨e.k, some e.v⟩) (below : ∀ e ∈ own, e.elem < elems.fresh)
    (hashed : ∀ e ∈ own, table.bucketIndex e.k = i) (apart : own.Pairwise fun e f => table.compFunc e.k f.k ≠ 0) :
    Stands (Function.update entries i own) { putDataList i list table with elems := elems, size := size } := by
  refine ⟨stands.positive, ?_, ?_, ?_, ?_, ?_⟩
  · intro j
    by_cases here : j = i
    · subst here
      rw [Function.update_self]
      simpa [dataList, putDataList] using holds
    · rw [Function.update_of_ne here]
      have other := (stands.lists j).spared spares (stands.nodes_disjoint lawful here) grown
      simpa [dataList, putDataList, Function.update_of_ne here] using other
  · apply (Function.forall_update_iff entries fun _ es => ∀ e ∈ es, elems.cell e.elem = some ⟨e.k, some e.v⟩).mpr
    exact ⟨stored, fun j other e member => (kept j other e member).trans (stands.stored j e member)⟩
  · apply (Function.forall_update_iff entries fun _ es => ∀ e ∈ es, e.elem < elems.fresh).mpr
    exact ⟨below, fun j _ e member => Nat.lt_of_lt_of_le (stands.below j e member) more⟩
  · apply (Function.forall_update_iff entries fun j es => ∀ e ∈ es, table.bucketIndex e.k = j).mpr
    exact ⟨hashed, fun j _ => stands.hashed j⟩
  · apply (Function.forall_update_iff entries fun _ es => es.Pairwise fun e f => table.compFunc e.k f.k ≠ 0).mpr
    exact ⟨apart, fun j _ => stands.apart j⟩

/-- A key that is not there gets an entry behind the others of its bucket. -/
theorem Stands.addOrReplace_missing (lawful : Lawful table.hashFunc table.compFunc) (stands : Stands entries table)
    (v : V) (missing : table.entryOf k (entries (table.bucketIndex k)) = none) :
    ∃ list, addOrReplace k v table = (.ok true, { putDataList (table.bucketIndex k) list table with
        elems := table.elems.push ⟨k, some v⟩, size := table.size + 1 }) ∧
      Stands (Function.update entries (table.bucketIndex k)
          (entries (table.bucketIndex k) ++ [⟨table.nodes.fresh, table.elems.fresh, k, v⟩]))
        { putDataList (table.bucketIndex k) list table with
          elems := table.elems.push ⟨k, some v⟩, size := table.size + 1 } := by
  obtain ⟨list, run, holds, spares, grown⟩ := (stands.lists (table.bucketIndex k)).append_run (some table.elems.fresh)
  refine ⟨list, ?_, ?_⟩
  · have added : addElem (table.bucketIndex k) k v table =
        (.ok 1, putDataList (table.bucketIndex k) list (table.withElem ⟨k, some v⟩)) := by
      refine (bind_ok (inElems_run (Heap.alloc_run ⟨k, some v⟩))).trans ?_
      refine (bind_ok (stands.contains_own k (some v))).trans ?_
      rw [missing]
      exact bind_ok (inDataList_run run)
    refine (bind_ok (stands.bucket_run k)).trans ((bind_ok added).trans ?_)
    rfl
  · have new (e : Entry K V) (member : e ∈ entries (table.bucketIndex k)) :
        (table.elems.push ⟨k, some v⟩).cell e.elem = table.elems.cell e.elem :=
      Heap.push_other (Nat.ne_of_lt (stands.below _ e member)) _
    apply stands.relisted lawful
    · rw [List.map_append]
      exact holds
    · exact spares
    · exact grown ▸ Nat.le_succ _
    · exact fun j _ e member => Heap.push_other (Nat.ne_of_lt (stands.below j e member)) _
    · exact Nat.le_succ _
    · intro e member
      rcases List.mem_append.mp member with old | last
      · exact (new e old).trans (stands.stored _ e old)
      · obtain rfl := List.mem_singleton.mp last
        exact Heap.push_self _
    · intro e member
      rcases List.mem_append.mp member with old | last
      · exact Nat.lt_succ_of_lt (stands.below _ e old)
      · obtain rfl := List.mem_singleton.mp last
        exact Nat.lt_succ_self _
    · intro e member
      rcases List.mem_append.mp member with old | last
      · exact stands.hashed _ e old
      · obtain rfl := List.mem_singleton.mp last
        rfl
    · apply List.pairwise_append.mpr
      refine ⟨stands.apart _, List.pairwise_singleton _ _, fun e member f last => ?_⟩
      obtain rfl := List.mem_singleton.mp last
      exact entryOf_none missing member

/-- The other keys of a bucket. -/
theorem Stands.others_apart (lawful : Lawful table.hashFunc table.compFunc) (stands : Stands entries table)
    {xs ys : List (Entry K V)} (split : entries i = xs ++ e :: ys) (f : Entry K V) (member : f ∈ xs ++ ys) :
    table.compFunc f.k e.k ≠ 0 := by
  have apart := split ▸ stands.apart i
  obtain ⟨_, behind, before⟩ := List.pairwise_append.mp apart
  rcases List.mem_append.mp member with front | back
  · exact before f front e List.mem_cons_self
  · exact fun same => (List.pairwise_cons.mp behind).1 f back (lawful.equivalence.symm same)

/-- The entry of a key that is there is taken out of its bucket. -/
theorem Stands.del_found (lawful : Lawful table.hashFunc table.compFunc) (stands : Stands entries table)
    {xs ys : List (Entry K V)} (split : entries (table.bucketIndex k) = xs ++ e :: ys)
    (found : table.entryOf k (entries (table.bucketIndex k)) = some e) :
    ∃ list, del k table = (.ok true, { putDataList (table.bucketIndex k) list table with
        elems := ((table.elems.push ⟨k, none⟩).set e.elem none).set table.elems.fresh none, size := table.size - 1 }) ∧
      Stands (Function.update entries (table.bucketIndex k) (xs ++ ys)) { putDataList (table.bucketIndex k) list table with
        elems := ((table.elems.push ⟨k, none⟩).set e.elem none).set table.elems.fresh none, size := table.size - 1 } := by
  have member := (entryOf_some found).1
  have slots : (entries (table.bucketIndex k)).map Entry.slot =
      xs.map Entry.slot ++ (e.node, some e.elem) :: ys.map Entry.slot := by
    rw [split, List.map_append]
    rfl
  have holds := stands.lists (table.bucketIndex k)
  rw [slots] at holds
  obtain ⟨list, run, holds, spares, same⟩ := holds.del_run
  have older (f : Entry K V) {j : Int} (there : f ∈ entries j) : f.elem ≠ table.elems.fresh :=
    Nat.ne_of_lt (stands.below j f there)
  refine ⟨list, ?_, ?_⟩
  · obtain ⟨node, loaded, data⟩ := (stands.push ⟨k, none⟩).load_run member
    have stored := (stands.push ⟨k, none⟩).stored _ e member
    have left : ((table.elems.push ⟨k, none⟩).set e.elem none).cell table.elems.fresh = some ⟨k, none⟩ :=
      (Heap.set_other (Ne.symm (older e member)) none).trans (Heap.push_self _)
    have deleted : inDataList (table.bucketIndex k) (LinkList.del e.node)
          { table with elems := (table.elems.push ⟨k, none⟩).set e.elem none } =
        (.ok (), { putDataList (table.bucketIndex k) list table with
          elems := (table.elems.push ⟨k, none⟩).set e.elem none }) := within_ok run
    refine (bind_ok (stands.bucket_run k)).trans ((bind_ok (inElems_run (Heap.alloc_run ⟨k, none⟩))).trans ?_)
    refine (bind_ok (stands.contains_own k none)).trans ?_
    rw [found]
    refine (bind_ok loaded).trans ?_
    rw [data]
    refine (bind_ok (inElems_run (Heap.free_run stored))).trans ((bind_ok deleted).trans ?_)
    exact (bind_ok (update_run _ _)).trans (bind_ok (inElems_run (Heap.free_run left)))
  · have others := stands.others_apart lawful split
    have kept (f : Entry K V) {j : Int} (there : f ∈ entries j) (other : f.elem ≠ e.elem) :
        (((table.elems.push ⟨k, none⟩).set e.elem none).set table.elems.fresh none).cell f.elem =
          table.elems.cell f.elem := by
      rw [Heap.set_other (older f there), Heap.set_other other, Heap.push_other (older f there)]
    have inside (f : Entry K V) (there : f ∈ xs ++ ys) : f ∈ entries (table.bucketIndex k) :=
      split ▸ ((List.sublist_cons_self e ys).append_left xs).subset there
    apply stands.relisted lawful
    · rw [List.map_append]
      exact holds
    · rw [nodesOf, slots]
      exact spares
    · exact Nat.le_of_eq same.symm
    · intro j other f there
      exact kept f there fun elem => other (stands.elem_inj lawful there member elem).1
    · exact Nat.le_succ _
    · intro f there
      refine (kept f (inside f there) fun elem => ?_).trans (stands.stored _ f (inside f there))
      apply others f there
      rw [(stands.elem_inj lawful (inside f there) member elem).2]
      exact lawful.equivalence.refl e.k
    · exact fun f there => Nat.lt_succ_of_lt (stands.below _ f (inside f there))
    · exact fun f there => stands.hashed _ f (inside f there)
    · exact (split ▸ stands.apart _).sublist ((List.sublist_cons_self e ys).append_left xs)

end HashTable

end Tool

end Pingkv
