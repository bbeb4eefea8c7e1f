import Mathlib.Data.Finmap
import Mathlib.Data.Set.Card
import Pingkv.Tool.Entries

/-! What a `hash_table` holds: a finite map from the classes of equivalent keys
to values, which every call reads and changes alike. -/

namespace Pingkv

open Exec

namespace Tool

namespace Lawful

variable {K : Type} {hashFunc : K → Int64} {compFunc : K → K → Int}

@[reducible] def setoid (lawful : Lawful hashFunc compFunc) : Setoid K := ⟨_, lawful.equivalence⟩

/-- The classes of equivalent keys. -/
def Key (lawful : Lawful hashFunc compFunc) : Type := Quotient lawful.setoid

def key (lawful : Lawful hashFunc compFunc) (k : K) : lawful.Key := Quotient.mk lawful.setoid k

theorem key_eq (lawful : Lawful hashFunc compFunc) {a b : K} : lawful.key a = lawful.key b ↔ compFunc a b = 0 :=
  Quotient.eq (r := lawful.setoid)

instance (lawful : Lawful hashFunc compFunc) : DecidableEq lawful.Key :=
  have : ∀ a b : K, Decidable (lawful.setoid a b) := fun a b => inferInstanceAs (Decidable (compFunc a b = 0))
  inferInstanceAs (DecidableEq (Quotient lawful.setoid))

end Lawful

namespace HashTable

variable {K V : Type} {hashFunc : K → Int64} {compFunc : K → K → Int}

/-- The values by the classes of their keys. -/
abbrev Contents (lawful : Lawful hashFunc compFunc) (V : Type) : Type := Finmap fun _ : lawful.Key => V

namespace Call

/-- The contents behind a call. -/
def applied (lawful : Lawful hashFunc compFunc) (contents : Contents lawful V) : Call K V → Contents lawful V
  | .addOrReplace k v => contents.insert (lawful.key k) v
  | .del k => contents.erase (lawful.key k)
  | _ => contents

/-- What a call hands out of the contents. -/
def answer (lawful : Lawful hashFunc compFunc) (defaultValue : V) (contents : Contents lawful V) :
    Call K V → Answer V
  | .find k => .value ((contents.lookup (lawful.key k)).getD defaultValue)
  | .addOrReplace k _ => .flag (contents.lookup (lawful.key k)).isNone
  | .del k => .flag (contents.lookup (lawful.key k)).isSome
  | .size => .count contents.keys.card

end Call

/-- The entries are those of the contents. -/
def Represents (lawful : Lawful hashFunc compFunc) (contents : Contents lawful V) (entries : Int → List (Entry K V)) :
    Prop :=
  ∀ key v, contents.lookup key = some v ↔ ∃ i, ∃ e ∈ entries i, lawful.key e.k = key ∧ e.v = v

/-- A table that holds the contents. -/
structure Refines (lawful : Lawful hashFunc compFunc) (defaultValue : V) (contents : Contents lawful V)
    (table : HashTable K V) : Prop where
  sameHash : table.hashFunc = hashFunc
  sameComp : table.compFunc = compFunc
  sameDefault : table.defaultValue = defaultValue
  size : table.size = contents.keys.card
  entries : ∃ entries, Stands entries table ∧ Represents lawful contents entries

section Entries

variable {table : HashTable K V} {entries : Int → List (Entry K V)} {e : Entry K V} {i : Int} {k : K}

variable (lawful : Lawful table.hashFunc table.compFunc) {contents : Contents lawful V}

/-- A key is looked up in its bucket. -/
theorem Represents.lookup (represents : Represents lawful contents entries) (stands : Stands entries table) (k : K) :
    contents.lookup (lawful.key k) = (table.entryOf k (entries (table.bucketIndex k))).map Entry.v := by
  cases found : table.entryOf k (entries (table.bucketIndex k)) with
  | none =>
    rw [Option.map_none, Option.eq_none_iff_forall_ne_some]
    intro v held
    obtain ⟨i, e, member, key, _⟩ := (represents _ v).mp held
    have same := lawful.key_eq.mp key
    have index : i = table.bucketIndex k := (stands.hashed i e member).symm.trans (bucketIndex_eq lawful same)
    exact entryOf_none found (index ▸ member) same
  | some e =>
    obtain ⟨member, same⟩ := entryOf_some found
    exact (represents _ e.v).mpr ⟨_, e, member, lawful.key_eq.mpr same, rfl⟩

/-- The value of a key is written over. -/
theorem Represents.renewed (represents : Represents lawful contents entries) (stands : Stands entries table)
    (member : e ∈ entries i) (same : table.compFunc e.k k = 0) (v : V) :
    Represents lawful (contents.insert (lawful.key k) v) fun j => (entries j).map (renew e k v) := by
  intro key w
  have keys {f : Entry K V} {j : Int} (there : f ∈ entries j) : lawful.key (renew e k v f).k = lawful.key f.k :=
    lawful.key_eq.mpr (stands.renew_key lawful member same v there)
  by_cases own : key = lawful.key k
  · subst own
    rw [Finmap.lookup_insert, Option.some.injEq]
    constructor
    · rintro rfl
      refine ⟨i, renew e k v e, List.mem_map_of_mem member, ?_, ?_⟩
      · exact (keys member).trans (lawful.key_eq.mpr same)
      · rw [renew, if_pos rfl]
    · rintro ⟨j, _, written, equal, rfl⟩
      obtain ⟨f, there, rfl⟩ := List.mem_map.mp written
      have same' : lawful.key f.k = lawful.key e.k :=
        (keys there).symm.trans (equal.trans (lawful.key_eq.mpr same).symm)
      rw [(stands.unique lawful there member (lawful.key_eq.mp same')).2, renew, if_pos rfl]
  · rw [Finmap.lookup_insert_of_ne _ own, represents key w]
    have kept {f : Entry K V} (other : lawful.key f.k = key) {j : Int} (there : f ∈ entries j) : renew e k v f = f := by
      apply if_neg
      intro elem
      apply own
      rw [← other, (stands.elem_inj lawful there member elem).2]
      exact lawful.key_eq.mpr same
    constructor
    · rintro ⟨j, f, there, equal, rfl⟩
      exact ⟨j, f, List.mem_map.mpr ⟨f, there, kept equal there⟩, equal, rfl⟩
    · rintro ⟨j, _, written, equal, rfl⟩
      obtain ⟨f, there, rfl⟩ := List.mem_map.mp written
      have equal' : lawful.key f.k = key := (keys there).symm.trans equal
      exact ⟨j, f, there, equal', (congrArg Entry.v (kept equal' there)).symm⟩

theorem exists_mem_update {own : List (Entry K V)} {P : Entry K V → Prop} :
    (∃ j, ∃ e ∈ Function.update entries i own j, P e) ↔ (∃ e ∈ own, P e) ∨ ∃ j ≠ i, ∃ e ∈ entries j, P e := by
  constructor
  · rintro ⟨j, e, member, holds⟩
    by_cases here : j = i
    · subst here
      rw [Function.update_self] at member
      exact .inl ⟨e, member, holds⟩
    · rw [Function.update_of_ne here] at member
      exact .inr ⟨j, here, e, member, holds⟩
  · rintro (⟨e, member, holds⟩ | ⟨j, here, e, member, holds⟩)
    · exact ⟨i, e, by rwa [Function.update_self], holds⟩
    · exact ⟨j, e, by rwa [Function.update_of_ne here], holds⟩

/-- A key that was not there got an entry. -/
theorem Represents.appended (represents : Represents lawful contents entries)
    (missing : contents.lookup (lawful.key k) = none) (node elem : Nat) (v : V) :
    Represents lawful (contents.insert (lawful.key k) v)
      (Function.update entries i (entries i ++ [⟨node, elem, k, v⟩])) := by
  intro key w
  have old : (∃ j, ∃ e ∈ Function.update entries i (entries i ++ [⟨node, elem, k, v⟩]) j, lawful.key e.k = key ∧ e.v = w) ↔
      contents.lookup key = some w ∨ lawful.key k = key ∧ v = w := by
    rw [exists_mem_update, represents key w]
    constructor
    · rintro (⟨e, member, holds⟩ | ⟨j, _, e, member, holds⟩)
      · rcases List.mem_append.mp member with old | last
        · exact .inl ⟨i, e, old, holds⟩
        · obtain rfl := List.mem_singleton.mp last
          exact .inr holds
      · exact .inl ⟨j, e, member, holds⟩
    · rintro (⟨j, e, member, holds⟩ | holds)
      · by_cases here : j = i
        · subst here
          exact .inl ⟨e, List.mem_append_left _ member, holds⟩
        · exact .inr ⟨j, here, e, member, holds⟩
      · exact .inl ⟨_, List.mem_append_right _ List.mem_cons_self, holds⟩
  rw [old]
  by_cases own : key = lawful.key k
  · subst own
    simp [missing]
  · rw [Finmap.lookup_insert_of_ne _ own]
    simp [Ne.symm own]

/-- The entry of a key is gone. -/
theorem Represents.deleted (represents : Represents lawful contents entries) (stands : Stands entries table)
    {xs ys : List (Entry K V)} (split : entries i = xs ++ e :: ys) (same : table.compFunc e.k k = 0) :
    Represents lawful (contents.erase (lawful.key k)) (Function.update entries i (xs ++ ys)) := by
  intro key w
  have member : e ∈ entries i := split ▸ List.mem_append_right xs List.mem_cons_self
  have classes : lawful.key e.k = lawful.key k := lawful.key_eq.mpr same
  rw [exists_mem_update]
  by_cases own : key = lawful.key k
  · subst own
    simp only [Finmap.lookup_erase, reduceCtorEq, false_iff]
    rintro (⟨f, there, equal, _⟩ | ⟨j, other, f, there, equal, _⟩)
    · exact stands.others_apart lawful split f there (lawful.key_eq.mp (equal.trans classes.symm))
    · exact other (stands.unique lawful there member (lawful.key_eq.mp (equal.trans classes.symm))).1
  · rw [Finmap.lookup_erase_ne own, represents key w]
    constructor
    · rintro ⟨j, f, there, equal, rfl⟩
      by_cases here : j = i
      · subst here
        have other : f ≠ e := by
          rintro rfl
          exact own (equal.symm.trans classes)
        rw [split] at there
        have left : f ∈ xs ++ ys := by
          simpa [other] using there
        exact .inl ⟨f, left, equal, rfl⟩
      · exact .inr ⟨j, here, f, there, equal, rfl⟩
    · rintro (⟨f, there, holds⟩ | ⟨j, _, f, there, holds⟩)
      · exact ⟨i, f, split ▸ ((List.sublist_cons_self e ys).append_left xs).subset there, holds⟩
      · exact ⟨j, f, there, holds⟩

end Entries

section Calls

variable {table : HashTable K V} {lawful : Lawful hashFunc compFunc} {contents : Contents lawful V} {k : K}
  {defaultValue : V}

theorem keys_insert (key : lawful.Key) (v : V) : (contents.insert key v).keys = insert key contents.keys := by
  ext other
  rw [Finmap.mem_keys, Finmap.mem_insert, Finset.mem_insert, Finmap.mem_keys]

theorem mem_keys_of_lookup {key : lawful.Key} {v : V} (held : contents.lookup key = some v) : key ∈ contents.keys :=
  Finmap.mem_keys.mpr (Finmap.mem_of_lookup_eq_some held)

theorem erase_missing {key : lawful.Key} (missing : contents.lookup key = none) : contents.erase key = contents := by
  apply Finmap.ext_lookup
  intro other
  by_cases own : other = key
  · rw [own, Finmap.lookup_erase, missing]
  · exact Finmap.lookup_erase_ne own

theorem Refines.find (refines : Refines lawful defaultValue contents table) (k : K) :
    ∃ after, HashTable.find k table = (.ok ((contents.lookup (lawful.key k)).getD defaultValue), after) ∧
      Refines lawful defaultValue contents after := by
  obtain ⟨rfl, rfl, rfl, size, entries, stands, represents⟩ := refines
  rw [represents.lookup lawful stands k]
  exact ⟨_, stands.find_run k, rfl, rfl, rfl, size, entries, stands.pop _, represents⟩

theorem Refines.addOrReplace (refines : Refines lawful defaultValue contents table) (k : K) (v : V) :
    ∃ after, HashTable.addOrReplace k v table = (.ok (contents.lookup (lawful.key k)).isNone, after) ∧
      Refines lawful defaultValue (contents.insert (lawful.key k) v) after := by
  obtain ⟨rfl, rfl, rfl, size, entries, stands, represents⟩ := refines
  have lookup := represents.lookup lawful stands k
  cases found : table.entryOf k (entries (table.bucketIndex k)) with
  | none =>
    rw [found] at lookup
    have missing : lawful.key k ∉ contents.keys := fun member =>
      Finmap.lookup_eq_none.mp lookup (Finmap.mem_keys.mp member)
    obtain ⟨list, run, stands⟩ := stands.addOrReplace_missing lawful v found
    rw [lookup]
    refine ⟨_, run, rfl, rfl, rfl, ?_, _, stands, represents.appended lawful lookup _ _ v⟩
    rw [keys_insert, Finset.card_insert_of_notMem missing, Nat.cast_succ, ← size]
  | some e =>
    rw [found] at lookup
    obtain ⟨member, same⟩ := entryOf_some found
    have past : Stands entries (table.pastElem ⟨k, some v⟩) := stands.pop _
    rw [lookup]
    refine ⟨_, stands.addOrReplace_found v found, rfl, rfl, rfl, ?_, _, past.renewed lawful member same v,
      represents.renewed lawful stands member same v⟩
    rw [keys_insert, Finset.insert_eq_of_mem (mem_keys_of_lookup lookup)]
    exact size

theorem Refines.del (refines : Refines lawful defaultValue contents table) (k : K) :
    ∃ after, HashTable.del k table = (.ok (contents.lookup (lawful.key k)).isSome, after) ∧
      Refines lawful defaultValue (contents.erase (lawful.key k)) after := by
  obtain ⟨rfl, rfl, rfl, size, entries, stands, represents⟩ := refines
  have lookup := represents.lookup lawful stands k
  cases found : table.entryOf k (entries (table.bucketIndex k)) with
  | none =>
    rw [found] at lookup
    rw [lookup, erase_missing lookup]
    exact ⟨_, stands.del_missing found, rfl, rfl, rfl, size, entries, stands.pop _, represents⟩
  | some e =>
    rw [found] at lookup
    obtain ⟨member, same⟩ := entryOf_some found
    obtain ⟨xs, ys, split⟩ := List.append_of_mem member
    obtain ⟨list, run, after⟩ := stands.del_found lawful split found
    rw [lookup]
    refine ⟨_, run, rfl, rfl, rfl, ?_, _, after, represents.deleted lawful stands split same⟩
    have key := mem_keys_of_lookup lookup
    rw [Finmap.keys_erase, Finset.card_erase_of_mem key, Nat.cast_pred (Finset.card_pos.mpr ⟨_, key⟩), ← size]

/-- Each call hands out of the table what it hands out of the contents. -/
theorem Refines.perform (refines : Refines lawful defaultValue contents table) (call : Call K V) :
    ∃ after, call.perform table = (.ok (call.answer lawful defaultValue contents), after) ∧
      Refines lawful defaultValue (call.applied lawful contents) after := by
  cases call with
  | find k =>
    obtain ⟨after, run, refines⟩ := refines.find k
    exact ⟨after, bind_ok run, refines⟩
  | addOrReplace k v =>
    obtain ⟨after, run, refines⟩ := refines.addOrReplace k v
    exact ⟨after, bind_ok run, refines⟩
  | del k =>
    obtain ⟨after, run, refines⟩ := refines.del k
    exact ⟨after, bind_ok run, refines⟩
  | size =>
    refine ⟨table, ?_, refines⟩
    rw [Call.answer, ← refines.size]
    rfl

/-- The contents behind some calls. -/
def contentsOf (lawful : Lawful hashFunc compFunc) (calls : List (Call K V)) : Contents lawful V :=
  calls.foldl (fun contents call => call.applied lawful contents) ∅

theorem Refines.run (refines : Refines lawful defaultValue contents table) (calls : List (Call K V)) :
    ∃ after, HashTable.run calls table = (.ok (), after) ∧
      Refines lawful defaultValue (calls.foldl (fun contents call => call.applied lawful contents) contents) after := by
  induction calls generalizing contents table with
  | nil => exact ⟨table, rfl, refines⟩
  | cons call rest ih =>
    obtain ⟨between, performed, refines⟩ := refines.perform call
    obtain ⟨after, run, refines⟩ := ih refines
    exact ⟨after, (bind_ok performed).trans run, refines⟩

end Calls

section Start

variable {bucketCount : Int} {defaultValue : V} {table : HashTable K V}

theorem doubleUp_bounds {fuel : Nat} {i count : Int} (ends : doubleUp bucketCount fuel i = some count)
    (small : i < 2147483648) : bucketCount ≤ count ∧ count < 2147483648 := by
  induction fuel generalizing i with
  | zero => cases ends
  | succ fuel ih =>
    unfold doubleUp at ends
    split at ends
    · exact ih ends (wrap_32_bounds _).2
    · rename_i enough
      obtain rfl := Option.some.inj ends
      exact ⟨Int.not_lt.mp enough, small⟩

theorem makeBucketCount_bounds {count : Int} (ends : makeBucketCount bucketCount = some count) :
    0 < count ∧ count < 2147483648 := by
  obtain ⟨enough, small⟩ := doubleUp_bounds ends (by decide)
  refine ⟨?_, small⟩
  by_cases first : (128 : Int) < bucketCount
  · omega
  · simp only [makeBucketCount, doubleUp, first, if_false, Option.some.injEq] at ends
    omega

/-- A new table holds nothing. -/
theorem init_refines (lawful : Lawful hashFunc compFunc)
    (started : init bucketCount defaultValue hashFunc compFunc = some table) : Refines lawful defaultValue ∅ table := by
  obtain ⟨count, counted, rfl⟩ := Option.map_eq_some_iff.mp started
  obtain ⟨positive, small⟩ := makeBucketCount_bounds counted
  refine ⟨rfl, rfl, rfl, rfl, fun _ => [], ⟨?_, ?_, ?_, ?_, ?_, ?_⟩, ?_⟩
  · rwa [Int64.toInt_ofInt_of_le (by omega) (by omega)]
  · exact fun _ => LinkList.init_holds .empty
  · exact fun _ => List.forall_mem_nil _
  · exact fun _ => List.forall_mem_nil _
  · exact fun _ => List.forall_mem_nil _
  · exact fun _ => .nil
  · intro key v
    rw [Finmap.lookup_empty]
    simp

end Start

section History

variable {lawful : Lawful hashFunc compFunc} {past : List (Call K V)}

/-- A call that adds or deletes a key equivalent to `k`. -/
def touches (compFunc : K → K → Int) (k : K) : Call K V → Bool
  | .addOrReplace other _ => decide (compFunc other k = 0)
  | .del other => decide (compFunc other k = 0)
  | _ => false

/-- The value of the last call that added the key, if none has deleted it since. -/
def lastValue (compFunc : K → K → Int) (past : List (Call K V)) (k : K) : Option V :=
  match (past.filter (touches compFunc k)).getLast? with
  | some (.addOrReplace _ v) => some v
  | _ => none

/-- The distinct keys that are present. -/
def keysPresent (lawful : Lawful hashFunc compFunc) (past : List (Call K V)) : Set lawful.Key :=
  { key | ∃ k, lawful.key k = key ∧ (lastValue compFunc past k).isSome }

/-- What a call hands out behind other calls. -/
noncomputable def historyAnswer (lawful : Lawful hashFunc compFunc) (defaultValue : V) (past : List (Call K V)) :
    Call K V → Answer V
  | .find k => .value ((lastValue compFunc past k).getD defaultValue)
  | .addOrReplace k _ => .flag (lastValue compFunc past k).isNone
  | .del k => .flag (lastValue compFunc past k).isSome
  | .size => .count (keysPresent lawful past).ncard

theorem lastValue_append (past : List (Call K V)) (call : Call K V) (k : K) : lastValue compFunc (past ++ [call]) k =
    if touches compFunc k call then lastValue compFunc [call] k else lastValue compFunc past k := by
  unfold lastValue
  rw [List.filter_append, List.filter_singleton]
  cases touches compFunc k call with
  | false => simp
  | true => simp

/-- The contents are the last values of the keys. -/
theorem lookup_contentsOf (past : List (Call K V)) (k : K) :
    (contentsOf lawful past).lookup (lawful.key k) = lastValue compFunc past k := by
  induction past using List.reverseRecOn with
  | nil => rfl
  | append_singleton past call ih =>
    rw [contentsOf, List.foldl_append, ← contentsOf, List.foldl_cons, List.foldl_nil, lastValue_append, ← ih]
    cases call with
    | find other => rfl
    | size => rfl
    | addOrReplace other v =>
      by_cases same : compFunc other k = 0
      · rw [Call.applied, lawful.key_eq.mpr same, Finmap.lookup_insert]
        simp [touches, lastValue, same]
      · rw [Call.applied, Finmap.lookup_insert_of_ne _ fun key => same (lawful.key_eq.mp key.symm)]
        simp [touches, same]
    | del other =>
      by_cases same : compFunc other k = 0
      · rw [Call.applied, lawful.key_eq.mpr same, Finmap.lookup_erase]
        simp [touches, lastValue, same]
      · rw [Call.applied, Finmap.lookup_erase_ne fun key => same (lawful.key_eq.mp key.symm)]
        simp [touches, same]

theorem keys_contentsOf (past : List (Call K V)) : ((contentsOf lawful past).keys : Set lawful.Key) = keysPresent lawful past := by
  ext key
  obtain ⟨k, rfl⟩ : ∃ k, lawful.key k = key := Quotient.exists_rep key
  rw [Finset.mem_coe, Finmap.mem_keys, ← Finmap.lookup_isSome]
  constructor
  · intro held
    rw [lookup_contentsOf] at held
    exact ⟨k, rfl, held⟩
  · rintro ⟨other, same, held⟩
    rw [← same, lookup_contentsOf]
    exact held

theorem answer_contentsOf (defaultValue : V) (past : List (Call K V)) (call : Call K V) :
    call.answer lawful defaultValue (contentsOf lawful past) = historyAnswer lawful defaultValue past call := by
  cases call with
  | find k => rw [Call.answer, historyAnswer, lookup_contentsOf]
  | addOrReplace k v => rw [Call.answer, historyAnswer, lookup_contentsOf]
  | del k => rw [Call.answer, historyAnswer, lookup_contentsOf]
  | size => rw [Call.answer, historyAnswer, ← keys_contentsOf, Set.ncard_coe_finset]

/-- Behind any calls, the next one hands out what the last values of the keys say. -/
theorem perform_history (lawful : Lawful hashFunc compFunc) {bucketCount : Int} {defaultValue : V}
    {table : HashTable K V} (started : init bucketCount defaultValue hashFunc compFunc = some table)
    (past : List (Call K V)) (call : Call K V) :
    ∃ reached after, run past table = (.ok (), reached) ∧
      call.perform reached = (.ok (historyAnswer lawful defaultValue past call), after) := by
  obtain ⟨reached, ran, refines⟩ := (init_refines lawful started).run past
  obtain ⟨after, performed, _⟩ := refines.perform call
  refine ⟨reached, after, ran, ?_⟩
  rw [← answer_contentsOf]
  exact performed

/-- Integers that are told apart by their difference, with themselves as hash. -/
theorem lawful_sub : Lawful (fun k : Int => Int64.ofInt k) fun a b => a - b where
  equivalence := ⟨fun a => Int.sub_self a, fun same => by omega, fun first second => by omega⟩
  hash a b same := congrArg Int64.ofInt (Int.sub_eq_zero.mp same)

/-- -1 and 127 fall into one bucket; the first is replaced and the second deleted. -/
theorem perform_history_collision : ∃ table reached after,
    init 3 0 (fun k : Int => Int64.ofInt k) (fun a b => a - b) = some table ∧
    run [.addOrReplace (-1) 5, .addOrReplace 127 6, .addOrReplace (-1) 7, .del 127] table = (.ok (), reached) ∧
    (Call.find (-1)).perform reached = (.ok (.value (7 : Nat)), after) := by
  obtain ⟨table, started⟩ : ∃ table : HashTable Int Nat,
      init 3 0 (fun k : Int => Int64.ofInt k) (fun a b => a - b) = some table := ⟨_, rfl⟩
  obtain ⟨reached, after, ran, found⟩ := perform_history lawful_sub started
    [.addOrReplace (-1) 5, .addOrReplace 127 6, .addOrReplace (-1) 7, .del 127] (.find (-1))
  exact ⟨table, reached, after, started, ran, found⟩

end History

end HashTable

end Tool

end Pingkv
