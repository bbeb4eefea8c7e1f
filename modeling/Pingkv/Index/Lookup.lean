import Pingkv.Index.Create
import Pingkv.Index.Delete

/-! An index seen as a map: the value each key has, and what the calls make of it. -/

namespace Pingkv

open SearchTree

namespace KvIndex

open Exec DataFile

variable {file after : DataFile} {rows rows' : Rows} {tree tree' : Tree} {key value : Buf} {row : RecordId}
  {spot spot' : Spot Key Slot}

/-- The value of a key, none for a key that has no value. -/
noncomputable def lookup (rows : Rows) (tree : Tree) (key : Key) : Option (List UInt8) :=
  open Classical in if ends : ∃ spot, Walk tree key 2 spot then stored rows ends.choose else none

theorem lookup_walk {key : Key} (walk : Walk tree key 2 spot) : lookup rows tree key = stored rows spot := by
  have ends : ∃ spot, Walk tree key 2 spot := ⟨spot, walk⟩
  rw [lookup, dif_pos ends, ends.choose_spec.unique walk]

/-- The bytes `_get` hands out. -/
def answers (key : Buf) (file : DataFile) : Except Stop (Option (List UInt8)) :=
  (Inner.get key file).1.map (Option.map Buf.toList)

/-- Every node has twelve bytes left for the record `_find_pos` clears. -/
def Roomy (tree : Tree) : Prop := ∀ id records, tree id = some records → 0 ≤ freeSpace records

/-- Every record has a value. -/
def Full (tree : Tree) : Prop := ∀ id records, tree id = some records → ∀ record ∈ records, record.value ≠ none

theorem rootTree_roomy : Roomy rootTree := by
  intro id records present
  rw [rootTree_records present]
  decide

theorem rootTree_full : Full rootTree := by
  intro id records present
  rw [rootTree_records present]
  simp

theorem Roomy.clears {key : Key} (roomy : Roomy tree) (walk : Walk tree key 2 spot) : Clears spot := by
  cases spot with
  | past id records =>
    have space := roomy id records walk.here.1
    simp only [freeSpace] at space
    simp only [Clears]
    omega
  | held | gap => trivial

theorem Full.unfreed {key : Key} (full : Full tree) : Unfreed tree key 2 :=
  fun id before record later _ node _ _ => full id _ node record (by simp)

/-- `_get` answers what the map has. -/
theorem answers_lookup (index : Index file rows tree) (walk : Walk tree key.toList 2 spot) (small : key.len < 2 ^ 32)
    (clears : key.len ≤ 8124 → Clears spot) : answers key file = .ok (lookup rows tree key.toList) := by
  obtain ⟨result, after, got, _, same⟩ := get_run index walk small clears
  rw [answers, got, lookup_walk walk, ← same]
  rfl

/-- Without room for a cleared record `_get` writes past the end of a node. -/
theorem answers_full (index : Index file rows tree) (walk : Walk tree key.toList 2 spot) (short : key.len ≤ 8124)
    (full : ¬ Clears spot) : answers key file = .error .fault := by
  obtain ⟨after, got, _⟩ := get_full index walk short full
  rw [answers, got]
  rfl

theorem clears_iff : Clears spot ↔ 16 + (spot.passed.map fun key => 12 + key.length).sum + 12 ≤ 8152 := by
  cases spot with
  | past id records =>
    simp only [Clears, Spot.passed, span, List.map_map]
    rfl
  | held | gap => simp [Clears, Spot.passed]

/-- Two keys with one value row are the same. -/
theorem key_unique {key other : Key} (disk : OnDisk rows tree) (walk : Walk tree key 2 spot)
    (walk' : Walk tree other 2 spot') (named : spot.value = some (some row)) (named' : spot'.value = some (some row)) :
    key = other := by
  cases spot with
  | past | gap => cases named
  | held id before record later =>
    cases spot' with
    | past | gap => cases named'
    | held id' before' record' later' =>
      obtain ⟨node, _, same⟩ := walk.here
      obtain ⟨node', _, same'⟩ := walk'.here
      obtain ⟨_, _, rfl, _⟩ := disk.distinct.same node (Option.some.inj named) node' (Option.some.inj named')
      exact same.symm.trans same'

/-- A search that ends alike over the same value rows finds the same bytes. -/
theorem stored_congr (value : spot'.value = spot.value)
    (kept : ∀ row, spot.value = some (some row) → rows' row = rows row) : stored rows' spot' = stored rows spot := by
  unfold stored
  rw [value]
  match found : spot.value with
  | some (some row) => simp only [kept row found]
  | some none | none => rfl

/-- `_set` changes the map at its key only. -/
theorem SetDone.lookup (done : SetDone file after rows rows' tree tree' key value spot row)
    (index : Index file rows tree) (walk : Walk tree key.toList 2 spot) :
    lookup rows' tree' = Function.update (lookup rows tree) key.toList
      (some (value.toList ++ List.replicate (leftover file spot value.len) 0)) := by
  funext other
  by_cases same : other = key.toList
  · subst same
    obtain ⟨spot', walk', found⟩ := done.put.walk_self walk
    rw [Function.update_self, lookup_walk walk', stored, found]
    simp only [done.content, Option.join_some]
  · obtain ⟨spot', walk'⟩ := index.walk other
    obtain ⟨spot'', walk'', found⟩ := done.put.walk walk walk' same
    rw [Function.update_of_ne same, lookup_walk walk'', lookup_walk walk']
    refine stored_congr found fun named value => ?_
    have names := walk_names walk' value
    refine done.kept named names ?_
    rintro rfl
    rcases done.put.spot_value with none | own
    · exact index.fresh_name (done.fresh none) names
    · exact same (key_unique index.disk walk' walk value own)

/-- A value deleted from the root is gone from the map. -/
theorem lookup_erase {before later : List Record} {record : Record} {content : Option (List UInt8)} {key : Key}
    (index : Index file rows tree) (walk : Walk tree key 2 (.held 2 before record later))
    (named : record.value = some row) :
    lookup ((rows.put row none).put (nodeRow 2) content) (replace tree 2 before { record with value := none } later) =
      Function.update (lookup rows tree) key none := by
  obtain ⟨node, lower, same⟩ := walk.here
  funext other
  by_cases equal : other = key
  · subst equal
    rw [Function.update_self, lookup_walk (value_walk_self none walk)]
    rfl
  · obtain ⟨spot', walk'⟩ := index.walk other
    obtain ⟨spot'', walk'', found, _⟩ := value_walk none walk' node fun equal' => equal (equal'.symm.trans same)
    rw [Function.update_of_ne equal, lookup_walk walk'', lookup_walk walk']
    refine stored_congr found fun row' value => ?_
    have names := walk_names walk' value
    have different : row' ≠ row := by
      rintro rfl
      exact equal (key_unique index.disk walk' walk value (congrArg some named))
    rw [Rows.put_ne (index.disk.apart row' names 2 (by simp [node])), Rows.put_ne different]

/-- There are twelve bytes more than a record with a key of this length takes
where a search ends. -/
def RoomFor (len : Nat) : Spot Key Slot → Prop
  | .held .. => True
  | .past _ records => 12 + len ≤ freeSpace records
  | .gap .. => 12 + len ≤ freeSpace []

theorem RoomFor.accepts {len : Nat} (room : RoomFor len spot) : Accepts len spot := by
  cases spot with
  | held => trivial
  | past id records =>
    simp only [RoomFor, freeSpace] at room
    simp only [Accepts]
    omega
  | gap =>
    simp only [RoomFor, freeSpace, span_nil] at room
    simp only [Accepts]
    omega

theorem SetDone.roomy (done : SetDone file after rows rows' tree tree' key value spot row)
    (walk : Walk tree key.toList 2 spot) (room : RoomFor key.len spot) (roomy : Roomy tree) : Roomy tree' := by
  refine done.put.nodes (fun records => 0 ≤ freeSpace records) walk.here roomy ?_ ?_ ?_
  · intro before record later left space
    simpa [freeSpace, recordLen] using space
  · rintro id records rfl
    simp only [RoomFor, freeSpace] at room
    simp only [freeSpace, span_append, span_cons, span_nil, recordLen, Buf.toList_length]
    omega
  · rintro id before record later rfl
    simp only [RoomFor, freeSpace, span_nil] at room
    simp only [freeSpace, span_cons, span_nil, recordLen, Buf.toList_length]
    omega

theorem SetDone.full (done : SetDone file after rows rows' tree tree' key value spot row)
    (walk : Walk tree key.toList 2 spot) (full : Full tree) : Full tree' := by
  refine done.put.nodes (fun records => ∀ record ∈ records, record.value ≠ none) walk.here full ?_ ?_ ?_
  · intro before record later left all
    simpa [or_imp, forall_and] using all
  · rintro id records rfl
    have old := full id records walk.here.1
    simpa [or_imp, forall_and] using old
  · rintro id before record later rfl
    simp

end KvIndex

end Pingkv
