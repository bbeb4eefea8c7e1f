import Pingkv.Index.Lookup

/-! A well-formed index stays one when a key is set where there is room for it. -/

namespace Pingkv

open SearchTree

namespace KvIndex

open Exec DataFile

/-- An index whose records all name values and whose nodes have
`_node_free_space` at least 0. -/
structure WellFormed (file : DataFile) (rows : Rows) (tree : Tree) : Prop where
  index : Index file rows tree
  full : Full tree
  roomy : Roomy tree

variable {file after : DataFile} {rows rows' : Rows} {tree tree' : Tree} {key value : Buf} {row : RecordId}
  {spot : Spot Key Slot}

theorem WellFormed.find (wellFormed : WellFormed file rows tree) (walk : Walk tree key.toList 2 spot)
    (short : key.len < 2 ^ 15) : (KvIndex.find key file).1 = .ok (answer spot) := by
  obtain ⟨after, found, _⟩ := find_run wellFormed.index walk (by omega) fun _ => wellFormed.roomy.clears walk
  rw [found]

theorem SetDone.wellFormed (done : SetDone file after rows rows' tree tree' key value spot row)
    (wellFormed : WellFormed file rows tree) (walk : Walk tree key.toList 2 spot) (room : RoomFor key.len spot) :
    WellFormed after rows' tree' :=
  ⟨done.index, done.full walk wellFormed.full, done.roomy walk room wellFormed.roomy⟩

/-- What `_set` makes of a well-formed index. -/
structure Kept (before after : DataFile) (rows : Rows) (key value : Buf) (rows' : Rows) (tree' : Tree)
    (row : RecordId) : Prop where
  wellFormed : WellFormed after rows' tree'
  found : (find key after).1 = .ok row.number
  nonzero : row.number.1 ≠ 0
  written : rows row = none ∨ (find key before).1 = .ok row.number
  content : ∃ zeros, rows' row = some (some (value.toList ++ List.replicate zeros 0))
  others : ∀ other : Buf, other.len < 2 ^ 15 → other.toList ≠ key.toList → (find other after).1 = (find other before).1

theorem set_wellFormed (wellFormed : WellFormed file rows tree) (walk : Walk tree key.toList 2 spot)
    (room : RoomFor key.len spot) (short : key.len < 2 ^ 15) (small : value.len < 2 ^ 31) :
    wp (Inner.set key value) (fun _ after => ∃ rows' tree' row, Kept file after rows key value rows' tree' row)
      Outgrew file := by
  refine (set_run wellFormed.index walk wellFormed.full.unfreed room.accepts small).mono ?_ fun _ _ outgrew => outgrew
  rintro _ after ⟨rows', tree', row, done⟩
  have wellFormed' := done.wellFormed wellFormed walk room
  refine ⟨rows', tree', row, wellFormed', ?_, ?_, ?_, ⟨_, done.content⟩, ?_⟩
  · obtain ⟨spot', walk', value⟩ := done.put.walk_self walk
    rw [wellFormed'.find walk' short, answer, value]
    rfl
  · exact slot_nonzero (show (some row : Slot) ≠ none by simp)
  · rcases done.put.spot_value with none | own
    · exact .inl (done.fresh none)
    · rw [wellFormed.find walk short, answer, own]
      exact .inr rfl
  · intro other short' different
    obtain ⟨spot', walk'⟩ := wellFormed.index.walk other.toList
    obtain ⟨spot'', walk'', same⟩ := done.put.walk walk walk' different
    rw [wellFormed.find walk' short', wellFormed'.find walk'' short', answer, answer, same]

private theorem WellFormed.set (wellFormed : WellFormed file rows tree) (walk : Walk tree key.toList 2 spot)
    (room : RoomFor key.len spot) (small : value.len < 2 ^ 31) (ran : Inner.set key value file = (.ok (), after)) :
    ∃ rows' tree', WellFormed after rows' tree' := by
  obtain ⟨rows', tree', _, done⟩ := (set_run wellFormed.index walk wellFormed.full.unfreed room.accepts small).ok ran
  exact ⟨rows', tree', done.wellFormed wellFormed walk room⟩

private theorem twoKeys_wellFormed : ∃ rows tree, WellFormed twoKeys rows tree := by
  obtain ⟨_, index⟩ := start_fresh.index
  have root : Walk rootTree (Buf.ofList [98]).toList 2 (.past 2 []) := .past plant_same (by simp)
  have begun : WellFormed start _ rootTree := ⟨index, rootTree_full, rootTree_roomy⟩
  obtain ⟨_, _, wellFormed⟩ := begun.set root (show (12 + 1 : Int) ≤ freeSpace [] by decide) (by decide) oneKey_run
  have below : Walk _ (Buf.ofList [97]).toList 2 _ := oneKey_ends wellFormed.index
  exact wellFormed.set below (show (12 + 1 : Int) ≤ freeSpace [] by decide) (by decide) twoKeys_run

/-- A third key is put behind the second, in the node below the root. -/
theorem third_key_wellFormed : ∃ rows rows' tree' row, Kept twoKeys
    (Inner.set (Buf.ofList [97, 1]) (Buf.ofList [3]) twoKeys).2 rows (Buf.ofList [97, 1]) (Buf.ofList [3]) rows' tree' row := by
  obtain ⟨rows, tree, wellFormed⟩ := twoKeys_wellFormed
  have walk : Walk tree (Buf.ofList [97, 1]).toList 2 _ := twoKeys_ends wellFormed.index
  have room : RoomFor (Buf.ofList [97, 1]).len (.past 4 [⟨[97], 0, some ⟨4, 0⟩⟩]) :=
    show (12 + 2 : Int) ≤ freeSpace [⟨[97], 0, some ⟨4, 0⟩⟩] by decide
  have returned : (Inner.set (Buf.ofList [97, 1]) (Buf.ofList [3]) twoKeys).1 = .ok () := by decide +kernel
  -- The file is forgotten, so that nothing below runs the call on it again.
  generalize twoKeys = file at wellFormed returned ⊢
  have small : (Buf.ofList [3]).len < 2 ^ 31 := by decide
  have kept := set_wellFormed wellFormed walk room (by decide) small
  exact ⟨rows, kept.ok (run_of_fst returned)⟩

end KvIndex

end Pingkv
