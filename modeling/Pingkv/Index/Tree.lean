import Pingkv.DataFile.Store
import Pingkv.Index.Position

/-! The search tree of an index as it lies in a data file, and what `_find_key`
answers on it. -/

namespace Pingkv

open SearchTree

/-- The row a node is kept in: the first one of its own block. -/
def nodeRow (id : Nat) : RecordId := ⟨id - 1, 0⟩

/-- A record of the tree names a value row. -/
def Names (tree : Tree) (row : RecordId) : Prop :=
  ∃ id before record after, tree id = some (before ++ record :: after) ∧ record.value = some row

/-- Every node of a tree is a row of a store. -/
def Nodes (rows : Rows) (tree : Tree) : Prop := ∀ id records, tree id = some records →
  ∃ buf, HasNode buf id records ∧ rows (nodeRow id) = some (some buf.toList)

/-- Every row a tree names holds a value. -/
def Live (rows : Rows) (tree : Tree) : Prop := ∀ row, Names tree row → ∃ content, rows row = some (some content)

/-- A search tree in a store: no two records name one row, and none names a node. -/
structure OnDisk (rows : Rows) (tree : Tree) : Prop where
  ordered : Ordered tree 2
  nodes : Nodes rows tree
  live : Live rows tree
  distinct : Distinct tree fun record row => record.value = some row
  apart : ∀ row, Names tree row → ∀ id, tree id ≠ none → row ≠ nodeRow id

/-- A data file that stores a search tree under the root in block 2. -/
structure Index (file : DataFile) (rows : Rows) (tree : Tree) : Prop where
  storing : file.Storing rows
  disk : OnDisk rows tree

variable {file after : DataFile} {rows : Rows} {tree : Tree} {buf buf' key : Buf} {id : Nat}
  {records : List Record}

theorem HasNode.agree (node : HasNode buf id records) (len : buf'.len = 8152)
    (agree : buf.byte.Agree buf'.byte 0 8152) : HasNode buf' id records := by
  have fits := node.fits
  constructor
  case len => exact len
  case blockId => rw [← (agree.mono 0 4 (by omega) (by omega)).int_eq, node.blockId]
  case count => rw [← (agree.mono 4 2 (by omega) (by omega)).short_eq, node.count]
  case right => rw [← (agree.mono 12 4 (by omega) (by omega)).int_eq, node.right]
  case laid => exact node.laid.agree (agree.mono 16 (span records) (by omega) (by omega))
  case fits => exact fits

theorem HasNode.of_toList (node : HasNode buf id records) (same : buf'.toList = buf.toList) :
    HasNode buf' id records := by
  have len : buf'.len = buf.len := by rw [← Buf.toList_length buf', same, Buf.toList_length]
  refine node.agree (len.trans node.len) fun place _ below => ?_
  rw [← node.len, Nat.zero_add] at below
  have inside : place < buf.toList.length := by rwa [Buf.toList_length]
  have inside' : place < buf'.toList.length := by rwa [Buf.toList_length, len]
  have byte : buf.toList[place] = buf'.toList[place] := by simp only [same]
  simpa [Buf.toList, Mem.slice_getElem] using byte

namespace Index

theorem quiet (index : Index file rows tree) (quiet : DataFile.Quiet file after) : Index after rows tree :=
  ⟨quiet.storing index.storing, index.disk⟩

theorem two_le (index : Index file rows tree) (present : tree id ≠ none) : 2 ≤ id :=
  index.disk.ordered.least id present

theorem nodeRow_number (positive : 1 ≤ id) : (nodeRow id).blockId = id ∧ (nodeRow id).rowIdx = 1 := by
  simp only [nodeRow, RecordId.blockId, RecordId.rowIdx]
  omega

theorem id_le (index : Index file rows tree) (present : tree id ≠ none) : id ≤ 262144 := by
  obtain ⟨records, node⟩ := Option.ne_none_iff_exists'.mp present
  obtain ⟨buf, _, stored⟩ := index.disk.nodes id records node
  have has := index.storing.has (show rows (nodeRow id) ≠ none by rw [stored]; simp)
  have mapped : id - 1 < 262144 := has.mapped index.storing.ready.formed
  omega

/-- The search for any key ends. -/
theorem walk (index : Index file rows tree) (key : Key) : ∃ spot, Walk tree key 2 spot :=
  index.disk.ordered.walk key 2 index.disk.ordered.rooted

/-- The bytes a node is stored as. -/
theorem stored (index : Index file rows tree) (present : tree id ≠ none) :
    ∃ content, rows (nodeRow id) = some (some content) ∧ content.length = 8152 := by
  obtain ⟨records, node⟩ := Option.ne_none_iff_exists'.mp present
  obtain ⟨buf, laid, stored⟩ := index.disk.nodes id records node
  exact ⟨buf.toList, stored, (Buf.toList_length buf).trans laid.len⟩

/-- A row that was not handed out is no node. -/
theorem fresh_node {row : RecordId} (index : Index file rows tree) (fresh : rows row = none)
    (present : tree id ≠ none) : nodeRow id ≠ row := by
  rintro rfl
  obtain ⟨content, stored, _⟩ := index.stored present
  rw [fresh] at stored
  cases stored

/-- A row that was not handed out is no value. -/
theorem fresh_name {row : RecordId} (index : Index file rows tree) (fresh : rows row = none) : ¬ Names tree row := by
  intro named
  obtain ⟨content, stored⟩ := index.disk.live row named
  rw [fresh] at stored
  cases stored

end Index

namespace KvIndex

open Exec DataFile

/-- `_get_node` reads the row that is stored under the number. -/
theorem getNode_stored {content : List UInt8} (storing : file.Storing rows) (positive : 1 ≤ id)
    (found : rows (nodeRow id) = some (some content)) :
    ∃ buf after, getNode id file = (.ok buf, after) ∧ Quiet file after ∧ buf.toList = content := by
  obtain ⟨row, after, read, quiet, same⟩ := readRow_storing storing found
  obtain ⟨block, place⟩ := Index.nodeRow_number positive
  rw [block, place] at read
  refine ⟨row, after, ?_, quiet, same⟩
  rw [getNode, bind_ok read]
  rfl

/-- `_get_node` reads the node the tree has under the number. -/
theorem getNode_run (index : Index file rows tree) (present : tree id = some records) :
    ∃ buf after, getNode id file = (.ok buf, after) ∧ Quiet file after ∧ HasNode buf id records := by
  obtain ⟨buf, node, stored⟩ := index.disk.nodes id records present
  have lower := index.two_le (show tree id ≠ none by simp [present])
  obtain ⟨row, after, read, quiet, same⟩ := getNode_stored index.storing (by omega) stored
  exact ⟨row, after, read, quiet, node.of_toList same⟩

/-- A node of the tree has the records that `_get_node` reads under its number. -/
theorem node_read (index : Index file rows tree) (present : tree id ≠ none)
    (read : (getNode id file).1.map nodeRecords = .ok records) : tree id = some records := by
  obtain ⟨records', node⟩ := Option.ne_none_iff_exists'.mp present
  obtain ⟨buf, after, got, _, laid⟩ := getNode_run index node
  rw [got] at read
  rw [node, ← laid.read]
  exact congrArg some (Except.ok.inj read)

theorem getRoot_run (index : Index file rows tree) (present : tree 2 = some records) :
    ∃ buf after, getRoot file = (.ok buf, after) ∧ Quiet file after ∧ HasNode buf 2 records :=
  getNode_run index present

/-- The block id and the row index `_find_key` gives for the spot where a search ends. -/
def answer (spot : Spot Key Slot) : Int × Int := (spot.value.getD none).number

/-- The node in which a search ends has room for the record `_find_pos` clears. -/
def Clears : Spot Key Slot → Prop
  | .past _ records => 16 + span records + 12 ≤ 8152
  | _ => True

variable {spot : Spot Key Slot}

variable {before later : List Record} {record : Record}

/-- `_find_pos` in a node of the tree, and what stands at the place it finds. -/
theorem findPos_node (index : Index file rows tree) (node : tree id = some (before ++ record :: later))
    (laid : HasNode buf id (before ++ record :: later)) (lower : ∀ other ∈ before, other.key < key.toList)
    (upper : key.toList ≤ record.key) :
    findPos buf key file = (.ok (some (16 + span before : Nat), buf), file) ∧
      ∃ cmp, Reads buf key (16 + span before) record file cmp :=
  ⟨findPos_split file laid (List.pairwise_append.mp (index.disk.ordered.sorted id _ node)).2.1 lower upper,
    node_reads file key laid⟩

/-- `_find_key` goes down to the node where the search for its key ends. -/
theorem findKey_walk (walk : Walk tree key.toList id spot) : ∀ {file : DataFile} {buf : Buf}, Index file rows tree →
    (∀ records, tree id = some records → HasNode buf id records) → ∀ steps, 262144 < steps + id →
    ∃ left buf' mid, findKey steps buf key file = findKey (left + 1) buf' key mid ∧ Quiet file mid ∧
      ∀ records, tree spot.id = some records → HasNode buf' spot.id records := by
  induction walk with
  | held node | past node | gap node =>
    rintro file buf index laid (_ | steps) enough
    · have bound := index.id_le (by rw [node]; simp)
      omega
    · exact ⟨steps, buf, file, rfl, Quiet.refl file, laid⟩
  | @down id before later record spot node lower upper child rest ih =>
    rintro file buf index laid (_ | steps) enough
    · have bound := index.id_le (by rw [node]; simp)
      omega
    obtain ⟨larger, linked⟩ := index.disk.ordered.child id _ ⟨before, record, later, node, child, rfl⟩
    obtain ⟨records, below⟩ := Option.ne_none_iff_exists'.mp linked
    obtain ⟨position, cmp, fields⟩ := findPos_node index node (laid _ node) lower upper.le
    obtain ⟨childBuf, mid, got, quiet, childLaid⟩ := getNode_run index below
    obtain ⟨left, buf', last, same, quiet', laid'⟩ := ih (index.quiet quiet)
      (fun records' same => by rwa [Option.some.inj (same.symm.trans below)]) steps (by omega)
    refine ⟨left, buf', last, ?_, quiet.trans quiet', laid'⟩
    rw [← same, findKey, bind_ok position]
    dsimp only [kInfoLen]
    rw [bind_ok fields.keyLen, bind_ok fields.compared, if_neg (mt fields.sign.zero.mp upper.ne'),
      bind_ok fields.left, if_pos (by omega), bind_ok got]

/-- What `_find_key` answers in the node where the search ends. -/
theorem findKey_here (index : Index file rows tree) (here : spot.Here tree key.toList) (small : key.len < 2 ^ 32)
    (clears : key.len ≤ 8124 → Clears spot) (laid : ∀ records, tree spot.id = some records → HasNode buf spot.id records)
    (left : Nat) : findKey (left + 1) buf key file = (.ok (answer spot), file) := by
  cases spot with
  | held id before record later =>
    obtain ⟨node, lower, same⟩ := here
    obtain ⟨position, cmp, fields⟩ := findPos_node index node (laid _ node) lower same.ge
    rw [findKey, bind_ok position]
    dsimp only [kInfoLen]
    rw [bind_ok fields.keyLen, bind_ok fields.compared, if_pos (fields.sign.zero.mpr same),
      bind_ok fields.block, bind_ok fields.row]
    rfl
  | past id records =>
    obtain ⟨node, lower⟩ := here
    rw [findKey]
    have len := (laid _ node).len
    by_cases short : key.len ≤ 8124
    · obtain ⟨mem, position, cleared, _⟩ := findPos_past file (laid _ node) lower short (clears short)
      have room : 16 + span records + 12 ≤ 8152 := clears short
      obtain ⟨cmp, fields⟩ : ∃ cmp, Reads ⟨buf.len, mem⟩ key (16 + span records) blank file cmp :=
        reads file key cleared (by simp [recordLen, blank]; omega)
      rw [bind_ok position]
      dsimp only [kInfoLen]
      rw [bind_ok fields.keyLen, bind_ok fields.compared]
      split
      · rw [bind_ok fields.block, bind_ok fields.row]
        rfl
      · rw [bind_ok fields.left]
        rfl
    · rw [bind_ok (findPos_none file (laid _ node) lower (by omega) small)]
      have right := Buf.getInt_run buf file (show 12 + 4 ≤ buf.len by omega) (show (12 : Int) = (12 : Nat) from rfl)
      rw [(laid _ node).right] at right
      dsimp only
      rw [bind_ok right]
      rfl
  | gap id before record later =>
    obtain ⟨node, lower, upper, leaf⟩ := here
    obtain ⟨position, cmp, fields⟩ := findPos_node index node (laid _ node) lower upper.le
    rw [findKey, bind_ok position]
    dsimp only [kInfoLen]
    rw [bind_ok fields.keyLen, bind_ok fields.compared, if_neg (mt fields.sign.zero.mp upper.ne'),
      bind_ok fields.left, leaf]
    rfl

/-- Where the node has no room for a cleared record `_find_key` writes past its end. -/
theorem findKey_full (here : spot.Here tree key.toList) (short : key.len ≤ 8124) (full : ¬ Clears spot)
    (laid : ∀ records, tree spot.id = some records → HasNode buf spot.id records) (left : Nat) :
    findKey (left + 1) buf key file = (.error .fault, file) := by
  cases spot with
  | held | gap => exact absurd trivial full
  | past id records =>
    simp only [Clears] at full
    rw [findKey]
    exact bind_error (findPos_fault file (laid _ here.1) here.2 short (by omega))

/-- `_find_key` from the root. -/
def find (key : Buf) : Exec DataFile (Int × Int) := do
  findKey stepBound (← getRoot) key

/-- The bytes the store has for the value where a search ends. -/
def stored (rows : Rows) (spot : Spot Key Slot) : Option (List UInt8) :=
  match spot.value with
  | some (some row) => (rows row).join
  | _ => none

/-- The same from the root. -/
private theorem find_walk (index : Index file rows tree) (walk : Walk tree key.toList 2 spot) :
    ∃ left buf mid, find key file = findKey (left + 1) buf key mid ∧ Quiet file mid ∧
      ∀ records, tree spot.id = some records → HasNode buf spot.id records := by
  obtain ⟨records, present⟩ := Option.ne_none_iff_exists'.mp walk.node
  obtain ⟨root, mid, got, quiet, laid⟩ := getRoot_run index present
  obtain ⟨left, buf, after, same, quiet', laid'⟩ := findKey_walk walk (index.quiet quiet)
    (fun records' same => by rwa [Option.some.inj (same.symm.trans present)]) stepBound (by decide)
  exact ⟨left, buf, after, by rw [find, bind_ok got, same], quiet.trans quiet', laid'⟩

/-- `_find_key` answers for the spot where the search of the tree ends. -/
theorem find_run (index : Index file rows tree) (walk : Walk tree key.toList 2 spot) (small : key.len < 2 ^ 32)
    (clears : key.len ≤ 8124 → Clears spot) :
    ∃ after, find key file = (.ok (answer spot), after) ∧ Quiet file after := by
  obtain ⟨left, buf, mid, same, quiet, laid⟩ := find_walk index walk
  exact ⟨mid, by rw [same, findKey_here (index.quiet quiet) walk.here small clears laid], quiet⟩

/-- The value where a search ends is named in the tree. -/
theorem walk_names {key : Key} {row : RecordId} (walk : Walk tree key id spot) (value : spot.value = some (some row)) :
    Names tree row := by
  cases spot with
  | held place before record later => exact ⟨place, before, record, later, walk.here.1, Option.some.inj value⟩
  | past | gap => cases value

private theorem get_eq (key : Buf) : Inner.get key = find key >>= fun place =>
    if place.1 = 0 then pure none else readRow place.1 place.2 := by
  rw [Inner.get, find, bind_assoc]

/-- `_get` in a node without room for a cleared record writes past its end. -/
theorem get_full (index : Index file rows tree) (walk : Walk tree key.toList 2 spot) (short : key.len ≤ 8124)
    (full : ¬ Clears spot) : ∃ after, Inner.get key file = (.error .fault, after) ∧ Quiet file after := by
  obtain ⟨left, buf, mid, same, quiet, laid⟩ := find_walk index walk
  exact ⟨mid, by rw [get_eq]; exact bind_error (same.trans (findKey_full walk.here short full laid left)), quiet⟩

/-- `_get` returns the bytes of the value where the search for the key ends. -/
theorem get_run (index : Index file rows tree) (walk : Walk tree key.toList 2 spot) (small : key.len < 2 ^ 32)
    (clears : key.len ≤ 8124 → Clears spot) : ∃ result after,
    Inner.get key file = (.ok result, after) ∧ Quiet file after ∧ result.map Buf.toList = stored rows spot := by
  obtain ⟨mid, found, quiet⟩ := find_run index walk small clears
  rw [get_eq, bind_ok found]
  match value : spot.value with
  | some (some row) =>
    obtain ⟨content, kept⟩ := index.disk.live row (walk_names walk value)
    obtain ⟨buf, after, read, quiet', same⟩ := readRow_storing (quiet.storing index.storing) kept
    refine ⟨some buf, after, ?_, quiet.trans quiet', by simp [stored, value, kept, same]⟩
    simp only [answer, value, Option.getD_some, Slot.number, RecordId.number]
    rw [if_neg (by simp only [RecordId.blockId]; omega)]
    exact read
  | some none => exact ⟨none, mid, by simp [answer, value, Slot.number], quiet, by simp [stored, value]⟩
  | none => exact ⟨none, mid, by simp [answer, value, Slot.number], quiet, by simp [stored, value]⟩

end KvIndex

end Pingkv
