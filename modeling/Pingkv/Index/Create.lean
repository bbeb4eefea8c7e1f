import Pingkv.Index.Set

/-! `_create` lays out the root of a new index. -/

namespace Pingkv

open SearchTree

/-- The tree of a new index: a root without records. -/
def rootTree : Tree := plant (fun _ => none) 2

namespace KvIndex

open Exec DataFile

variable {file : DataFile}

/-- The head `_create` lays out. -/
private def rootNode : Buf :=
  ⟨8152, Mem.putInt (Mem.putShort (Mem.putInt (Mem.putInt (fun _ => 0) 0 2) 8 0) 4 0) 12 0⟩

private theorem rootNode_laid : HasNode rootNode 2 [] := by
  unfold rootNode
  constructor
  case len => rfl
  case blockId =>
    exact (Mem.agree_putInt (by omega)).int_eq.trans ((Mem.agree_putShort (by omega)).int_eq.trans
      ((Mem.agree_putInt (by omega)).int_eq.trans (Mem.int_putInt_of_range (by omega) (by omega))))
  case count => exact (Mem.agree_putInt (by omega)).short_eq.trans (Mem.short_putShort_of_range (by omega) (by omega))
  case right => exact Mem.int_putInt_of_range (by omega) (by omega)
  case laid => trivial
  case fits => simp

private theorem rootTree_some {id : Nat} (present : rootTree id ≠ none) : id = 2 := by
  by_contra different
  exact present (plant_ne different)

private theorem rootTree_unnamed (row : RecordId) : ¬ Names rootTree row := by
  rintro ⟨id, before, record, after, split, _⟩
  cases of_plant_split split

/-- `_create` on a file whose block 2 is the used one and empty stores the root there. -/
theorem create_run (storing : file.Storing fun _ => none) (used : file.info.usedBlockCount = 2)
    (empty : (file.block 1).recordCount = 0) :
    wp create (fun _ after => ∃ rows, Index after rows rootTree ∧ Compact after.toFile rootTree) Outgrew file := by
  unfold create
  refine wp_bind_ok (Buf.setInt_run _ file 2 (show 0 + 4 ≤ 8152 by omega) rfl) ?_
  refine wp_bind_ok (Buf.setInt_run _ file 0 (show 8 + 4 ≤ 8152 by omega) rfl) ?_
  refine wp_bind_ok (Buf.setShort_run _ file 0 (show 4 + 2 ≤ 8152 by omega) rfl) ?_
  refine wp_bind_ok (Buf.setInt_run _ file 0 (show 12 + 4 ≤ 8152 by omega) rfl) ?_
  refine wp_bind ((writeRow_storing storing rootNode (by simp [rootNode])).mono (fun _ _ wrote => wrote)
    fun _ _ halted => halted.1) ?_
  rintro _ after ⟨row, rfl, handed, _, place⟩
  have current : file.current = 1 := by simp [File.current, used]
  have free : (file.block file.current).free = 8152 := by simp [Block.free, current, empty]
  obtain ⟨place, whole⟩ := place (by omega)
  have root : row = nodeRow 2 := by
    rw [place, current]
    simp [Block.count, empty, nodeRow]
  subst root
  have nodes : Nodes (Rows.put (fun _ => none) (nodeRow 2) (some rootNode.toList)) rootTree := by
    intro id records present
    obtain rfl := rootTree_some (show rootTree id ≠ none by simp [present])
    have bare : records = [] := (Option.some.inj (plant_same.symm.trans present)).symm
    exact ⟨rootNode, bare ▸ rootNode_laid, Rows.put_same⟩
  have disk : OnDisk (Rows.put (fun _ => none) (nodeRow 2) (some rootNode.toList)) rootTree := by
    constructor
    case ordered => exact sole_ordered 2
    case nodes => exact nodes
    case live => exact fun row named => absurd named (rootTree_unnamed row)
    case distinct =>
      intro row id before record after _ _ _ _ split value
      exact absurd ⟨id, before, record, after, split, value⟩ (rootTree_unnamed row)
    case apart => exact fun row named => absurd named (rootTree_unnamed row)
  dsimp only
  rw [if_neg (by simp [nodeRow, RecordId.blockId, RecordId.rowIdx])]
  refine wp_pure ⟨_, ⟨handed.storing, disk⟩, fun id present => ?_⟩
  rw [rootTree_some present]
  exact whole (by rw [free]; simp [rootNode])

/-- A new data file with the root of an index, every call into the operating system succeeding. -/
def Fresh (file : DataFile) : Prop := ∃ os junk dbName fileId pid made, (∀ call n, os call n = true) ∧
  createFile dbName fileId pid (new os junk) = (.ok (), made) ∧ create made = (.ok (), file)

theorem Fresh.compact (fresh : Fresh file) : ∃ rows, Index file rows rootTree ∧ Compact file.toFile rootTree := by
  obtain ⟨os, junk, dbName, fileId, pid, made, serves, creates, rooted⟩ := fresh
  obtain ⟨made', ran, storing, _, used, _, empty⟩ := createFile_run os (fun call n _ => serves call n) junk dbName fileId pid
  have same : made' = made := congrArg Prod.snd (ran.symm.trans creates)
  subst same
  exact (create_run storing used empty).ok rooted

theorem Fresh.index (fresh : Fresh file) : ∃ rows, Index file rows rootTree := by
  obtain ⟨rows, index, _⟩ := fresh.compact
  exact ⟨rows, index⟩

theorem rootTree_records {id : Nat} {records : List Record} (present : rootTree id = some records) : records = [] := by
  by_cases same : id = 2
  · subst same
    exact (Option.some.inj (plant_same.symm.trans present)).symm
  · rw [rootTree, plant_ne same] at present
    cases present

/-- A new index over zeroed memory. -/
def start : DataFile := (create (createFile [] 1 1 (new (fun _ _ => true) fun _ _ => 0)).2).2

theorem start_fresh : Fresh start := by
  obtain ⟨made, ran, _⟩ := createFile_run (fun _ _ => true) (fun _ _ _ => rfl) (fun _ _ => 0) [] 1 1
  have rooted : (create (createFile [] 1 1 (new (fun _ _ => true) fun _ _ => 0)).2).1 = .ok () := by decide +kernel
  exact ⟨_, _, [], 1, 1, _, fun _ _ => rfl, by rw [ran], run_of_fst rooted⟩

/-- Every tree the new index holds has an empty root. -/
theorem start_root {rows : Rows} {tree : Tree} (index : Index start rows tree) : tree 2 = some [] := by
  have read : (getNode (2 : Nat) start).1.map nodeRecords = .ok [] := by decide +kernel
  exact node_read index index.disk.ordered.rooted read

theorem start_ends {rows : Rows} {tree : Tree} {key : Key} {spot : Spot Key Slot} (index : Index start rows tree)
    (walk : Walk tree key 2 spot) : spot = .past 2 [] :=
  walk.unique (.past (start_root index) (by simp))

theorem start_unfreed {rows : Rows} {tree : Tree} (index : Index start rows tree) (key : Key) : Unfreed tree key 2 :=
  .node (start_root index) (by simp) (by simp)

/-- An index with the key 98 in its root. -/
def oneKey : DataFile := (Inner.set (Buf.ofList [98]) (Buf.ofList [1]) start).2

/-- An index with the key 98 in its root and the key 97 in a node below. -/
def twoKeys : DataFile := (Inner.set (Buf.ofList [97]) (Buf.ofList [1]) oneKey).2

theorem oneKey_run : Inner.set (Buf.ofList [98]) (Buf.ofList [1]) start = (.ok (), oneKey) := by
  unfold oneKey
  exact run_of_fst (by decide +kernel)

theorem twoKeys_run : Inner.set (Buf.ofList [97]) (Buf.ofList [1]) oneKey = (.ok (), twoKeys) := by
  unfold twoKeys
  exact run_of_fst (by decide +kernel)

section TwoKeys

variable {rows : Rows} {tree : Tree}

theorem oneKey_root (index : Index oneKey rows tree) : tree 2 = some [⟨[98], 0, some ⟨2, 0⟩⟩] := by
  have read : (getNode (2 : Nat) oneKey).1.map nodeRecords = .ok [⟨[98], 0, some ⟨2, 0⟩⟩] := by decide +kernel
  exact node_read index index.disk.ordered.rooted read

/-- The key 97 comes below the key 98. -/
theorem oneKey_ends (index : Index oneKey rows tree) : Walk tree [97] 2 (.gap 2 [] ⟨[98], 0, some ⟨2, 0⟩⟩ []) :=
  .gap (oneKey_root index) (by simp) (by decide) rfl

theorem twoKeys_root (index : Index twoKeys rows tree) : tree 2 = some [⟨[98], 4, some ⟨2, 0⟩⟩] := by
  have read : (getNode (2 : Nat) twoKeys).1.map nodeRecords = .ok [⟨[98], 4, some ⟨2, 0⟩⟩] := by decide +kernel
  exact node_read index index.disk.ordered.rooted read

theorem twoKeys_child (index : Index twoKeys rows tree) : tree 4 = some [⟨[97], 0, some ⟨4, 0⟩⟩] := by
  have read : (getNode (4 : Nat) twoKeys).1.map nodeRecords = .ok [⟨[97], 0, some ⟨4, 0⟩⟩] := by decide +kernel
  have linked := index.disk.ordered.child 2 4 ⟨[], _, [], twoKeys_root index, by decide, rfl⟩
  exact node_read index linked.2 read

/-- The key 97 1 comes behind the key 97, in the node below. -/
theorem twoKeys_ends (index : Index twoKeys rows tree) : Walk tree [97, 1] 2 (.past 4 [⟨[97], 0, some ⟨4, 0⟩⟩]) := by
  have root : tree 2 = some ([] ++ ⟨[98], 4, some ⟨2, 0⟩⟩ :: []) := twoKeys_root index
  exact .down root (by simp) (by decide) (by decide) (.past (twoKeys_child index) (by decide))

end TwoKeys

end KvIndex

end Pingkv
