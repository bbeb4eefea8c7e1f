import Pingkv.Index.Edit
import Pingkv.Lib.SearchTreeUpdate

/-! The tree on the disk after each of the writes of `_set_key` and `_del_key`. -/

namespace Pingkv

open SearchTree

variable {rows : Rows} {tree tree' : Tree} {buf child : Buf} {id childId : Nat} {row : RecordId}
  {record : Record} {records before after : List Record} {content : List UInt8}

theorem nodeRow_ne {other : Nat} (lower : 2 ≤ id) (lower' : 2 ≤ other) (different : other ≠ id) :
    nodeRow other ≠ nodeRow id := by
  intro same
  have pages := congrArg RecordId.page same
  simp only [nodeRow] at pages
  omega

theorem Nodes.handed (nodes : Nodes rows tree) (present : tree id ≠ none) : rows (nodeRow id) ≠ none := by
  obtain ⟨records, node⟩ := Option.ne_none_iff_exists'.mp present
  obtain ⟨buf, _, stored⟩ := nodes id records node
  simp [stored]

/-- A row that is no node changed. -/
theorem Nodes.put (nodes : Nodes rows tree) {value : Option (List UInt8)}
    (apart : ∀ id, tree id ≠ none → row ≠ nodeRow id) : Nodes (rows.put row value) tree := by
  intro id records node
  obtain ⟨buf, laid, stored⟩ := nodes id records node
  exact ⟨buf, laid, (Rows.put_ne (apart id (by simp [node])).symm).trans stored⟩

/-- One node was saved, the others are as they were. -/
theorem Nodes.save (nodes : Nodes rows tree) (least : ∀ other, tree other ≠ none → 2 ≤ other) (lower : 2 ≤ id)
    (laid : HasNode buf id records) (saved : tree' id = some records)
    (kept : ∀ other, other ≠ id → tree' other = tree other) :
    Nodes (rows.put (nodeRow id) (some buf.toList)) tree' := by
  intro other records' node
  by_cases same : other = id
  · subst same
    obtain rfl := Option.some.inj (saved.symm.trans node)
    exact ⟨buf, laid, Rows.put_same⟩
  · rw [kept other same] at node
    obtain ⟨buf', laid', stored⟩ := nodes other records' node
    exact ⟨buf', laid', (Rows.put_ne (nodeRow_ne lower (least other (by simp [node])) same)).trans stored⟩

theorem Live.put (live : Live rows tree) : Live (rows.put row (some content)) tree := by
  intro other named
  by_cases same : other = row
  · exact ⟨content, by rw [same, Rows.put_same]⟩
  · rw [Rows.put_ne same]
    exact live other named

namespace OnDisk

theorem handed (disk : OnDisk rows tree) (present : tree id ≠ none) : rows (nodeRow id) ≠ none :=
  disk.nodes.handed present

/-- A row the tree names got another value. -/
theorem put_value (disk : OnDisk rows tree) (named : Names tree row) : OnDisk (rows.put row (some content)) tree where
  ordered := disk.ordered
  nodes := disk.nodes.put (disk.apart row named)
  live := disk.live.put
  distinct := disk.distinct
  apart := disk.apart

/-- A record with a new row was appended to the node where the search for its key ends. -/
theorem append (disk : OnDisk rows tree) (node : tree id = some records) {key : Key}
    (lower : ∀ other ∈ records, other.key < key) (visits : Visits tree key 2 id) (fresh : rows row = none)
    (laid : HasNode buf id (records ++ [⟨key, 0, some row⟩])) :
    OnDisk ((rows.put row (some content)).put (nodeRow id) (some buf.toList))
      (SearchTree.append tree id ⟨key, 0, some row⟩) := by
  have present : tree id ≠ none := by simp [node]
  have unnamed : ¬ Names tree row := by
    intro named
    obtain ⟨content, stored⟩ := disk.live row named
    rw [fresh] at stored
    cases stored
  have apart : ∀ other, tree other ≠ none → row ≠ nodeRow other := by
    intro other present same
    exact disk.handed present (same ▸ fresh)
  have names {other : RecordId} (named : Names (SearchTree.append tree id ⟨key, 0, some row⟩) other) :
      other = row ∨ Names tree other := by
    obtain ⟨place, earlier, entry, later, split, value⟩ := named
    rcases of_append_split node split with ⟨_, _, rfl⟩ | ⟨_, old⟩
    · exact .inl (Option.some.inj value).symm
    · exact .inr ⟨place, earlier, entry, _, old, value⟩
  constructor
  case ordered => exact append_ordered disk.ordered node lower visits rfl
  case nodes =>
    exact (disk.nodes.put apart).save disk.ordered.least (disk.ordered.least id present) laid (append_same node)
      fun other different => append_ne different
  case live =>
    apply Live.put
    intro other named
    rcases names named with rfl | named
    · exact ⟨content, Rows.put_same⟩
    · exact disk.live.put other named
  case distinct =>
    refine append_distinct disk.distinct node ?_
    rintro label named place earlier other later split named'
    cases named
    exact unnamed ⟨place, earlier, other, later, split, named'⟩
  case apart =>
    intro other named place present'
    rcases names named with rfl | named
    · exact apart place ((append_present node).mp present')
    · exact disk.apart other named place ((append_present node).mp present')

/-- An empty node was hung under a record. -/
theorem grow (disk : OnDisk rows tree) (node : tree id = some (before ++ record :: after)) (leaf : record.left = 0)
    (fresh : rows (nodeRow childId) = none) (larger : id < childId) (empty : HasNode child childId [])
    (laid : HasNode buf id (before ++ { record with left := childId } :: after)) :
    OnDisk ((rows.put (nodeRow childId) (some child.toList)).put (nodeRow id) (some buf.toList))
      (SearchTree.grow tree id before record after childId) := by
  have present : tree id ≠ none := by simp [node]
  have lower := disk.ordered.least id present
  have missing : tree childId = none := by
    by_contra present
    exact disk.handed present fresh
  have apart : ∀ other, tree other ≠ none → other ≠ childId := fun other present same => present (same ▸ missing)
  have names {other : RecordId} (named : Names (SearchTree.grow tree id before record after childId) other) :
      Names tree other := by
    obtain ⟨place, earlier, entry, later, split, value⟩ := named
    rcases of_grow_split node missing split with ⟨_, _, rfl⟩ | ⟨_, _, old, _⟩
    · exact ⟨id, before, record, after, node, value⟩
    · exact ⟨place, _, entry, _, old, value⟩
  constructor
  case ordered => exact grow_ordered disk.ordered node leaf missing larger
  case nodes =>
    have planted : Nodes (rows.put (nodeRow childId) (some child.toList)) (plant tree childId) :=
      disk.nodes.save disk.ordered.least (by omega) empty plant_same fun other different => plant_ne different
    refine planted.save ?_ lower laid replace_same fun other different => replace_ne different
    intro other present
    by_cases same : other = childId
    · omega
    · exact disk.ordered.least other (by rwa [plant_ne same] at present)
  case live =>
    intro other named
    exact disk.live.put.put other (names named)
  case distinct =>
    exact replace_distinct (plant_distinct disk.distinct) (plant_node missing node) rfl fun label named => .inl named
  case apart =>
    intro other named place present'
    rcases (grow_present node missing).mp present' with old | rfl
    · exact disk.apart other (names named) place old
    · intro same
      obtain ⟨content, stored⟩ := disk.live other (names named)
      rw [same, fresh] at stored
      cases stored

/-- The value of a record was deleted. -/
theorem erase (disk : OnDisk rows tree) (node : tree id = some (before ++ record :: after))
    (value : record.value = some row) (laid : HasNode buf id (before ++ { record with value := none } :: after)) :
    OnDisk ((rows.put row none).put (nodeRow id) (some buf.toList))
      (replace tree id before { record with value := none } after) := by
  have present : tree id ≠ none := by simp [node]
  have named : Names tree row := ⟨id, before, record, after, node, value⟩
  have old {place : Nat} {earlier later : List Record} {entry : Record} {other : RecordId}
      (split : replace tree id before { record with value := none } after place = some (earlier ++ entry :: later))
      (value' : entry.value = some other) : Names tree other ∧ other ≠ row := by
    rcases of_replace_split node split rfl with ⟨_, _, rfl⟩ | ⟨earlier', later', split', keys⟩
    · cases value'
    · refine ⟨⟨place, earlier', entry, later', split', value'⟩, ?_⟩
      rintro rfl
      obtain ⟨rfl, rfl, rfl, _⟩ := disk.distinct.same split' value' node value
      have place := Option.some.inj (replace_same.symm.trans split)
      have last := (List.append_inj place (by simpa using congrArg List.length keys)).2
      rw [← (List.cons.inj last).1] at value'
      cases value'
  constructor
  case ordered => exact value_ordered none disk.ordered node
  case nodes =>
    exact (disk.nodes.put (disk.apart row named)).save disk.ordered.least (disk.ordered.least id present) laid
      replace_same fun other different => replace_ne different
  case live =>
    apply Live.put
    rintro other ⟨place, earlier, entry, later, split, value'⟩
    obtain ⟨named', different⟩ := old split value'
    rw [Rows.put_ne different]
    exact disk.live other named'
  case distinct =>
    exact replace_distinct disk.distinct node rfl fun label named => absurd named (by simp)
  case apart =>
    rintro other ⟨place, earlier, entry, later, split, value'⟩ place' present'
    exact disk.apart other (old split value').1 place' ((replace_present node).mp present')

end OnDisk

end Pingkv
