import Pingkv.Index.Update

/-! `_set_key`: down to where the search for the key ends, and what it writes there. -/

namespace Pingkv

open SearchTree

namespace KvIndex

open Exec DataFile

variable {file after : DataFile} {rows : Rows} {tree : Tree} {buf key value : Buf} {id : Nat} {record : Record}
  {records before later : List Record} {content : List UInt8} {spot : Spot Key Slot}

/-- Every node lies in the record it was written to first. -/
def Compact (file : File) (tree : Tree) : Prop := ∀ id, tree id ≠ none → file.Whole (nodeRow id)

theorem Compact.keep {before after : File} (compact : Compact before tree)
    (same : ∀ id, tree id ≠ none → after.record (nodeRow id) = before.record (nodeRow id)) : Compact after tree :=
  fun id present => (compact id present).of_record (same id present)

/-- A row that is no node was changed. -/
theorem Compact.others {before after : File} {row : RecordId} (compact : Compact before tree) (disk : OnDisk rows tree)
    (others : Others rows row before after) (apart : ∀ id, tree id ≠ none → nodeRow id ≠ row) : Compact after tree :=
  compact.keep fun id present => others _ (disk.handed present) (apart id present)

private theorem saveNode_eq (positive : 1 ≤ id) (len : buf.len = 8152) (number : buf.byte.int 0 = id) :
    saveNode buf file = modifyRow (nodeRow id).blockId (nodeRow id).rowIdx buf file := by
  have read := Buf.getInt_run buf file (show 0 + 4 ≤ buf.len by omega) (show (0 : Int) = (0 : Nat) from rfl)
  obtain ⟨block, place⟩ := Index.nodeRow_number positive
  have whole : (⟨nodeLen.toNat, buf.byte⟩ : Buf) = buf := by
    rw [show nodeLen.toNat = buf.len by rw [len]; rfl]
  rw [saveNode, bind_ok read, if_pos (by rw [len]; decide), whole, number, block, place]

/-- `_save_node` replaces the bytes of a node, in place where that lies in one record. -/
structure NodeSaved (before after : DataFile) (rows : Rows) (id : Nat) (node : Buf) : Prop where
  storing : after.Storing (rows.put (nodeRow id) (some node.toList))
  others : Others rows (nodeRow id) before.toFile after.toFile
  inPlace : before.Whole (nodeRow id) → after.info = before.info ∧ after.record (nodeRow id) = before.record (nodeRow id)

theorem saveNode_run (storing : file.Storing rows) (found : rows (nodeRow id) = some (some content))
    (long : content.length = 8152) (positive : 1 ≤ id) (len : buf.len = 8152) (number : buf.byte.int 0 = id) :
    wp (saveNode buf) (fun _ after => NodeSaved file after rows id buf) Overflowed file := by
  have modified := (modifyRow_storing storing found buf (by omega)).ran
  have exact_ : file.leftover stepBound (nodeRow id) buf.len = 0 := by
    have bound := storing.leftover_le found buf.len
    omega
  rw [exact_, List.replicate_zero, List.append_nil] at modified
  refine (modified.mono ?_ fun _ _ overflowed => overflowed).congr (saveNode_eq positive len number)
  rintro _ after ⟨ran, _, storing', others⟩
  refine ⟨storing', others, fun whole => ?_⟩
  obtain ⟨after', ran', info, record⟩ := modifyRow_stored storing found whole buf (by omega)
  obtain ⟨_, rfl⟩ := Prod.mk.inj (ran.symm.trans ran')
  exact ⟨info, record⟩

/-- A node in one record is always saved. -/
theorem saveNode_whole (storing : file.Storing rows) (found : rows (nodeRow id) = some (some content))
    (long : content.length = 8152) (positive : 1 ≤ id) (len : buf.len = 8152) (number : buf.byte.int 0 = id)
    (whole : file.Whole (nodeRow id)) :
    ∃ after, saveNode buf file = (.ok (), after) ∧ NodeSaved file after rows id buf := by
  obtain ⟨after, ran, _⟩ := modifyRow_stored storing found whole buf (by omega)
  have saved := (saveNode_eq positive len number).trans ran
  exact ⟨after, saved, (saveNode_run storing found long positive len number).ok saved⟩

theorem NodeSaved.compact (saved : NodeSaved file after rows id buf) (compact : Compact file.toFile tree)
    (disk : ∀ id, tree id ≠ none → rows (nodeRow id) ≠ none) (present : tree id ≠ none) : Compact after.toFile tree :=
  compact.keep fun other present' => by
    by_cases same : nodeRow other = nodeRow id
    · rw [same]
      exact (saved.inPlace (compact id present)).2
    · exact saved.others _ (disk other present') same

/-- The head `_add_node` lays out. -/
private def emptyNode (mem : Mem) (parent : Int) : Mem :=
  (((mem.putInt 0 0).putInt 8 parent).putInt 12 0).putShort 4 0

private theorem emptyNode_laid (mem : Mem) (parent : Int) (small : id < 2147483648) :
    HasNode ⟨8152, (emptyNode mem parent).putInt 0 id⟩ id [] := by
  unfold emptyNode
  constructor
  case len => rfl
  case blockId => exact Mem.int_putInt_of_range (by omega) (by omega)
  case count => exact (Mem.agree_putInt (by omega)).short_eq.trans (Mem.short_putShort_of_range (by omega) (by omega))
  case right =>
    exact (Mem.agree_putInt (by omega)).int_eq.trans ((Mem.agree_putShort (by omega)).int_eq.trans
      (Mem.int_putInt_of_range (by omega) (by omega)))
  case laid => trivial
  case fits => simp

/-- An empty node was stored in a block of its own, after the blocks of all rows. -/
structure NodeAdded (before after : DataFile) (rows : Rows) (childId : Nat) (child : Buf) : Prop where
  laid : HasNode child childId []
  new : rows (nodeRow childId) = none
  later : ∀ other, rows other ≠ none → other.page + 1 < childId
  storing : after.Storing (rows.put (nodeRow childId) (some child.toList))
  others : Others rows (nodeRow childId) before.toFile after.toFile
  whole : after.Whole (nodeRow childId)
  used : after.info.usedBlockCount = before.info.usedBlockCount + 1
  mapped : before.info.usedBlockCount < 262144

/-- `_add_node` adds an empty node, unless there is no block left to map. -/
theorem addNode_run (storing : file.Storing rows) (parent : Int) :
    (∃ childId child after, addNode parent file = (.ok ((childId : Nat) : Int), after) ∧
      NodeAdded file after rows childId child) ∨
    ∃ after, addNode parent file = (.error .fault, after) ∧ after.toFile.Outgrown ∧
      ¬ file.info.usedBlockCount < 262144 := by
  obtain ⟨drawn, drew, quiet⟩ := uninitialised_run file
  have used : drawn.info.usedBlockCount = file.info.usedBlockCount := by rw [quiet.file]
  have enter : addNode parent file = (do
      let blockId ← writeRowNewBlock ⟨8152, emptyNode (file.junk 0) parent⟩
      saveNode (← Buf.setInt ⟨8152, emptyNode (file.junk 0) parent⟩ 0 blockId)
      return blockId : Exec DataFile Int) drawn := by
    rw [addNode, bind_ok drew]
    refine (bind_ok (Buf.setInt_run _ drawn 0 (show 0 + 4 ≤ 8152 by omega) rfl)).trans ?_
    refine (bind_ok (Buf.setInt_run _ drawn parent (show 8 + 4 ≤ 8152 by omega) rfl)).trans ?_
    refine (bind_ok (Buf.setInt_run _ drawn 0 (show 12 + 4 ≤ 8152 by omega) rfl)).trans ?_
    exact bind_ok (Buf.setShort_run _ drawn 0 (show 4 + 2 ≤ 8152 by omega) rfl)
  rw [enter]
  rcases writeRowNewBlock_stored (quiet.storing storing) ⟨8152, emptyNode (file.junk 0) parent⟩ (Nat.le_refl _) with
    ⟨row, mid, ran, first, later, ⟨storing', _, new, _⟩, others, whole, grown, mapped⟩ | ⟨after, ran, outgrown, last⟩
  · have same : nodeRow (row.page + 1) = row := by
      obtain ⟨page, place⟩ := row
      exact congrArg (RecordId.mk page) first.symm
    rw [← same] at storing' new others whole
    have present := storing'.has (show rows.put _ _ (nodeRow (row.page + 1)) ≠ none by simp)
    have bound : row.page < 262144 := present.mapped storing'.ready.formed
    have laid := emptyNode_laid (file.junk 0) parent (show row.page + 1 < 2147483648 by omega)
    obtain ⟨after, saves, saved⟩ := saveNode_whole storing' Rows.put_same (by simp) (by omega) laid.len laid.blockId whole
    obtain ⟨info, record⟩ := saved.inPlace whole
    refine .inl ⟨row.page + 1, _, after, ?_, laid, new, fun other stored => ?_, by simpa using saved.storing, ?_,
      whole.of_record record, by rw [info, grown, used], used ▸ mapped⟩
    · have number : row.blockId = ((row.page + 1 : Nat) : Int) := by simp [RecordId.blockId]
      rw [bind_ok ran, number]
      refine (bind_ok (Buf.setInt_run _ mid _ (show 0 + 4 ≤ 8152 by omega) rfl)).trans ?_
      exact bind_ok saves
    · have before := later other stored
      omega
    · intro other handed different
      rw [saved.others other (Rows.put_handed handed) different, others other handed different, quiet.file]
  · exact .inr ⟨after, by rw [bind_error ran], outgrown, used ▸ last⟩

/-- Where the search for a key stops or goes down from a record, that record has a value. -/
def Unfreed (tree : Tree) (key : Key) (root : Nat) : Prop := ∀ id before record later,
  Visits tree key root id → tree id = some (before ++ record :: later) → (∀ other ∈ before, other.key < key) →
    key ≤ record.key → record.value ≠ none

/-- All records of a node have values, and so it is below those that a search may go down from. -/
theorem Unfreed.node {key : Key} (node : tree id = some records) (valued : ∀ record ∈ records, record.value ≠ none)
    (below : ∀ record ∈ records, record.left ≠ 0 → key < record.key → Unfreed tree key record.left) : Unfreed tree key id := by
  intro place before record later visits node' lower upper
  rcases visits.first with rfl | ⟨_, entry, _, top, above, linked, visits⟩
  · exact valued record (by simp [Option.some.inj (node.symm.trans node')])
  · have member : entry ∈ records := by simp [Option.some.inj (node.symm.trans top)]
    exact below entry member linked above place before record later visits node' lower upper

theorem slot_nonzero {slot : Slot} (present : slot ≠ none) : slot.number.1 ≠ 0 := by
  cases slot with
  | none => exact absurd rfl present
  | some row =>
    simp only [Slot.number, RecordId.number, RecordId.blockId]
    omega

/-- `_set_key` goes down to the node where the search for its key ends. -/
theorem setKey_walk (value : Buf) (walk : Walk tree key.toList id spot) : ∀ {file : DataFile} {buf : Buf},
    Unfreed tree key.toList id → Index file rows tree →
    (∀ records, tree id = some records → HasNode buf id records) → ∀ steps, 262144 < steps + id →
    ∃ left buf' mid, setKey steps buf key value file = setKey (left + 1) buf' key value mid ∧ Quiet file mid ∧
      steps + id ≤ left + 1 + spot.id ∧ ∀ records, tree spot.id = some records → HasNode buf' spot.id records := by
  induction walk with
  | held node | past node | gap node =>
    rintro file buf _ index laid (_ | steps) enough
    · have bound := index.id_le (by rw [node]; simp)
      omega
    · exact ⟨steps, buf, file, rfl, Quiet.refl file, by simp only [Spot.id]; omega, laid⟩
  | @down id before later record spot node lower upper child rest ih =>
    rintro file buf unfreed index laid (_ | steps) enough
    · have bound := index.id_le (by rw [node]; simp)
      omega
    obtain ⟨larger, linked⟩ := index.disk.ordered.child id _ ⟨before, record, later, node, child, rfl⟩
    obtain ⟨records, below⟩ := Option.ne_none_iff_exists'.mp linked
    obtain ⟨position, cmp, fields⟩ := findPos_node index node (laid _ node) lower upper.le
    obtain ⟨childBuf, mid, got, quiet, childLaid⟩ := getNode_run index below
    have used := slot_nonzero (unfreed id before record later .start node lower upper.le)
    have unfreed' : Unfreed tree key.toList record.left := fun place earlier other after visits =>
      unfreed place earlier other after ((Visits.down .start node lower upper child).trans visits)
    obtain ⟨left, buf', last, same, quiet', enough', laid'⟩ := ih unfreed' (index.quiet quiet)
      (fun records' same => by rwa [Option.some.inj (same.symm.trans below)]) steps (by omega)
    have linkRun : childAt buf (16 + span before : Nat) file = (.ok (record.left : Int), file) := by
      rw [childAt, bind_ok fields.left, if_neg (by omega)]
      rfl
    refine ⟨left, buf', last, ?_, quiet.trans quiet', by omega, laid'⟩
    rw [← same, setKey, bind_ok position]
    dsimp only [kInfoLen]
    rw [bind_ok fields.block, if_neg used, bind_ok fields.keyLen, bind_ok fields.compared,
      if_neg (mt fields.sign.zero.mp upper.ne'), bind_ok linkRun, bind_ok got]

/-- The writes into a record behind the last one of a node. -/
theorem setRecord_run {mem : Mem} (index : Index file rows tree) (node : tree id = some records)
    (laid : HasNode buf id records) (agree : buf.byte.Agree mem 0 (16 + span records))
    (lower : ∀ other ∈ records, other.key < key.toList) (visits : Visits tree key.toList 2 id)
    (room : 16 + span records + 12 + key.len ≤ 8152) (small : value.len < 2 ^ 31) :
    wp (setRecord ⟨buf.len, mem⟩ (16 + span records : Nat) key value) (fun _ after => ∃ rows' row, rows row = none ∧
      Index after rows' (append tree id ⟨key.toList, 0, some row⟩) ∧ rows' row = some (some value.toList) ∧
      (∀ other, Names tree other → rows' other = rows other) ∧
      (Compact file.toFile tree → Compact after.toFile (append tree id ⟨key.toList, 0, some row⟩)))
      (Halted file.HasRoom) file := by
  have present : tree id ≠ none := by simp [node]
  have len := laid.len
  unfold setRecord
  refine wp_bind (writeRow_storing index.storing value small) ?_
  rintro _ mid ⟨row, rfl, handed, others, _⟩
  dsimp only
  have has := handed.storing.has (show rows.put row _ row ≠ none by simp)
  have page := has.mapped handed.storing.ready.formed
  have place := has.place_lt handed.storing.ready.formed
  have added := laid.add row key page place agree room
  have count : (newRecord mem (16 + span records) row key).short 4 = records.length := by
    have kept := agree.trans (newRecord_agree row key)
    rw [← (kept.mono 4 2 (by omega) (by omega)).short_eq, laid.count]
  refine wp_bind_ok (Buf.setInt_run _ mid row.blockId (show 16 + span records + 4 + 4 ≤ buf.len by omega) (by omega)) ?_
  refine wp_bind_ok (Buf.setShort_run _ mid row.rowIdx (show 16 + span records + 8 + 2 ≤ buf.len by omega) (by omega)) ?_
  refine wp_bind_ok (Buf.setShort_run _ mid key.len (show 16 + span records + 10 + 2 ≤ buf.len by omega) (by omega)) ?_
  refine wp_bind_ok (Buf.setInt_run _ mid 0 (show 16 + span records + 4 ≤ buf.len by omega) rfl) ?_
  refine wp_bind_ok (Buf.write_run _ mid (show 16 + span records + 12 + key.len ≤ buf.len by omega)
    (by simp only [kInfoLen]; omega)) ?_
  refine wp_bind_ok (Buf.getShort_run ⟨buf.len, newRecord mem (16 + span records) row key⟩ mid
    (show 4 + 2 ≤ buf.len by omega) rfl) ?_
  rw [count]
  refine wp_bind_ok (Buf.setShort_run _ mid _ (show 4 + 2 ≤ buf.len by omega) rfl) ?_
  obtain ⟨content, stored, long⟩ := index.stored present
  have apart : nodeRow id ≠ row := index.fresh_node handed.new present
  rw [len]
  refine (saveNode_run handed.storing ((Rows.put_ne apart).trans stored) long
    (by have := index.two_le present; omega) added.len added.blockId).mono ?_ fun _ _ overflowed => overflowed.halted
  intro _ after saved
  refine ⟨_, row, handed.new, ⟨saved.storing, index.disk.append node lower visits handed.new added⟩, ?_, ?_, ?_⟩
  · rw [Rows.put_ne apart.symm, Rows.put_same]
  · intro other named
    have different : other ≠ row := fun same => index.fresh_name handed.new (same ▸ named)
    rw [Rows.put_ne (index.disk.apart other named id present), Rows.put_ne different]
  · intro compact place present'
    have compact' := compact.others index.disk others fun other => index.fresh_node handed.new
    exact saved.compact compact' (fun other there => Rows.put_handed (index.disk.handed there)) present place
      ((append_present node).mp present')

/-- `_set_key` behind the last record of a node: the value is written as a new row
and the record appended. -/
theorem setKey_past (index : Index file rows tree) (node : tree id = some records) (laid : HasNode buf id records)
    (lower : ∀ other ∈ records, other.key < key.toList) (visits : Visits tree key.toList 2 id)
    (room : 16 + span records + 12 + key.len ≤ 8152) (small : value.len < 2 ^ 31) (left : Nat) :
    wp (setKey (left + 1) buf key value) (fun _ after => ∃ rows' row, rows row = none ∧
      Index after rows' (append tree id ⟨key.toList, 0, some row⟩) ∧ rows' row = some (some value.toList) ∧
      (∀ other, Names tree other → rows' other = rows other) ∧
      (Compact file.toFile tree → Compact after.toFile (append tree id ⟨key.toList, 0, some row⟩)))
      (Halted file.HasRoom) file := by
  have len := laid.len
  obtain ⟨mem, position, cleared, agree⟩ := findPos_past file laid lower (by omega) (by omega)
  obtain ⟨cmp, fields⟩ : ∃ cmp, Reads ⟨buf.len, mem⟩ key (16 + span records) blank file cmp :=
    reads file key cleared (by simp [recordLen, blank]; omega)
  rw [setKey]
  refine wp_bind_ok position ?_
  dsimp only
  refine wp_bind_ok fields.block ?_
  rw [if_pos (show blank.value.number.1 = 0 from rfl)]
  exact setRecord_run index node laid agree lower visits room small

/-- `_set_key` at a record with the key: its row is modified. -/
theorem setKey_held (index : Index file rows tree) (node : tree id = some (before ++ record :: later))
    (laid : HasNode buf id (before ++ record :: later)) (lower : ∀ other ∈ before, other.key < key.toList)
    (same : record.key = key.toList) {row : RecordId} (named : record.value = some row) (small : value.len < 2 ^ 31)
    (left : Nat) : wp (setKey (left + 1) buf key value) (fun _ after => Index after (rows.put row (some
      (value.toList ++ List.replicate (file.leftover stepBound row value.len) 0))) tree ∧
      (Compact file.toFile tree → Compact after.toFile tree)) Overflowed file := by
  obtain ⟨position, cmp, fields⟩ := findPos_node index node laid lower same.ge
  have names : Names tree row := ⟨id, before, record, later, node, named⟩
  obtain ⟨content, stored⟩ := index.disk.live row names
  rw [setKey]
  refine wp_bind_ok position ?_
  dsimp only [kInfoLen]
  refine wp_bind_ok fields.block ?_
  rw [if_neg (slot_nonzero (by simp [named]))]
  refine wp_bind_ok fields.keyLen (wp_bind_ok fields.compared ?_)
  rw [if_pos (fields.sign.zero.mpr same)]
  refine wp_bind_ok fields.row ?_
  rw [named]
  refine (modifyRow_storing index.storing stored value small).mono ?_ fun _ _ overflowed => overflowed
  rintro _ after ⟨_, storing, others⟩
  refine ⟨⟨storing, index.disk.put_value names⟩, fun compact => compact.others index.disk others ?_⟩
  exact fun id present => (index.disk.apart row names id present).symm

/-- Where a node has no link `_set_key` adds a node, and saves the link to it. -/
theorem childAt_none {place : Nat} (link : (buf.getInt place : Exec DataFile Int) file = (.ok 0, file))
    (inside : place + 4 ≤ buf.len) :
    childAt buf place file = (do
      let child ← addNode (buf.byte.int 0)
      saveNode ⟨buf.len, buf.byte.putInt place child⟩
      return child : Exec DataFile Int) file := by
  rw [childAt, bind_ok link, if_pos rfl]
  refine (bind_ok (Buf.getInt_run buf file (show 0 + 4 ≤ buf.len by omega) rfl)).trans ?_
  refine congrArg (fun rest => (addNode (buf.byte.int 0) >>= rest) file) (funext fun child => funext fun mid => ?_)
  exact bind_ok (Buf.setInt_run _ mid child inside rfl)

/-- `_set_key` hangs an empty node under a record that has none. -/
theorem childAt_run (index : Index file rows tree) (node : tree id = some (before ++ record :: later))
    (laid : HasNode buf id (before ++ record :: later)) (leaf : record.left = 0) :
    wp (childAt buf (16 + span before : Nat)) (fun number after => ∃ childId rows', number = ((childId : Nat) : Int) ∧
      tree childId = none ∧ id < childId ∧ Index after rows' (grow tree id before record later childId) ∧
      (∀ other, Names tree other → rows' other = rows other) ∧ (∀ other, rows other ≠ none → rows' other ≠ none) ∧
      (Compact file.toFile tree → Compact after.toFile (grow tree id before record later childId) ∧
        after.info.usedBlockCount = file.info.usedBlockCount + 1))
      (Halted (file.info.usedBlockCount < 262144)) file := by
  have present : tree id ≠ none := by simp [node]
  have lower := index.two_le present
  have len := laid.len
  obtain ⟨content, stored, long⟩ := index.stored present
  obtain ⟨cmp, fields⟩ := node_reads file buf laid
  have inside := laid.inside
  simp only [recordLen] at inside
  have link := fields.left
  rw [leaf, Nat.cast_zero] at link
  refine wp.congr ?_ (childAt_none link (show 16 + span before + 4 ≤ buf.len by omega))
  rcases addNode_run index.storing (buf.byte.int 0) with
    ⟨childId, child, mid, ran, ⟨empty, fresh, later', storing, others, whole, used, _⟩⟩ | ⟨after, ran, outgrown, last⟩
  case inr => exact wp_of_error (bind_error ran) ⟨outgrown, fun room => absurd room last⟩
  refine wp_bind_ok ran ?_
  have larger : id < childId := by
    have above := later' (nodeRow id) (by simp [stored])
    simp only [nodeRow] at above
    omega
  have missing : tree childId = none := by
    by_contra linked
    obtain ⟨content, stored', _⟩ := index.stored linked
    rw [fresh] at stored'
    cases stored'
  have apart : nodeRow id ≠ nodeRow childId := nodeRow_ne (by omega) lower (by omega)
  have mapped : childId < 2147483648 := by
    have has := storing.has (show rows.put _ _ (nodeRow childId) ≠ none by simp)
    have bound : childId - 1 < 262144 := has.mapped storing.ready.formed
    omega
  have linked := laid.link mapped
  rw [len]
  refine wp_bind ((saveNode_run storing ((Rows.put_ne apart).trans stored) long (by omega) linked.len
    linked.blockId).mono (fun _ _ saved => saved) fun _ _ overflowed => overflowed.halted) ?_
  intro _ after saved
  refine wp_pure ⟨childId, _, rfl, missing, larger,
    ⟨saved.storing, index.disk.grow node leaf fresh larger empty linked⟩, ?_, ?_, ?_⟩
  · intro other named
    have different : other ≠ nodeRow childId := fun same => index.fresh_name fresh (same ▸ named)
    rw [Rows.put_ne (index.disk.apart other named id present), Rows.put_ne different]
  · exact fun other handed => Rows.put_handed (Rows.put_handed handed)
  · intro compact
    have compact' := compact.others index.disk others fun other => index.fresh_node fresh
    refine ⟨fun place present' => ?_, by rw [(saved.inPlace (compact' id present)).1, used]⟩
    rcases (grow_present node missing).mp present' with old | rfl
    · exact saved.compact compact' (fun other there => Rows.put_handed (index.disk.handed there)) present place old
    · exact whole.of_record (saved.others _ (by simp) apart.symm)

/-- `_set_key` above a missing node: the record goes into a new node. -/
theorem setKey_gap (index : Index file rows tree) (walk : Walk tree key.toList 2 (.gap id before record later))
    (laid : HasNode buf id (before ++ record :: later)) (used : record.value ≠ none)
    (room : 16 + 12 + key.len ≤ 8152) (small : value.len < 2 ^ 31) (left : Nat) :
    wp (setKey (left + 2) buf key value) (fun _ after => ∃ childId rows' row, tree childId = none ∧ id < childId ∧
      rows row = none ∧ Index after rows'
        (append (grow tree id before record later childId) childId ⟨key.toList, 0, some row⟩) ∧
      rows' row = some (some value.toList) ∧ (∀ other, Names tree other → rows' other = rows other) ∧
      (Compact file.toFile tree → Compact after.toFile
        (append (grow tree id before record later childId) childId ⟨key.toList, 0, some row⟩)))
      (Halted (Compact file.toFile tree ∧ file.info.usedBlockCount + 1 < 262144)) file := by
  obtain ⟨node, lower, upper, leaf⟩ := walk.here
  obtain ⟨position, cmp, fields⟩ := findPos_node index node laid lower upper.le
  rw [setKey]
  refine wp_bind_ok position ?_
  dsimp only [kInfoLen]
  refine wp_bind_ok fields.block ?_
  rw [if_neg (slot_nonzero used)]
  refine wp_bind_ok fields.keyLen (wp_bind_ok fields.compared ?_)
  rw [if_neg (mt fields.sign.zero.mp upper.ne')]
  refine wp_bind ((childAt_run index node laid leaf).mono (fun _ _ grown => grown)
    fun _ _ halted => ⟨halted.1, fun room => halted.2 (by omega)⟩) ?_
  rintro _ mid ⟨childId, rows', rfl, missing, larger, index', kept, handed, compact'⟩
  have grown := grow_walk_self walk missing (by omega)
  obtain ⟨child, last, got, quiet, childLaid⟩ := getNode_run index' grown.here.1
  refine wp_bind_ok got ?_
  refine (setKey_past (index'.quiet quiet) grown.here.1 childLaid grown.here.2 (grown.visits .start) (by simpa using room)
    small left).mono ?_ fun _ _ halted => ⟨halted.1, fun room => halted.2 (.inr ?_)⟩
  case refine_2 => rw [quiet.file, (compact' room.1).2]; exact room.2
  rintro _ after ⟨rows'', row, fresh, index'', content, kept', compact''⟩
  have named {other : RecordId} (named : Names tree other) :
      Names (grow tree id before record later childId) other := by
    obtain ⟨place, earlier, entry, after, split, value⟩ := named
    rcases replace_split { record with left := childId } (plant_node missing node) rfl (plant_node missing split) with
      ⟨rfl, rfl, rfl⟩ | ⟨_, _, new, _⟩
    · exact ⟨place, earlier, _, later, replace_same, value⟩
    · exact ⟨place, _, entry, _, new, value⟩
  refine ⟨childId, rows'', row, missing, larger, ?_, index'', content, fun other names => ?_, fun compact => ?_⟩
  · by_contra old
    exact handed row old fresh
  · rw [kept' other (named names), kept other names]
  · exact compact'' (by rw [quiet.file]; exact (compact' compact).1)

/-- There is room for a record with a key of this length where a search ends. -/
def Accepts (len : Nat) : Spot Key Slot → Prop
  | .held .. => True
  | .past _ records => 16 + span records + 12 + len ≤ 8152
  | .gap .. => 16 + 12 + len ≤ 8152

/-- The zeros that stay behind a value written over a longer one in place. -/
def leftover (file : DataFile) (spot : Spot Key Slot) (len : Nat) : Nat :=
  match spot.value with
  | some (some row) => file.leftover stepBound row len
  | _ => 0

/-- What `_set_key` leaves behind where a search ended: the value lies in one row,
alone or with zeros behind it, and no other value changed. -/
structure SetDone (before after : DataFile) (rows rows' : Rows) (tree tree' : Tree) (key value : Buf)
    (spot : Spot Key Slot) (row : RecordId) : Prop where
  index : Index after rows' tree'
  put : Put tree key.toList (some row) spot tree'
  content : rows' row = some (some (value.toList ++ List.replicate (leftover before spot value.len) 0))
  kept : ∀ other, Names tree other → other ≠ row → rows' other = rows other
  fresh : spot.value = none → rows row = none

/-- The file has the blocks that `_set` takes where a search ends: one for the value, and one for a node
it adds there. -/
def Affords (file : File) : Spot Key Slot → Prop
  | .held .. => True
  | .past .. => file.HasRoom
  | .gap .. => file.info.usedBlockCount + 1 < 262144

/-- `_set` puts the value in where the search for its key ends. -/
theorem set_ends (index : Index file rows tree) (walk : Walk tree key.toList 2 spot)
    (unfreed : Unfreed tree key.toList 2) (accepts : Accepts key.len spot) (small : value.len < 2 ^ 31) (steps : Nat)
    (enough : 262144 ≤ steps) :
    wp (do setKey steps (← getRoot) key value) (fun _ after => ∃ rows' tree' row,
      SetDone file after rows rows' tree tree' key value spot row ∧ (Compact file.toFile tree → Compact after.toFile tree'))
      (Halted (Compact file.toFile tree ∧ Affords file.toFile spot)) file := by
  obtain ⟨records, present⟩ := Option.ne_none_iff_exists'.mp walk.node
  obtain ⟨root, read, got, quiet, rootLaid⟩ := getRoot_run index present
  obtain ⟨left, buf, mid, same, quiet', enough, laid⟩ := setKey_walk value walk unfreed (index.quiet quiet)
    (fun records' same => by rwa [Option.some.inj (same.symm.trans present)]) steps (by omega)
  have index' := (index.quiet quiet).quiet quiet'
  have disk : mid.toFile = file.toFile := (quiet.trans quiet').file
  refine wp_bind_ok got (wp.congr ?_ same)
  rw [← disk]
  cases spot with
  | held id before record later =>
    obtain ⟨node, lower, equal⟩ := walk.here
    obtain ⟨row, named⟩ := Option.ne_none_iff_exists'.mp
      (unfreed id before record later (walk.visits .start) node lower equal.ge)
    refine (setKey_held index' node (laid _ node) lower equal named small left).mono ?_
      fun _ _ overflowed => overflowed.halted
    rintro _ after ⟨index'', compact⟩
    refine ⟨_, tree, row, ⟨index'', .held named, ?_, fun other _ different => Rows.put_ne different, by simp [Spot.value]⟩,
      compact⟩
    simp only [Rows.put_same, leftover, Spot.value, named, disk]
  | past id records =>
    obtain ⟨node, lower⟩ := walk.here
    refine (setKey_past index' node (laid _ node) lower (walk.visits .start) accepts small left).mono ?_
      fun _ _ halted => ⟨halted.1, fun room => halted.2 room.2⟩
    rintro _ after ⟨rows', row, fresh, index'', content, kept, compact⟩
    exact ⟨rows', _, row, ⟨index'', .past, by simpa [leftover, Spot.value] using content,
      fun other named _ => kept other named, fun _ => fresh⟩, compact⟩
  | gap id before record later =>
    obtain ⟨node, lower, upper, leaf⟩ := walk.here
    have used := unfreed id before record later (walk.visits .start) node lower upper.le
    have bound : id ≤ 262144 := index.id_le (by rw [node]; simp)
    simp only [Spot.id] at enough
    obtain ⟨left, rfl⟩ : ∃ more, left = more + 1 := ⟨left - 1, by omega⟩
    refine (setKey_gap index' walk (laid _ node) used accepts small left).mono ?_ fun _ _ halted => halted
    rintro _ after ⟨childId, rows', row, missing, larger, fresh, index'', content, kept, compact⟩
    exact ⟨rows', _, row, ⟨index'', .gap missing larger, by simpa [leftover, Spot.value] using content,
      fun other named _ => kept other named, fun _ => fresh⟩, compact⟩

theorem set_run (index : Index file rows tree) (walk : Walk tree key.toList 2 spot)
    (unfreed : Unfreed tree key.toList 2) (accepts : Accepts key.len spot) (small : value.len < 2 ^ 31) :
    wp (Inner.set key value) (fun _ after => ∃ rows' tree' row, SetDone file after rows rows' tree tree' key value spot row)
      Outgrew file := by
  refine (set_ends index walk unfreed accepts small stepBound (by decide)).mono ?_ fun _ _ halted => halted.1
  rintro _ after ⟨rows', tree', row, done, _⟩
  exact ⟨rows', tree', row, done⟩

end KvIndex

end Pingkv
