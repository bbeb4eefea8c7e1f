import Pingkv.DataFile.Read

/-! Writing through block pointers: adding a record to a block, changing one
record index, copying bytes into one record. Every other record is kept. -/

namespace Pingkv

/-- The file with another content of one block. -/
def File.put (file : File) (page : Nat) (content : Block) : File :=
  { file with block := fun other => if other = page then content else file.block other }

namespace File

variable {file : File} {id other : RecordId} {page : Nat} {content : Block}

@[simp] theorem put_block_same : (file.put page content).block page = content := if_pos rfl

theorem put_block_ne {place : Nat} (different : place ≠ page) :
    (file.put page content).block place = file.block place := if_neg different

/-- A block of the same number with at least as many records may take the place of another. -/
theorem Formed.put (formed : file.Formed) (blockId : content.blockId = (file.block page).blockId)
    (shape : content.Formed)
    (used : page ≤ file.current ∨ content.recordCount = (file.block page).recordCount) :
    (file.put page content).Formed := by
  refine ⟨formed.used_lower, formed.used_upper, formed.used_mapped, formed.size_eq, ?_, ?_, ?_⟩
  · intro place positive within
    by_cases same : place = page
    · subst same
      rw [put_block_same, blockId]
      exact formed.blockId place positive within
    · rw [put_block_ne same]
      exact formed.blockId place positive within
  · intro place positive within
    by_cases same : place = page
    · rw [same, put_block_same]
      exact shape
    · rw [put_block_ne same]
      exact formed.block place positive within
  · intro place above within
    have current := formed.current_eq
    have old := formed.unused place above within
    by_cases same : place = page
    · subst same
      rw [put_block_same]
      rcases used with low | equal
      · exact absurd above (show ¬ file.info.usedBlockCount ≤ place by omega)
      · rw [equal, old]
    · rw [put_block_ne same]
      exact old

theorem Has.put_ne (has : file.Has other) (different : other.page ≠ page) :
    file.Keeps (file.put page content) other := by
  have same : (file.put page content).block other.page = file.block other.page := put_block_ne different
  refine ⟨⟨has.positive, has.within, by rw [same]; exact has.placed⟩, ?_, ?_, ?_⟩
  · simp only [record, same]
  · simp only [ceiling, same]
  · rw [same]
    exact Mem.Agree.refl

/-- A record of the changed block is kept when its index, its ceiling and its bytes are. -/
theorem Has.put_same (has : file.Has other) (page_eq : other.page = page)
    (count : (file.block page).count ≤ content.count)
    (index : recordAt content.data other.place = recordAt (file.block page).data other.place)
    (top : content.offset other.place = (file.block page).offset other.place)
    (data : Mem.Agree content.data (file.block page).data (file.record other).offset.toNat (file.room other)) :
    file.Keeps (file.put page content) other := by
  subst page_eq
  refine ⟨⟨has.positive, has.within, ?_⟩, ?_, ?_, ?_⟩
  · rw [put_block_same]
    exact Nat.lt_of_lt_of_le has.placed count
  · simp only [record, put_block_same, index]
  · simp only [ceiling, put_block_same, top]
  · rw [put_block_same]
    exact data

/-- Two records of one block have disjoint bytes. -/
theorem Has.disjoint (formed : file.Formed) (has : file.Has id) (has' : file.Has other)
    (page_eq : other.page = id.page) (different : other ≠ id) :
    (file.record other).offset + file.room other ≤ (file.record id).offset ∨
      (file.record id).offset + file.room id ≤ (file.record other).offset := by
  have room := has.room_eq formed
  have room' := has'.room_eq formed
  have block := has.block formed
  have placed := has.placed
  have placed' := has'.placed
  have upper := file.offset_eq id
  have upper' : (file.block id.page).offset (other.place + 1) = (file.record other).offset := by
    rw [← page_eq, offset_eq]
  have lower' : file.ceiling other = (file.block id.page).offset other.place := by
    rw [← page_eq]
    rfl
  have lower : file.ceiling id = (file.block id.page).offset id.place := rfl
  rw [page_eq] at placed'
  rcases Nat.lt_trichotomy id.place other.place with less | same | more
  · have order := block.antitone (show id.place + 1 ≤ other.place from less) (Nat.le_of_lt placed')
    omega
  · exact absurd (by cases id; cases other; simp_all) different
  · have order := block.antitone (show other.place + 1 ≤ id.place from more) (Nat.le_of_lt placed)
    omega

end File

namespace DataFile

open Exec

variable {file after : DataFile} {id : RecordId} {page : Nat} {content : Block}

/-- The object after a write to one block of its file. -/
def put (file : DataFile) (page : Nat) (content : Block) : DataFile :=
  { file with toFile := file.toFile.put page content }

theorem store_put [HeadPointers] (positive : 0 < page) (within : page < file.size) :
    store (.page page) content file = (.ok (), file.put page content) := store_page positive within

theorem Ready.put (ready : file.Ready) (blockId : content.blockId = (file.block page).blockId)
    (shape : content.Formed)
    (used : page ≤ file.current ∨ content.recordCount = (file.block page).recordCount) :
    (file.put page content).Ready :=
  ⟨ready.formed.put blockId shape used, ready.cached, ready.serves⟩

/-- Nothing but one record changed. -/
structure Edited (before after : DataFile) (id : RecordId) : Prop where
  ready : after.Ready
  initOk : after.initOk = before.initOk
  info : after.info = before.info
  size : after.size = before.size
  has : after.Has id
  ceiling : after.ceiling id = before.ceiling id
  kept : before.toFile.KeepsBut after.toFile [id]

theorem Edited.trans {last : DataFile} (first : Edited file after id) (second : Edited after last id) :
    Edited file last id :=
  ⟨second.ready, second.initOk.trans first.initOk, second.info.trans first.info,
    second.size.trans first.size, second.has, second.ceiling.trans first.ceiling,
    first.kept.trans second.kept⟩

/-- Changing fields of a record other than its offset. -/
theorem setRecord_run (ready : file.Ready) (has : file.Has id) (change : RecordIndex → RecordIndex)
    (fits : (change (file.record id)).Fits) (same : (change (file.record id)).offset = (file.record id).offset) :
    ∃ after, setRecord (.page id.page) id.rowIdx change file = (.ok (), after) ∧ Edited file after id ∧
      after.record id = change (file.record id) ∧
      ∀ count ≤ file.room id, after.bytes id count = file.bytes id count := by
  let block := file.block id.page
  let changed := block.changeRecord id.place (change (file.record id))
  have shape := has.block ready.formed
  have placed := has.placed
  have counted := shape.count_eq
  have bounds := has.bounds ready.formed
  have place := has.place_lt ready.formed
  have index : recordAt changed.data id.place = change (file.record id) := recordAt_putRecord_same fits
  have start : (change (file.record id)).offset = block.offset (id.place + 1) := by
    rw [same, ← file.offset_eq id]
  have offset : ∀ other, changed.offset other = block.offset other := Block.changeRecord_offset fits start
  refine ⟨file.put id.page changed, ?_, ⟨ready.put rfl (shape.changeRecord fits start) (.inr rfl), rfl,
    rfl, rfl, ⟨has.positive, has.within, ?_⟩, ?_, ?_⟩, ?_, ?_⟩
  · unfold setRecord
    rw [bind_ok (load_page has.positive has.within), if_pos (by
      simp only [RecordId.rowIdx, recordIndexLen, dataLen]; omega), RecordId.rowIdx_toNat]
    exact store_put has.positive has.within
  · change id.place < ((file.toFile.put id.page changed).block id.page).count
    rw [File.put_block_same]
    exact placed
  · change ((file.toFile.put id.page changed).block id.page).offset id.place = _
    rw [File.put_block_same, offset]
    rfl
  · intro other hasOther outside
    have different : other ≠ id := by simpa using outside
    by_cases page_eq : other.page = id.page
    · have far : other.place ≠ id.place := fun place_eq => different (by
        cases id; cases other; simp_all)
      have above := hasOther.bounds ready.formed
      rw [page_eq] at above
      refine hasOther.put_same page_eq (Nat.le_refl _) (Block.changeRecord_ne far) (offset _) ?_
      exact agree_putRecord (by omega)
    · exact hasOther.put_ne page_eq
  · change recordAt ((file.toFile.put id.page changed).block id.page).data id.place = _
    rw [File.put_block_same, index]
  · intro count within
    change ((file.toFile.put id.page changed).block id.page).data.slice
      (recordAt ((file.toFile.put id.page changed).block id.page).data id.place).offset.toNat count = _
    rw [File.put_block_same, index, same]
    have clear : Mem.Agree changed.data block.data (file.record id).offset.toNat count :=
      agree_putRecord (by omega)
    exact clear.slice_eq

/-- Copying bytes to the start of a record that has room for them. -/
theorem copyInto_run (ready : file.Ready) (has : file.Has id) (src : Mem) {count : Nat}
    (within : count ≤ file.room id) :
    ∃ after, copyInto (.page id.page) (file.record id).offset src count file = (.ok (), after) ∧
      Edited file after id ∧ after.record id = file.record id ∧
      (after.block id.page).data =
        (file.block id.page).data.copy (file.record id).offset.toNat src count := by
  let copied := (file.block id.page).copyData (file.record id).offset.toNat src count
  have shape := has.block ready.formed
  have bounds := has.bounds ready.formed
  have nonneg := has.offset_nonneg ready.formed
  have room := has.room_eq ready.formed
  have above : 16 * (file.block id.page).recordCount ≤ ((file.record id).offset.toNat : Int) := by omega
  have index {place : Nat} (below : place < (file.block id.page).count) :
      recordAt copied.data place = recordAt (file.block id.page).data place :=
    Block.copyData_record shape above below
  have offset {place : Nat} (below : place ≤ (file.block id.page).count) :
      copied.offset place = (file.block id.page).offset place := Block.copyData_offset shape above below
  refine ⟨file.put id.page copied, ?_, ⟨ready.put rfl (shape.copyData above) (.inr rfl), rfl, rfl, rfl,
    ⟨has.positive, has.within, ?_⟩, ?_, ?_⟩, ?_, ?_⟩
  · unfold copyInto
    rw [bind_ok (load_page has.positive has.within), if_pos (by simp only [dataLen]; omega)]
    exact store_put has.positive has.within
  · change id.place < ((file.toFile.put id.page copied).block id.page).count
    rw [File.put_block_same]
    exact has.placed
  · change ((file.toFile.put id.page copied).block id.page).offset id.place = _
    rw [File.put_block_same, offset (Nat.le_of_lt has.placed)]
    rfl
  · intro other hasOther outside
    have different : other ≠ id := by simpa using outside
    by_cases page_eq : other.page = id.page
    · have placed := hasOther.placed
      rw [page_eq] at placed
      have apart := has.disjoint ready.formed hasOther page_eq different
      have nonnegOther := hasOther.offset_nonneg ready.formed
      refine hasOther.put_same page_eq (Nat.le_refl _) (index placed) (offset (Nat.le_of_lt placed)) ?_
      exact Mem.agree_copy (by omega)
    · exact hasOther.put_ne page_eq
  · change recordAt ((file.toFile.put id.page copied).block id.page).data id.place = _
    rw [File.put_block_same, index has.placed]
    rfl
  · change ((file.toFile.put id.page copied).block id.page).data = _
    rw [File.put_block_same]
    rfl

/-- The record that `_row_add_record` puts into a block. -/
def newRecord (block : Block) (len : Nat) : RecordIndex where
  flags := if block.free < len then rowSetChained 0 else 0
  offset := 16 * (block.recordCount + 1) + block.free - min block.free len
  len := len
  nextBlockId := 0
  nextRowIdx := 0

/-- A record was added to the used block, with all the room it asked for or all there was. -/
structure Added (before after : DataFile) (id : RecordId) (len : Nat) : Prop where
  place : id = ⟨before.current, (before.block before.current).count⟩
  ready : after.Ready
  initOk : after.initOk = before.initOk
  info : after.info = before.info
  size : after.size = before.size
  has : after.Has id
  record : after.record id = newRecord (before.block before.current) len
  room : (after.room id : Int) = min (before.block before.current).free len
  kept : before.toFile.KeepsBut after.toFile []
  full : (before.block before.current).free < len → (after.block before.current).free = 0

private theorem lastOffset_eq {block : Block} (formed : block.Formed) :
    (if block.recordCount > 0 then (recordAt block.data (block.recordCount - 1).toNat).offset else dataLen) =
      block.offset block.count := by
  have counted := formed.count_eq
  by_cases some : block.recordCount > 0
  · have pred : block.count = (block.recordCount - 1).toNat + 1 := by omega
    rw [if_pos some, pred, Block.offset_succ]
  · have none : block.count = 0 := by omega
    rw [if_neg some, none]
    rfl

private theorem newRecord_eq {block : Block} (room : block.free ≠ 0) (len : Nat) :
    newRecord block len = {
      flags := if decide (block.free < len) then rowSetChained 0 else 0
      offset := if decide (block.free < len) then (block.recordCount + 1) * recordIndexLen
        else block.offset block.count - len
      len := len
      nextBlockId := 0
      nextRowIdx := 0 } := by
  have top := Block.free_room room
  simp only [newRecord, RecordIndex.mk.injEq, and_true, decide_eq_true_eq, true_and]
  by_cases chained : block.free < len
  · rw [if_pos chained, min_eq_left (by omega)]
    simp only [recordIndexLen]
    omega
  · rw [if_neg chained, min_eq_right (by omega), top]

private theorem newRecord_fits {block : Block} (formed : block.Formed) (room : block.free ≠ 0) {len : Nat}
    (small : len < 2 ^ 31) : (newRecord block len).Fits ∧
      16 * (block.recordCount + 1) ≤ (newRecord block len).offset ∧
      (newRecord block len).offset ≤ block.offset block.count := by
  have top := Block.free_room room
  have bounds := formed.bounds (Nat.le_refl _)
  have counted := formed.counted
  have nonneg := block.free_nonneg
  have least : 0 ≤ min block.free len ∧ min block.free len ≤ block.free := by omega
  simp only [newRecord]
  refine ⟨⟨by simp only; omega, by simp only; omega, by simp, by simp⟩, by omega, by omega⟩

/-- The used block with one more record, for a row of this length. -/
private def grown (file : DataFile) (len : Nat) : Block :=
  (file.block file.current).addRecord (newRecord (file.block file.current) len)

private theorem grown_block (file : DataFile) (len : Nat) :
    (file.toFile.put file.current (file.grown len)).block file.current = file.grown len := File.put_block_same

private theorem added_put (ready : file.Ready) (room : (file.block file.current).free ≠ 0) {len : Nat}
    (small : len < 2 ^ 31) :
    Added file (file.put file.current (file.grown len)) ⟨file.current, (file.block file.current).count⟩ len := by
  have formed := ready.formed
  have shape := formed.current_block
  have counted := shape.count_eq
  have top := Block.free_room room
  have bounds := shape.bounds (Nat.le_refl _)
  have nonneg := (file.block file.current).free_nonneg
  obtain ⟨fits, above, below⟩ := newRecord_fits shape room small
  have count : (file.grown len).count = (file.block file.current).count + 1 := Block.addRecord_count shape _
  have index : recordAt (file.grown len).data (file.block file.current).count = newRecord (file.block file.current) len :=
    recordAt_putRecord_same fits
  have same := file.grown_block len
  refine ⟨rfl, ready.put rfl (shape.addRecord fits above below) (.inl (Nat.le_refl _)), rfl, rfl, rfl,
    ⟨formed.current_positive, formed.current_within, ?_⟩, ?_, ?_, ?_, ?_⟩
  · change (file.block file.current).count < ((file.toFile.put file.current (file.grown len)).block file.current).count
    rw [same, count]
    omega
  · change recordAt ((file.toFile.put file.current (file.grown len)).block file.current).data _ = _
    rw [same, index]
  · have ceiling : (file.put file.current (file.grown len)).ceiling ⟨file.current, (file.block file.current).count⟩ =
        (file.block file.current).offset (file.block file.current).count := by
      change ((file.toFile.put file.current (file.grown len)).block file.current).offset _ = _
      rw [same]
      exact Block.addRecord_offset_old (Nat.le_refl _)
    have start : (file.put file.current (file.grown len)).record ⟨file.current, (file.block file.current).count⟩ =
        newRecord (file.block file.current) len := by
      change recordAt ((file.toFile.put file.current (file.grown len)).block file.current).data _ = _
      rw [same, index]
    unfold File.room
    rw [ceiling, start]
    simp only [newRecord]
    omega
  · intro other hasOther _
    by_cases page_eq : other.page = file.current
    · have placed := hasOther.placed
      have start := file.offset_eq other
      rw [page_eq] at placed start
      have above := shape.antitone (show other.place + 1 ≤ _ from placed) (Nat.le_refl _)
      refine hasOther.put_same page_eq (by rw [count]; omega) (Block.addRecord_old placed)
        (Block.addRecord_offset_old (Nat.le_of_lt placed)) ?_
      exact agree_putRecord (by omega)
    · exact hasOther.put_ne page_eq
  · intro chained
    change ((file.toFile.put file.current (file.grown len)).block file.current).free = 0
    rw [same]
    have last : (file.grown len).offset (file.grown len).count = 16 * ((file.block file.current).recordCount + 1) := by
      rw [count, Block.offset_succ, index]
      simp only [newRecord]
      omega
    have number : (file.grown len).recordCount = (file.block file.current).recordCount + 1 := rfl
    unfold Block.free
    rw [if_neg (by rw [number]; omega), if_pos (by rw [last, number]; omega)]

theorem rowAddRecord_run (ready : file.Ready) (room : (file.block file.current).free ≠ 0) {len : Nat}
    (small : len < 2 ^ 31) : ∃ id after,
      rowAddRecord (.page file.current) len (decide ((file.block file.current).free < len)) file =
        (.ok id.rowIdx, after) ∧ Added file after id len := by
  have formed := ready.formed
  have shape := formed.current_block
  have counted := shape.count_eq
  have top := Block.free_room room
  have bounds := shape.bounds (Nat.le_refl _)
  have nonneg := (file.block file.current).free_nonneg
  refine ⟨_, _, ?_, added_put ready room small⟩
  unfold rowAddRecord
  rw [bind_ok (load_page formed.current_positive formed.current_within)]
  simp only [lastOffset_eq shape]
  rw [if_pos (by simp only [recordIndexLen, dataLen]; omega), ← newRecord_eq room len,
    bind_ok (store_put formed.current_positive formed.current_within), pure_run]
  have place : ((file.block file.current).recordCount + 1 - 1).toNat = (file.block file.current).count := by omega
  have number : RecordId.rowIdx ⟨file.current, (file.block file.current).count⟩ =
      (file.block file.current).recordCount + 1 := by
    simp only [RecordId.rowIdx]
    omega
  rw [place, number]
  rfl

end DataFile

end Pingkv
