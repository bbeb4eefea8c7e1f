import Pingkv.DataFile.Modify

/-! The links between records. A record is linked to another one only after that
one was added, so links lead to later records. -/

namespace Pingkv

/-- Records in the order of their blocks, and in a block in the order they were added. -/
def RecordId.Before (id next : RecordId) : Prop := id.page < next.page ∨ id.page = next.page ∧ id.place < next.place

namespace File

variable {file before after : File} {id next : RecordId}

/-- What a record index is linked to, where it is linked, is a later record of the file. -/
def Linked (file : File) (id : RecordId) (record : RecordIndex) : Prop :=
  (record.nextBlockId ≠ 0 ∨ record.nextRowIdx ≠ 0) → ∃ next, file.Has next ∧ id.Before next ∧
    record.nextBlockId = next.blockId ∧ record.nextRowIdx = next.rowIdx

/-- All links lead to later records. -/
def Forward (file : File) : Prop := ∀ id, file.Has id → file.Linked id (file.record id)

/-- No block has got another number of records. -/
structure Counts (before after : File) : Prop where
  size : after.size = before.size
  count : ∀ page, (after.block page).recordCount = (before.block page).recordCount

theorem Counts.trans {last : File} (first : before.Counts after) (second : after.Counts last) : before.Counts last :=
  ⟨second.size.trans first.size, fun page => (second.count page).trans (first.count page)⟩

theorem Counts.has (counts : before.Counts after) : after.Has id ↔ before.Has id := by
  have count : (after.block id.page).count = (before.block id.page).count := by
    simp only [Block.count, counts.count]
  refine ⟨fun has => ⟨has.positive, counts.size ▸ has.within, count ▸ has.placed⟩,
    fun has => ⟨has.positive, counts.size ▸ has.within, count ▸ has.placed⟩⟩

theorem Linked.mono {record : RecordIndex} (linked : before.Linked id record) (kept : ∀ next, before.Has next → after.Has next) :
    after.Linked id record := by
  intro some
  obtain ⟨next, has, later, links⟩ := linked some
  exact ⟨next, kept next has, later, links⟩

/-- A record without a link. -/
theorem linked_none {record : RecordIndex} (block : record.nextBlockId = 0) (row : record.nextRowIdx = 0) :
    file.Linked id record := fun some => some.elim (absurd block) (absurd row)

/-- Changes of one record, which stays linked. -/
theorem Forward.edit (forward : before.Forward) (kept : before.KeepsBut after [id])
    (only : ∀ other, after.Has other → other = id ∨ before.Has other) (has : after.Has id)
    (linked : after.Linked id (after.record id)) : after.Forward := by
  have grown (next : RecordId) (old : before.Has next) : after.Has next := by
    by_cases same : next = id
    · rw [same]
      exact has
    · exact (kept next old (by simpa using same)).has
  intro other present
  by_cases same : other = id
  · rw [same]
    exact linked
  · have old := (only other present).resolve_left same
    rw [(kept other old (by simpa using same)).record]
    exact (forward other old).mono grown

/-- New blocks hold no records. -/
theorem Forward.opens (forward : before.Forward) (opens : before.Opens after) : after.Forward := by
  intro id has
  have kept := opens.kept_but
  have old : before.Has id := by
    by_cases within : id.page < before.size
    · exact ⟨has.positive, within, opens.kept id.page within ▸ has.placed⟩
    · have placed := has.placed
      rw [Block.count, opens.fresh id.page (by omega) has.within] at placed
      exact absurd placed (Nat.not_lt_zero _)
  rw [(kept.keeps old).record]
  exact (forward id old).mono fun _ => kept.has

/-- A file without records. -/
theorem forward_of_empty (empty : ∀ page, 0 < page → page < file.size → (file.block page).recordCount = 0) :
    file.Forward := by
  intro id has
  have placed := has.placed
  rw [Block.count, empty id.page has.positive has.within] at placed
  exact absurd placed (Nat.not_lt_zero _)

end File

namespace DataFile

open Exec

variable {file after : DataFile} {id : RecordId} {block : BlockPtr}

private theorem wp_store (block : BlockPtr) (content : Block) (file : DataFile) : wp (store block content)
    (fun _ after => ∃ page, block = .page page ∧ after = file.put page content) (fun _ _ => True) file := by
  cases block with
  | page page =>
    unfold store
    refine wp_bind_ok (read_run _ file) ?_
    split
    · exact ⟨page, rfl, rfl⟩
    · trivial
  | null | mapFailed | dangling => trivial

/-- A block is written back with as many records. -/
private theorem store_counts {content : Block} {page : Nat} (same : content.recordCount = (file.block page).recordCount) :
    wp (store (.page page) content) (fun _ after => file.toFile.Counts after.toFile) (fun _ _ => True) file := by
  refine (wp_store _ content file).mono ?_ fun _ _ halted => halted
  rintro _ after ⟨other, isPage, rfl⟩
  obtain rfl := BlockPtr.page.inj isPage
  refine ⟨rfl, fun other => ?_⟩
  by_cases here : other = page
  · rw [here]
    exact (congrArg Block.recordCount File.put_block_same).trans same
  · exact congrArg Block.recordCount (File.put_block_ne here)

theorem setRecord_counts (block : BlockPtr) (idx : Int) (change : RecordIndex → RecordIndex) (file : DataFile) :
    wp (setRecord block idx change) (fun _ after => file.toFile.Counts after.toFile) (fun _ _ => True) file := by
  refine wp_bind ((wp_load block file).mono (fun _ _ loaded => loaded) fun _ _ _ => trivial) ?_
  rintro content _ ⟨rfl, page, rfl, _, _, rfl⟩
  split
  · exact store_counts rfl
  · trivial

theorem copyInto_counts (block : BlockPtr) (offset : Int) (src : Mem) (count : Int) (file : DataFile) :
    wp (copyInto block offset src count) (fun _ after => file.toFile.Counts after.toFile) (fun _ _ => True) file := by
  refine wp_bind ((wp_load block file).mono (fun _ _ loaded => loaded) fun _ _ _ => trivial) ?_
  rintro content _ ⟨rfl, page, rfl, _, _, rfl⟩
  split
  · exact store_counts rfl
  · trivial

/-- One block has one more record. -/
theorem rowAddRecord_counts (block : BlockPtr) (len : Int) (chained : Bool) (file : DataFile) :
    wp (rowAddRecord block len chained) (fun _ after => after.size = file.size ∧ ∀ page,
      (after.block page).recordCount = (file.block page).recordCount ∨
        block = .page page ∧ (after.block page).recordCount = (file.block page).recordCount + 1) (fun _ _ => True) file := by
  refine wp_bind ((wp_load block file).mono (fun _ _ loaded => loaded) fun _ _ _ => trivial) ?_
  rintro content _ ⟨rfl, page, rfl, _, _, rfl⟩
  dsimp only
  split
  · refine wp_bind ((wp_store _ _ _).mono (fun _ _ stored => stored) fun _ _ _ => trivial) ?_
    rintro _ after ⟨other, isPage, rfl⟩
    obtain rfl := BlockPtr.page.inj isPage
    refine wp_pure ⟨rfl, fun other => ?_⟩
    by_cases here : other = page
    · refine .inr ⟨by rw [here], ?_⟩
      rw [here]
      exact congrArg Block.recordCount File.put_block_same
    · exact .inl (congrArg Block.recordCount (File.put_block_ne here))
  · trivial

/-- The new record is the only one. -/
theorem Added.forward {len : Nat} {chained : Bool} {idx : Int} (added : Added file after id len) (formed : file.toFile.Formed)
    (ran : rowAddRecord (.page file.current) len chained file = (.ok idx, after)) (forward : file.toFile.Forward) :
    after.toFile.Forward := by
  obtain ⟨size, counts⟩ := (rowAddRecord_counts _ _ _ file).ok ran
  have counted := formed.current_block.counted
  refine forward.edit (added.kept.mono (by simp)) (fun other has => ?_) added.has ?_
  · have placed := has.placed
    by_cases here : other = id
    · exact .inl here
    refine .inr ⟨has.positive, size ▸ has.within, ?_⟩
    rcases counts other.page with same | ⟨isPage, more⟩
    · rwa [Block.count, same] at placed
    · have page : file.current = other.page := BlockPtr.page.inj isPage
      have different : other.place ≠ (file.block file.current).count := fun place => here (by
        rw [added.place, page, ← page, ← place, page])
      rw [Block.count, more] at placed
      rw [page] at different counted
      simp only [Block.count] at different ⊢
      omega
  · rw [added.record]
    exact File.linked_none rfl rfl

/-- Changes of fields of a record that stays linked. -/
theorem Edited.forward (edited : Edited file after id) (counts : file.toFile.Counts after.toFile)
    (linked : after.toFile.Linked id (after.record id)) (forward : file.toFile.Forward) : after.toFile.Forward :=
  forward.edit edited.kept (fun _ has => .inr (counts.has.mp has)) edited.has linked

/-- A change that leaves the link of a record alone. -/
theorem Edited.linked (edited : Edited file after id) (counts : file.toFile.Counts after.toFile)
    (block : (after.record id).nextBlockId = (file.record id).nextBlockId)
    (row : (after.record id).nextRowIdx = (file.record id).nextRowIdx) (forward : file.toFile.Forward) :
    after.toFile.Forward := by
  refine edited.forward counts (fun some => ?_) forward
  rw [block, row] at some ⊢
  obtain ⟨next, has, later, links⟩ := forward id (counts.has.mp edited.has) some
  exact ⟨next, counts.has.mpr has, later, links⟩

end DataFile

end Pingkv
