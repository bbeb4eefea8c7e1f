import Pingkv.DataFile.Write

/-! What the public methods that write rows do to a data file: the new content
of the row they are about, and which records they leave alone. -/

namespace Pingkv

namespace File

variable {file : File} {id : RecordId} {content : List UInt8} {path : List RecordId}

/-- The record where the links of a migrated row end. -/
def settled (file : File) : Nat → RecordId → RecordId
  | 0, id => id
  | steps + 1, id =>
    if rowMigrated (file.record id).flags = 1 then
      settled file steps ⟨((file.record id).nextBlockId - 1).toNat, ((file.record id).nextRowIdx - 1).toNat⟩
    else id

/-- How many zero bytes a modification to `len` bytes leaves at the end of a row:
a record that is written in place keeps its old length. -/
def leftover (file : File) (steps : Nat) (id : RecordId) (len : Nat) : Nat :=
  let last := file.record (file.settled steps id)
  if rowChained last.flags = 1 then 0 else last.len.toNat - len

/-- A row that lies in the record it was written to first. -/
def Whole (file : File) (id : RecordId) : Prop :=
  rowMigrated (file.record id).flags ≠ 1 ∧ rowChained (file.record id).flags ≠ 1

theorem Whole.of_record {after : File} (whole : file.Whole id) (same : after.record id = file.record id) :
    after.Whole id := by
  rwa [Whole, same]

theorem settled_link (next : RecordId) {steps : Nat} (migrated : rowMigrated (file.record id).flags = 1)
    (nextBlock : (file.record id).nextBlockId = next.blockId)
    (nextRow : (file.record id).nextRowIdx = next.rowIdx) :
    file.settled (steps + 1) id = file.settled steps next := by
  rw [settled, if_pos migrated, nextBlock, nextRow]
  simp [RecordId.blockId, RecordId.rowIdx]

theorem leftover_link (next : RecordId) {steps len : Nat}
    (migrated : rowMigrated (file.record id).flags = 1)
    (nextBlock : (file.record id).nextBlockId = next.blockId)
    (nextRow : (file.record id).nextRowIdx = next.rowIdx) :
    file.leftover (steps + 1) id len = file.leftover steps next len := by
  simp only [leftover, settled_link next migrated nextBlock nextRow]

theorem settled_here {steps : Nat} (settled : rowMigrated (file.record id).flags ≠ 1) :
    file.settled steps id = id := by
  cases steps with
  | zero => rfl
  | succ steps => rw [File.settled, if_neg settled]

/-- A row keeps no more bytes than it had. -/
theorem Holds.leftover_le (holds : file.Holds id content path) (formed : file.Formed) (len : Nat) :
    ∀ steps, 2 ^ 28 - id.rank ≤ steps → file.leftover steps id len ≤ content.length - len := by
  induction holds with
  | @moved id next content path has live migrated nextBlock nextRow later outside rest ih =>
    intro steps enough
    have bound := has.rank_lt formed
    obtain _ | steps := steps
    · omega
    · rw [leftover_link next migrated nextBlock nextRow]
      exact ih steps (by omega)
  | @chained id content path live settled chained chain =>
    intro steps enough
    simp [leftover, settled_here settled, chained]
  | @whole id content live settled whole chain =>
    intro steps enough
    simp [leftover, settled_here settled, whole, chain.length]

end File

namespace DataFile

open Exec

variable {file after : DataFile} {id : RecordId} {content : List UInt8} {path : List RecordId}

/-- A call stopped with the file past `2 ^ 31` bytes. -/
def Outgrew (_ : Stop) (after : DataFile) : Prop := after.toFile.Outgrown

/-- A row was put into records that were not there before, later than all there were. -/
structure Placed (before after : DataFile) (id : RecordId) (content : List UInt8) (path : List RecordId) :
    Prop where
  ready : after.Ready
  initOk : after.initOk = before.initOk
  size : before.size ≤ after.size
  kept : before.toFile.KeepsBut after.toFile []
  holds : after.toFile.Holds id content path
  fresh : ∀ place ∈ path, ¬ before.Has place
  later : ∀ other, before.Has other → other.rank < id.rank

theorem Wrote.later {other : RecordId} (wrote : Wrote file after id content path) (ready : file.Ready)
    (has : file.Has other) : other.rank < id.rank := by
  have formed := ready.formed
  have low := has.page_le_current formed
  have small := has.place_lt formed
  have placed := has.placed
  have page := wrote.page
  have missing : ¬ id.place < (file.block id.page).count := fun placed =>
    wrote.fresh id wrote.chain.head_mem
      ⟨by rw [page]; exact formed.current_positive, by rw [page]; exact formed.current_within, placed⟩
  simp only [RecordId.rank]
  by_cases same : other.page = id.page
  · rw [same] at placed
    omega
  · omega

theorem Wrote.placed (wrote : Wrote file after id content path) (ready : file.Ready) :
    Placed file after id content path :=
  ⟨wrote.ready, wrote.initOk, wrote.size, wrote.kept, wrote.holds, wrote.fresh,
    fun _ has => wrote.later ready has⟩

theorem Wrote.whole (wrote : Wrote file after id content path) (single : path = [id]) : after.Whole id := by
  simp only [File.Whole, wrote.flags, if_pos single]
  decide

/-- Blocks may have been added before the row was placed. -/
theorem Placed.opened {mid : DataFile} (placed : Placed mid after id content path)
    (initOk : mid.initOk = file.initOk) (opens : file.toFile.Opens mid.toFile) :
    Placed file after id content path :=
  ⟨placed.ready, placed.initOk.trans initOk, Nat.le_trans opens.size placed.size,
    opens.kept_but.trans placed.kept, placed.holds,
    fun place member has => placed.fresh place member (opens.kept_but.has has),
    fun other has => placed.later other (opens.kept_but.has has)⟩

/-- A call stopped with the file past `2 ^ 31` bytes, and with -1 where there was room. -/
def Halted (room : Prop) (reason : Stop) (after : DataFile) : Prop :=
  after.toFile.Outgrown ∧ (room → reason = .failed)

theorem Overflowed.halted {room : Prop} {reason : Stop} (overflowed : Overflowed reason after) :
    Halted room reason after := ⟨overflowed.2, fun _ => overflowed.1⟩

/-- A block that any file past `2 ^ 31` bytes has. -/
private def Mapped (block : BlockPtr) : Prop := ∃ page, block = .page page ∧ 0 < page ∧ page < 262144

private theorem Found.mapped {mid : DataFile} {block : BlockPtr} {fre : Int} (found : Found file mid block fre) :
    Mapped block :=
  ⟨_, found.place, found.ready.formed.current_positive, found.ready.formed.current_mapped⟩

private theorem writeError_halted {α : Type} {post : α → DataFile → Prop} (block : BlockPtr)
    (outgrown : file.toFile.Outgrown) : wp (writeError block) post (Halted (Mapped block)) file := by
  have same : ∀ outcome after, load block file = (outcome, after) → after = file := by
    intro outcome after run
    cases block with
    | page page =>
      simp only [load, read_bind_run] at run
      split at run <;> exact (congrArg Prod.snd run).symm
    | _ => exact (congrArg Prod.snd run).symm
  unfold writeError
  cases run : load block file with
  | mk outcome after =>
    have unchanged := same outcome after run
    subst unchanged
    cases outcome with
    | ok content => exact wp_bind_ok run ⟨outgrown, fun _ => rfl⟩
    | error reason =>
      refine wp_of_error (bind_error run) ⟨outgrown, ?_⟩
      rintro ⟨page, rfl, positive, mapped⟩
      simp only [File.Outgrown, Pingkv.blockSize] at outgrown
      rw [load_page positive (by omega)] at run
      cases run

private theorem stopped_bind {α β : Type} {call : Exec DataFile α} {next : α → Exec DataFile β}
    {post : β → DataFile → Prop} {halt : Stop → DataFile → Prop}
    (stopped : wp call (fun _ _ => False) halt file) : wp (call >>= next) post halt file :=
  wp_bind stopped fun _ _ never => never.elim

private theorem writeRow_tail {α : Type} (block : BlockPtr) (value : Int → α)
    {row : Buf} {post : α → DataFile → Prop}
    (holds : wp (Inner.writeRow stepBound block row) (fun idx => post (value idx)) Overflowed file) :
    wp (do
      match ← attempt (Inner.writeRow stepBound block row) with
      | some idx => pure (value idx)
      | none => writeError block) post (Halted (Mapped block)) file := by
  have attempted : wp (attempt (Inner.writeRow stepBound block row)) (fun outcome after =>
      match outcome with
      | some idx => post (value idx) after
      | none => after.toFile.Outgrown) Overflowed file :=
    wp_attempt holds (fun _ _ holds => holds) (fun _ overflowed => overflowed.2)
  refine wp_bind (attempted.mono (fun _ _ holds => holds) fun _ _ overflowed => overflowed.halted) ?_
  intro outcome after holds
  cases outcome with
  | some idx => exact wp_pure holds
  | none => exact writeError_halted block holds

theorem small_lt_stepBound {len : Nat} (small : len < 2 ^ 31) : len < stepBound :=
  Nat.lt_of_lt_of_le small (by decide)

/-- `write_row` stores the row under a new id, in the used block where that has
bytes free, or the file has outgrown its bound. -/
theorem writeRow_ready (ready : file.Ready) (row : Buf) (small : row.len < 2 ^ 31) :
    wp (writeRow row) (fun number after => ∃ id path, number = (id.blockId, id.rowIdx) ∧
      Placed file after id row.toList path ∧ ((file.block file.current).free ≠ 0 →
        id = ⟨file.current, (file.block file.current).count⟩ ∧
        (row.len ≤ (file.block file.current).free → after.Whole id))) (Halted file.HasRoom) file := by
  unfold writeRow
  obtain ⟨block, fre, mid, find, outcome⟩ := findBlockCanWrite_run ready
  refine wp_bind_ok find ?_
  rcases outcome with ⟨⟨rfl, outgrown⟩, full⟩ | found
  · refine stopped_bind ((writeError_halted block outgrown).mono (fun _ _ never => never) ?_)
    exact fun _ _ halted => ⟨halted.1, fun room => absurd room full⟩
  · have free := found.free
    have some := found.positive
    have mapped := found.mapped
    have place := found.place
    subst place
    simp only [show fre ≠ -1 by omega, if_false]
    have formed := found.ready.formed
    refine wp_bind_ok (load_page formed.current_positive formed.current_within) ?_
    rw [formed.blockId _ formed.current_positive formed.current_within]
    refine (writeRow_tail _ (fun idx => (_, idx)) ?_).mono (fun _ _ placed => placed)
      fun _ _ halted => ⟨halted.1, fun _ => halted.2 mapped⟩
    refine (writeRow_inner stepBound row found.ready (by omega) small (small_lt_stepBound small)).mono ?_
      fun _ _ overflowed => overflowed
    rintro _ after ⟨id, path, rfl, wrote, whole⟩
    refine ⟨id, path, ?_, (wrote.placed found.ready).opened found.initOk found.opens, fun some => ?_⟩
    · rw [RecordId.blockId, wrote.page]
    · have same := found.opens.kept _ ready.formed.current_within
      rw [found.stays some, same] at whole
      refine ⟨by rw [wrote.place, found.stays some, same], fun fits => wrote.whole (whole fits)⟩

/-- The first record of a block that was moved on to. -/
theorem Moved.placed {mid opened : DataFile} (initOk : mid.initOk = file.initOk)
    (opens : file.toFile.Opens mid.toFile) (used : mid.info.usedBlockCount = file.info.usedBlockCount)
    (moved : Moved mid opened) (wrote : Wrote opened after id content path) :
    id.page = opened.current ∧ id.place = 0 ∧ file.current < id.page ∧ Placed file after id content path := by
  have current : mid.current = file.current := by simp only [File.current, used]
  have page := wrote.page
  refine ⟨page, ?_, by rw [page, moved.current, current]; omega,
    ((wrote.placed moved.ready).opened moved.initOk moved.opens).opened initOk opens⟩
  rw [wrote.place]
  simp only [Block.count, moved.empty, Int.toNat_zero]

/-- `write_row_new_block` stores the row as the first record of a block of its own. -/
theorem writeRowNewBlock_ready (ready : file.Ready) (row : Buf) (small : row.len < 2 ^ 31) :
    wp (writeRowNewBlock row) (fun blockId after => ∃ id path, blockId = id.blockId ∧ id.place = 0 ∧
      file.current < id.page ∧ Placed file after id row.toList path) Outgrew file := by
  unfold writeRowNewBlock
  obtain ⟨mid, extended, readyMid, initOk, opens, used, room⟩ := extendWhenUsed_run ready
  obtain ⟨block, opened, next, outcome⟩ := readNextBlock_run readyMid room
  refine wp_bind_ok extended (wp_bind_ok next ?_)
  rcases outcome with ⟨⟨rfl, outgrown⟩, _⟩ | ⟨⟨rfl, moved⟩, _⟩
  · exact stopped_bind ((writeError_halted .mapFailed outgrown).mono (fun _ _ never => never) fun _ _ halted => halted.1)
  · simp only [reduceCtorEq, if_false]
    have formed := moved.ready.formed
    have free : (opened.block opened.current).free = 8152 := by simp [Block.free, moved.empty]
    refine wp_bind_ok (load_page formed.current_positive formed.current_within) ?_
    rw [formed.blockId _ formed.current_positive formed.current_within]
    refine (writeRow_tail _ (fun _ => _) ?_).mono (fun _ _ placed => placed) fun _ _ halted => halted.1
    refine (writeRow_inner stepBound row moved.ready (by omega) small (small_lt_stepBound small)).mono ?_
      fun _ _ overflowed => overflowed
    rintro _ after ⟨id, path, rfl, wrote, _⟩
    obtain ⟨page, first, later, placed⟩ := moved.placed initOk opens used wrote
    exact ⟨id, path, by rw [RecordId.blockId, page], first, later, placed⟩

/-- A row of the size of a block goes into the next block as a whole, unless there is no next one to map. -/
theorem writeRowNewBlock_short (ready : file.Ready) (row : Buf) (fits : row.len ≤ 8152) :
    (∃ id after, writeRowNewBlock row file = (.ok id.blockId, after) ∧ id.place = 0 ∧ file.current < id.page ∧
      Placed file after id row.toList [id] ∧ after.Whole id ∧
      after.info.blockCount % 128 = file.info.blockCount % 128 ∧
      after.info.usedBlockCount = file.info.usedBlockCount + 1 ∧ file.info.usedBlockCount < 262144) ∨
    ∃ after, writeRowNewBlock row file = (.error .fault, after) ∧ after.toFile.Outgrown ∧
      ¬ file.info.usedBlockCount < 262144 := by
  unfold writeRowNewBlock
  obtain ⟨mid, extended, readyMid, initOk, opens, used, room⟩ := extendWhenUsed_run ready
  obtain ⟨block, opened, next, outcome⟩ := readNextBlock_run readyMid room
  rw [bind_ok extended, bind_ok next]
  rcases outcome with ⟨⟨rfl, outgrown⟩, last⟩ | ⟨⟨rfl, moved⟩, mapped⟩
  · exact .inr ⟨opened, rfl, outgrown, used ▸ last⟩
  · have formed := moved.ready.formed
    have free : (opened.block opened.current).free = 8152 := by simp [Block.free, moved.empty]
    obtain ⟨id, after, ran, wrote, info⟩ := writeRow_short moved.ready (by omega) row (by omega) (by omega) (stepBound - 1)
    obtain ⟨page, first, later, placed⟩ := moved.placed initOk opens used wrote
    rw [show stepBound - 1 + 1 = stepBound by decide] at ran
    refine .inl ⟨id, after, ?_, first, later, placed, wrote.whole rfl, ?_, ?_, used ▸ mapped⟩
    · simp only [reduceCtorEq, if_false]
      rw [bind_ok (load_page formed.current_positive formed.current_within),
        formed.blockId _ formed.current_positive formed.current_within, bind_ok (attempt_ok ran), RecordId.blockId, page]
      rfl
    · rw [info, moved.blockCount, extendWhenUsed_batch ready.serves extended]
    · have old := readyMid.formed.current_eq
      have new := formed.current_eq
      have step := moved.current
      rw [info]
      omega

/-- The content of one row was replaced; the records of other rows are kept. -/
structure Modified (before after : DataFile) (id : RecordId) (content : List UInt8)
    (path path' : List RecordId) : Prop where
  ready : after.Ready
  initOk : after.initOk = before.initOk
  size : before.size ≤ after.size
  kept : before.toFile.KeepsBut after.toFile path
  holds : after.toFile.Holds id content path'
  path : ∀ place ∈ path', place ∈ path ∨ ¬ before.Has place

theorem modify_inPlace (ready : file.Ready) (chain : file.toFile.Chain id content [id])
    (live : rowDeleted (file.record id).flags ≠ 1) (settled : rowMigrated (file.record id).flags ≠ 1)
    (whole : rowChained (file.record id).flags ≠ 1) (row : Buf) (shorter : row.len ≤ content.length) :
    ∃ mid after, copyInto (.page id.page) (file.record id).offset (fun _ => 0) (file.record id).len file =
        (.ok (), mid) ∧
      copyInto (.page id.page) (file.record id).offset row.byte row.len mid = (.ok (), after) ∧
      Modified file after id (row.toList ++ List.replicate (content.length - row.len) 0) [id] [id] ∧
      after.info = file.info ∧ after.record id = file.record id := by
  obtain ⟨fits, _⟩ := chain.single
  have length := chain.length
  obtain ⟨mid, cleared, edited, record, data⟩ := copyInto_run ready chain.has (fun _ => 0) fits
  have room : mid.room id = file.room id := by simp only [File.room, edited.ceiling, record]
  obtain ⟨after, copied, edited', record', data'⟩ := copyInto_run edited.ready edited.has row.byte
    (show row.len ≤ mid.room id by omega)
  have both := edited.trans edited'
  have same : after.record id = file.record id := record'.trans record
  have total : (row.toList ++ List.replicate (content.length - row.len) 0).length = content.length := by
    simp only [List.length_append, Buf.toList_length, List.length_replicate]
    omega
  rw [length]
  refine ⟨mid, after, cleared, by rw [← record]; exact copied, ⟨both.ready, both.initOk,
    Nat.le_of_eq both.size.symm, both.kept, ?_, fun place member => .inl member⟩, both.info, same⟩
  refine .whole (by rw [same]; exact live) (by rw [same]; exact settled) (by rw [same]; exact whole) ?_
  refine .last both.has (by rw [same, length, total]) ?_ ?_
  · have room' : after.room id = file.room id := by
      simp only [File.room, both.ceiling, same]
    rw [total, room']
    exact fits
  · have split : content.length = row.len + (content.length - row.len) := by omega
    rw [total, File.bytes, same, data', record]
    conv_lhs => rw [split, Mem.slice_append]
    rw [Mem.slice_copy, data]
    have clear : Mem.Agree
        (((file.block id.page).data.copy (file.record id).offset.toNat (fun _ => 0) content.length).copy
          (file.record id).offset.toNat row.byte row.len)
        ((file.block id.page).data.copy (file.record id).offset.toNat (fun _ => 0) content.length)
        ((file.record id).offset.toNat + row.len) (content.length - row.len) := Mem.agree_copy (by omega)
    rw [clear.slice_eq, Mem.slice_copy_inside _ _ _ (by omega), Mem.slice_const, Buf.toList]

/-- A row is replaced once its record is marked as migrated and linked to where the new row was written. -/
theorem Wrote.migrated {marked mid tail : DataFile} {next : RecordId} {block : BlockPtr} {fre : Int}
    (live : rowDeleted (file.record id).flags ≠ 1) (edited : Edited file marked id)
    (record : marked.record id = { file.record id with flags := rowSetMigrated (file.record id).flags })
    (found : Found marked mid block fre) (wrote : Wrote mid tail next content path) (edited' : Edited tail after id)
    (record' : after.record id = { tail.record id with nextBlockId := next.blockId, nextRowIdx := next.rowIdx }) :
    Modified file after id content [id] (id :: path) := by
  have hasMid := found.opens.kept_but.has edited.has
  have keptTail := found.opens.kept_but.trans wrote.kept
  have outside : id ∉ path := fun member => wrote.fresh id member hasMid
  have flags : (after.record id).flags = rowSetMigrated (file.record id).flags := by
    rw [record', (keptTail.keeps edited.has).record, record]
  refine ⟨edited'.ready, ?_, ?_, ?_, ?_, ?_⟩
  · exact edited'.initOk.trans (wrote.initOk.trans (found.initOk.trans edited.initOk))
  · rw [← edited.size, edited'.size]
    exact Nat.le_trans found.opens.size wrote.size
  · exact edited.kept.trans ((keptTail.mono (by simp)).trans edited'.kept)
  · refine .moved edited'.has ?_ ?_ (by rw [record']) (by rw [record']) (wrote.later found.ready hasMid) outside ?_
    · rw [flags, rowDeleted_setMigrated]
      exact live
    · rw [flags, rowMigrated_setMigrated]
    · refine wrote.holds.transfer fun place member => edited'.kept place (wrote.chain.has_all place member) ?_
      intro same
      rw [List.mem_singleton.mp same] at member
      exact outside member
  · intro place member
    rcases List.mem_cons.mp member with same | tail
    · exact .inl (List.mem_singleton.mpr same)
    · refine .inr fun has => wrote.fresh place tail (found.opens.kept_but.has ?_)
      by_cases same : place = id
      · rw [same]
        exact edited.has
      · exact (edited.kept place has (by simpa using same)).has

/-- A row written anew, with its record linked to it, or the file has outgrown its bound. -/
theorem migrateRow_ready (ready : file.Ready) (has : file.Has id)
    (live : rowDeleted (file.record id).flags ≠ 1) (row : Buf) (small : row.len < 2 ^ 31) :
    wp (Inner.migrateRow (.page id.page) id.rowIdx row)
      (fun _ after => ∃ path', Modified file after id row.toList [id] path') Overflowed file := by
  obtain ⟨marked, mark, edited, record, _⟩ := setRecord_run ready has
    (fun record => { record with flags := rowSetMigrated record.flags })
    ⟨(record_fits file.toFile id).offset, (record_fits file.toFile id).len,
      (record_fits file.toFile id).nextBlockId, (record_fits file.toFile id).nextRowIdx⟩ rfl
  obtain ⟨block, fre, mid, find, outcome⟩ := findBlockCanWrite_run edited.ready
  unfold Inner.migrateRow
  refine wp_bind_ok mark (wp_bind_ok find ?_)
  rcases outcome with ⟨⟨rfl, outgrown⟩, _⟩ | found
  · exact wp_of_error (bind_error (failed_run mid)) ⟨rfl, outgrown⟩
  · have free := found.free
    have some := found.positive
    have full := found.place
    subst full
    simp only [show fre ≠ -1 by omega, if_false]
    refine wp_bind (writeRow_inner stepBound row found.ready (by omega) small (small_lt_stepBound small)) ?_
    rintro _ after ⟨next, path, rfl, wrote, _⟩
    have hasNext := wrote.chain.has
    have loadedNext := load_page hasNext.positive hasNext.within
    have number := wrote.ready.formed.blockId next.page hasNext.positive hasNext.within
    have kept := (found.opens.kept_but.trans wrote.kept).keeps edited.has
    obtain ⟨last, linked, edited', record', _⟩ := setRecord_run wrote.ready kept.has
      (fun record => { record with nextBlockId := next.blockId, nextRowIdx := next.rowIdx })
      (linkFits (record_fits after.toFile id) wrote.ready hasNext) rfl
    rw [wrote.page] at loadedNext number
    refine wp_bind_ok loadedNext ?_
    rw [number, ← wrote.page]
    exact wp_of_ok linked ⟨id :: path, wrote.migrated live edited record found edited' record'⟩

theorem Modified.widen {more path' : List RecordId} (modified : Modified file after id content path path')
    (included : path ⊆ more) : Modified file after id content more path' :=
  ⟨modified.ready, modified.initOk, modified.size, modified.kept.mono included, modified.holds,
    fun place member => (modified.path place member).imp_left fun old => included old⟩

theorem Quiet.modified {mid : DataFile} {path' : List RecordId} (quiet : Quiet file mid)
    (modified : Modified mid after id content path path') : Modified file after id content path path' := by
  obtain ⟨ready, initOk, size, kept, holds, fresh⟩ := modified
  rw [quiet.file] at kept
  have sameSize : mid.size = file.size := congrArg File.size quiet.file
  exact ⟨ready, initOk.trans quiet.initOk, by omega, kept, holds, fun place member =>
    (fresh place member).imp_right fun new has => new (by rw [quiet.file]; exact has)⟩

/-- The row behind the link of a migrated row was replaced. -/
theorem Modified.behind {next : RecordId} {path' : List RecordId} (modified : Modified file after next content path path')
    (has : file.Has id) (live : rowDeleted (file.record id).flags ≠ 1) (migrated : rowMigrated (file.record id).flags = 1)
    (nextBlock : (file.record id).nextBlockId = next.blockId) (nextRow : (file.record id).nextRowIdx = next.rowIdx)
    (later : id.rank < next.rank) (outside : id ∉ path) : Modified file after id content (id :: path) (id :: path') := by
  have kept := modified.kept id has outside
  refine ⟨modified.ready, modified.initOk, modified.size, modified.kept.mono (List.subset_cons_self _ _), ?_, ?_⟩
  · refine .moved kept.has (by rw [kept.record]; exact live) (by rw [kept.record]; exact migrated)
      (by rw [kept.record, nextBlock]) (by rw [kept.record, nextRow]) later ?_ modified.holds
    intro member
    exact (modified.path id member).elim outside fun new => new has
  · intro place member
    rcases List.mem_cons.mp member with same | tail
    · exact .inl (by rw [same]; exact List.mem_cons_self)
    · exact (modified.path place tail).imp_left (List.mem_cons_of_mem _)

/-- `_modify_row` along the links of a migrated row. -/
theorem modifyRow_inner {disk : File} (holds : disk.Holds id content path) :
    ∀ {file : DataFile} (steps : Nat) (row : Buf), file.toFile = disk → file.Ready → row.len < 2 ^ 31 →
      2 ^ 28 - id.rank ≤ steps →
      wp (Inner.modifyRow steps id.blockId id.rowIdx row) (fun _ after => ∃ path', Modified file after id
        (row.toList ++ List.replicate (disk.leftover steps id row.len) 0) path path') Overflowed file := by
  induction holds with
  | @moved id next content path has live migrated nextBlock nextRow later outside rest ih =>
    rintro file (_ | steps) row rfl ready small enough
    · have bound := has.rank_lt ready.formed
      omega
    · obtain ⟨mapped, quiet, opened⟩ := openRecord_run ready has
      rw [Inner.modifyRow]
      apply wp.congr _ (opened _)
      rw [if_neg live, if_pos migrated, nextBlock, nextRow, File.leftover_link next migrated nextBlock nextRow]
      refine (ih steps row quiet.file (quiet.ready ready) small (by omega)).mono ?_ fun _ _ halt => halt
      rintro _ after ⟨path', modified⟩
      exact ⟨id :: path', (quiet.modified modified).behind has live migrated nextBlock nextRow later outside⟩
  | @chained id content path live settled chained chain =>
    rintro file (_ | steps) row rfl ready small enough
    · have bound := chain.has.rank_lt ready.formed
      omega
    · obtain ⟨mapped, quiet, opened⟩ := openRecord_run ready chain.has
      rw [Inner.modifyRow]
      apply wp.congr _ (opened _)
      rw [if_neg live, if_neg settled, if_pos (.inl chained)]
      have none : file.leftover (steps + 1) id row.len = 0 := by
        simp [File.leftover, File.settled_here settled, chained]
      have sameLive : rowDeleted (mapped.record id).flags ≠ 1 := by rw [quiet.file]; exact live
      refine (migrateRow_ready (quiet.ready ready) (by rw [quiet.file]; exact chain.has) sameLive row
        small).mono ?_ fun _ _ halt => halt
      rintro _ after ⟨path', modified⟩
      rw [none, List.replicate_zero, List.append_nil]
      exact ⟨path', (quiet.modified modified).widen (by simpa using chain.head_mem)⟩
  | @whole id content live settled whole chain =>
    rintro file (_ | steps) row rfl ready small enough
    · have bound := chain.has.rank_lt ready.formed
      omega
    · obtain ⟨mapped, quiet, opened⟩ := openRecord_run ready chain.has
      have length := chain.length
      have left : file.leftover (steps + 1) id row.len = content.length - row.len := by
        simp [File.leftover, File.settled_here settled, whole, length]
      rw [Inner.modifyRow]
      apply wp.congr _ (opened _)
      rw [if_neg live, if_neg settled, left]
      by_cases longer : (row.len : Int) > (file.record id).len
      · have sameLive : rowDeleted (mapped.record id).flags ≠ 1 := by rw [quiet.file]; exact live
        rw [if_pos (.inr longer), show content.length - row.len = 0 by omega, List.replicate_zero,
          List.append_nil]
        refine (migrateRow_ready (quiet.ready ready) (by rw [quiet.file]; exact chain.has) sameLive row
          small).mono ?_ fun _ _ halt => halt
        rintro _ after ⟨path', modified⟩
        exact ⟨path', quiet.modified modified⟩
      · rw [if_neg (not_or.mpr ⟨whole, longer⟩)]
        rw [← quiet.file] at chain live settled whole
        obtain ⟨mid, after, cleared, copied, modified, _⟩ :=
          modify_inPlace (quiet.ready ready) chain live settled whole row (by omega)
        rw [quiet.file] at cleared copied
        exact wp_bind_ok cleared (wp_of_ok copied ⟨[id], quiet.modified modified⟩)

/-- `modify_row` on a row that is held. -/
theorem modifyRow_ready (ready : file.Ready) (holds : file.toFile.Holds id content path) (row : Buf)
    (small : row.len < 2 ^ 31) :
    wp (modifyRow id.blockId id.rowIdx row) (fun _ after => ∃ path', Modified file after id
      (row.toList ++ List.replicate (file.leftover stepBound id row.len) 0) path path') Overflowed file :=
  modifyRow_inner holds stepBound row rfl ready small
    (Nat.le_trans (Nat.sub_le _ _) (by decide : 2 ^ 28 ≤ stepBound))

/-- `modify_row` on a row that lies in one record, with no more bytes than that has. -/
theorem modifyRow_whole (ready : file.Ready) (holds : file.toFile.Holds id content path) (whole : file.Whole id)
    (row : Buf) (shorter : row.len ≤ content.length) : ∃ after,
    modifyRow id.blockId id.rowIdx row file = (.ok (), after) ∧ after.info = file.info ∧
      after.record id = file.record id := by
  cases holds with
  | moved _ _ migrated => exact absurd migrated whole.1
  | chained _ _ chained => exact absurd chained whole.2
  | whole live settled unchained chain =>
    obtain ⟨mapped, quiet, opened⟩ := openRecord_run ready chain.has
    have length := chain.length
    have bound : stepBound = (stepBound - 1) + 1 := by decide
    have sameRecord : mapped.record id = file.record id := by rw [quiet.file]
    rw [modifyRow, bound, Inner.modifyRow, opened, if_neg live, if_neg settled,
      if_neg (not_or.mpr ⟨unchained, by omega⟩)]
    rw [← sameRecord] at live settled unchained ⊢
    rw [← quiet.file] at chain
    obtain ⟨mid, after, cleared, copied, _, info, same⟩ :=
      modify_inPlace (quiet.ready ready) chain live settled unchained row shorter
    rw [bind_ok cleared]
    exact ⟨after, copied, by rw [info, quiet.file], same⟩

/-- `modify_row` refuses a deleted row. -/
theorem modifyRow_deleted (ready : file.Ready) (has : file.Has id)
    (deleted : rowDeleted (file.record id).flags = 1) (row : Buf) :
    ∃ after, modifyRow id.blockId id.rowIdx row file = (.error .failed, after) ∧ Quiet file after := by
  obtain ⟨mapped, quiet, opened⟩ := openRecord_run ready has
  refine ⟨mapped, ?_, quiet⟩
  have bound : stepBound = (stepBound - 1) + 1 := by decide
  rw [modifyRow, bound, Inner.modifyRow, opened, if_pos deleted]
  rfl

/-- `delete_row` marks the record of a row and leaves every other record alone. -/
theorem deleteRow_ready (ready : file.Ready) (has : file.Has id) : ∃ after,
    deleteRow id.blockId id.rowIdx file = (.ok (), after) ∧ Edited file after id ∧
      rowDeleted (after.record id).flags = 1 := by
  obtain ⟨mapped, quiet, opened⟩ := openRecord_run ready has
  have hasMapped : mapped.Has id := by rw [quiet.file]; exact has
  obtain ⟨after, marked, edited, record, _⟩ := setRecord_run (quiet.ready ready) hasMapped
    (fun record => { record with flags := rowSetDeleted record.flags })
    ⟨(record_fits mapped.toFile id).offset, (record_fits mapped.toFile id).len,
      (record_fits mapped.toFile id).nextBlockId, (record_fits mapped.toFile id).nextRowIdx⟩ rfl
  refine ⟨after, ?_, ?_, by rw [record, rowDeleted_setDeleted]⟩
  · rw [deleteRow, opened]
    exact marked
  · obtain ⟨ready, initOk, info, size, has, ceiling, kept⟩ := edited
    rw [quiet.file] at info size ceiling kept
    exact ⟨ready, initOk.trans quiet.initOk, info, size, has, ceiling, kept⟩

end DataFile

end Pingkv
