import Pingkv.DataFile.Edit

/-! `_write_row` puts a row into new records: whole, or as a chain of pieces
that fill block after block. -/

namespace Pingkv

namespace File

variable {file before after : File} {id : RecordId} {page : Nat}

theorem Opens.kept_but (opens : before.Opens after) : before.KeepsBut after [] := by
  intro id has _
  have same := opens.kept id.page has.within
  refine ⟨⟨has.positive, Nat.lt_of_lt_of_le has.within opens.size, ?_⟩, ?_, ?_, ?_⟩
  · rw [same]
    exact has.placed
  · simp only [record, same]
  · simp only [ceiling, same]
  · rw [same]
    exact Mem.Agree.refl

/-- Blocks were only added after those there were. -/
theorem KeepsBut.keeps (kept : before.KeepsBut after []) (has : before.Has id) : before.Keeps after id :=
  kept id has (by simp)

theorem KeepsBut.has (kept : before.KeepsBut after []) (has : before.Has id) : after.Has id :=
  (kept.keeps has).has

/-- Changes of one record that was not there before touch none of the old ones. -/
theorem KeepsBut.absorb {mid : File} (kept : before.KeepsBut mid []) (changed : mid.KeepsBut after [id])
    (fresh : ¬ before.Has id) : before.KeepsBut after [] := by
  intro other has _
  have first := kept.keeps has
  refine first.trans (changed other first.has ?_)
  intro member
  rw [List.mem_singleton.mp member] at has
  exact fresh has

end File

namespace DataFile

open Exec

variable {file after : DataFile} {id : RecordId} {content : List UInt8} {path : List RecordId}

/-- A call failed because the file has outgrown what can be mapped. -/
def Overflowed (reason : Stop) (after : DataFile) : Prop := reason = .failed ∧ after.toFile.Outgrown

theorem findBlockCanWrite_run (ready : file.Ready) : ∃ block fre after,
    findBlockCanWrite file = (.ok (block, fre), after) ∧
      ((fre = -1 ∧ after.toFile.Outgrown) ∧ ¬ file.HasRoom ∨ Found file after block fre) := by
  obtain ⟨block, fre, after, ran, outcome⟩ := findBlockWithin_ready ready
  exact ⟨block, fre, after, ran (stepBound - 1), outcome⟩

/-- A row was put into records that were not there before, the first one in the used block. -/
structure Wrote (before after : DataFile) (id : RecordId) (content : List UInt8) (path : List RecordId) :
    Prop where
  place : id = ⟨before.current, (before.block before.current).count⟩
  ready : after.Ready
  initOk : after.initOk = before.initOk
  size : before.size ≤ after.size
  used : before.info.usedBlockCount ≤ after.info.usedBlockCount
  kept : before.toFile.KeepsBut after.toFile []
  chain : after.toFile.Chain id content path
  fresh : ∀ place ∈ path, ¬ before.Has place
  flags : (after.record id).flags = if path = [id] then 0 else rowSetChained 0

theorem Wrote.page (wrote : Wrote file after id content path) : id.page = file.current := by
  rw [wrote.place]

theorem Added.fresh {len : Nat} (added : Added file after id len) : ¬ file.Has id := by
  intro has
  have placed := has.placed
  rw [added.place] at placed
  exact Nat.lt_irrefl _ placed

private theorem flags_zero : rowDeleted 0 ≠ 1 ∧ rowMigrated 0 ≠ 1 ∧ rowChained 0 ≠ 1 := by decide

private theorem flags_chained : rowDeleted (rowSetChained 0) ≠ 1 ∧ rowMigrated (rowSetChained 0) ≠ 1 ∧
    rowChained (rowSetChained 0) = 1 := by decide

theorem Wrote.holds (wrote : Wrote file after id content path) : after.toFile.Holds id content path := by
  have flags := wrote.flags
  have chain := wrote.chain
  by_cases single : path = [id]
  · subst single
    rw [if_pos rfl] at flags
    exact .whole (flags ▸ flags_zero.1) (flags ▸ flags_zero.2.1) (flags ▸ flags_zero.2.2) chain
  · rw [if_neg single] at flags
    exact .chained (flags ▸ flags_chained.1) (flags ▸ flags_chained.2.1) (flags ▸ flags_chained.2.2) chain

/-- The number of a later record, as a record index stores it. -/
theorem linkFits {record : RecordIndex} (fits : record.Fits) (ready : file.Ready) (has : file.Has id) :
    ({ record with nextBlockId := id.blockId, nextRowIdx := id.rowIdx } : RecordIndex).Fits := by
  have mapped := has.mapped ready.formed
  have place := has.place_lt ready.formed
  refine ⟨fits.offset, fits.len, ?_, ?_⟩
  · simp only [RecordId.blockId]
    omega
  · simp only [RecordId.rowIdx]
    omega

theorem record_fits (file : File) (id : RecordId) : (file.record id).Fits := recordAt_fits _ _

/-- Copying the whole row into a record with room for it. -/
theorem whole_run (ready : file.Ready) (has : file.Has id) (row : Buf)
    (length : (file.record id).len = row.len) (fits : row.len ≤ file.room id) :
    ∃ after, copyInto (.page id.page) (file.record id).offset row.byte row.len file = (.ok (), after) ∧
      Edited file after id ∧ after.record id = file.record id ∧ after.toFile.Chain id row.toList [id] := by
  obtain ⟨after, copied, edited, record, data⟩ := copyInto_run ready has row.byte fits
  have room : after.room id = file.room id := by simp only [File.room, edited.ceiling, record]
  refine ⟨after, copied, edited, record, .last edited.has ?_ ?_ ?_⟩
  · rw [record, length, Buf.toList_length]
  · rw [room, Buf.toList_length]
    exact fits
  · simp only [File.bytes, record, data, Buf.toList_length]
    exact Mem.slice_copy _ _ _ _

/-- Linking a record to the rest of the row and filling it with the first piece. -/
theorem link_run {next : RecordId} (ready : file.Ready) (has : file.Has id) (row : Buf)
    (length : (file.record id).len = row.len) (positive : 0 < file.room id)
    (split : file.room id < row.len) (tail : file.toFile.Chain next (row.drop (file.room id)).toList path)
    (outside : id ∉ path) : ∃ mid after,
      setRecord (.page id.page) id.rowIdx (fun record =>
        { record with nextBlockId := next.blockId, nextRowIdx := next.rowIdx }) file = (.ok (), mid) ∧
      copyInto (.page id.page) (file.record id).offset row.byte (file.room id) mid = (.ok (), after) ∧
      Edited file after id ∧
      after.record id = { file.record id with nextBlockId := next.blockId, nextRowIdx := next.rowIdx } ∧
      after.toFile.Chain id row.toList (id :: path) := by
  obtain ⟨mid, linked, edited, record, _⟩ := setRecord_run ready has
    (fun record => { record with nextBlockId := next.blockId, nextRowIdx := next.rowIdx })
    (linkFits (record_fits file.toFile id) ready tail.has) rfl
  have room : mid.room id = file.room id := by simp only [File.room, edited.ceiling, record]
  have offset : (mid.record id).offset = (file.record id).offset := by rw [record]
  obtain ⟨after, copied, edited', record', data⟩ :=
    copyInto_run edited.ready edited.has row.byte (Nat.le_of_eq room.symm)
  have room' : after.room id = file.room id := by
    simp only [File.room, edited'.ceiling, edited.ceiling, record', record]
  have both := edited.trans edited'
  rw [offset] at copied
  have taken : row.toList.take (file.room id) = row.byte.slice 0 (file.room id) := by
    rw [← Buf.slice_append_drop row (Nat.le_of_lt split)]
    exact List.take_left' (Mem.slice_length _ _ _)
  have dropped : row.toList.drop (file.room id) = (row.drop (file.room id)).toList := by
    rw [← Buf.slice_append_drop row (Nat.le_of_lt split)]
    exact List.drop_left' (Mem.slice_length _ _ _)
  refine ⟨mid, after, linked, copied, both, record'.trans record, ?_⟩
  refine .more both.has ?_ ?_ ?_ ?_ (by rw [record', record]) (by rw [record', record]) ?_
  · rw [record', record, Buf.toList_length]
    exact length
  · rwa [room']
  · rwa [room', Buf.toList_length]
  · rw [room', taken]
    simp only [File.bytes, record', offset, data]
    exact Mem.slice_copy _ _ _ _
  · rw [room', dropped]
    refine tail.transfer fun place member => both.kept place (tail.has_all place member) ?_
    intro same
    rw [List.mem_singleton.mp same] at member
    exact outside member

/-- A row that fits into its new record is written whole. -/
theorem Added.whole {added : DataFile} {row : Buf} (put : Added file added id row.len)
    (room : ¬ (file.block file.current).free < row.len) (edited : Edited added after id)
    (same : after.record id = added.record id) (chain : after.toFile.Chain id row.toList [id]) :
    Wrote file after id row.toList [id] := by
  refine ⟨put.place, edited.ready, edited.initOk.trans put.initOk, ?_, ?_, put.kept.absorb edited.kept put.fresh, chain,
    List.forall_mem_singleton.mpr put.fresh, ?_⟩
  · rw [edited.size, put.size]
  · rw [edited.info, put.info]
  · rw [same, put.record, if_pos rfl]
    exact if_neg room

/-- A row is written once its first record is linked to where the rest was written. -/
theorem Added.linked {added mid tail : DataFile} {row : Buf} {rest : List UInt8} {next : RecordId} {block : BlockPtr}
    {fre : Int} (put : Added file added id row.len) (short : (file.block file.current).free < row.len)
    (found : Found added mid block fre) (wrote : Wrote mid tail next rest path) (edited : Edited tail after id)
    (flags : (after.record id).flags = (tail.record id).flags)
    (chain : after.toFile.Chain id row.toList (id :: path)) : Wrote file after id row.toList (id :: path) := by
  have keptMid := put.kept.trans found.opens.kept_but
  have keptTail := found.opens.kept_but.trans wrote.kept
  refine ⟨put.place, edited.ready, ?_, ?_, ?_, (put.kept.trans keptTail).absorb edited.kept put.fresh, chain, ?_, ?_⟩
  · exact edited.initOk.trans (wrote.initOk.trans (found.initOk.trans put.initOk))
  · rw [edited.size, ← put.size]
    exact Nat.le_trans found.opens.size wrote.size
  · rw [edited.info, ← put.info]
    exact Int.le_trans found.opens.used wrote.used
  · refine List.forall_mem_cons.mpr ⟨put.fresh, fun place member has => ?_⟩
    exact wrote.fresh place member (keptMid.has has)
  · have long : id :: path ≠ [id] := by
      intro same
      have empty : path = [] := by simpa using same
      have member := wrote.chain.head_mem
      rw [empty] at member
      cases member
    rw [flags, (keptTail.keeps put.has).record, put.record, if_neg long]
    exact if_pos short

/-- `_write_row` puts a row into the block where its bytes are free, and takes no other block. -/
theorem writeRow_short (ready : file.Ready) (room : (file.block file.current).free ≠ 0) (row : Buf)
    (small : row.len < 2 ^ 31) (fits : row.len ≤ (file.block file.current).free) (steps : Nat) : ∃ id after,
    Inner.writeRow (steps + 1) (.page file.current) row file = (.ok id.rowIdx, after) ∧
      Wrote file after id row.toList [id] ∧ after.info = file.info := by
  have formed := ready.formed
  have freeRun := blockFreeBytes_page formed.current_positive formed.current_within formed.current_block
  obtain ⟨id, added, ran, put⟩ := rowAddRecord_run ready room small
  have page : id.page = file.current := by rw [put.place]
  have record := rowGetRecord_record added put.ready put.has
  have roomEq := put.room
  have length : (added.record id).len = row.len := by rw [put.record]; rfl
  obtain ⟨after, copied, edited, same, chain⟩ := whole_run put.ready put.has row length (by omega)
  refine ⟨id, after, ?_, put.whole (by omega) edited same chain, edited.info.trans put.info⟩
  rw [← page] at ran freeRun ⊢
  rw [page] at ran freeRun
  rw [Inner.writeRow, page, bind_ok freeRun]
  simp only [ge_iff_le, fits, if_true]
  rw [bind_ok ran, ← page, bind_ok (load_page put.has.positive put.has.within), bind_ok record]
  simp only [gt_iff_lt, lt_irrefl, if_false]
  exact bind_ok copied

/-- `_write_row` into a block with free bytes. The bytes left to write shrink
with every piece. -/
theorem writeRow_inner (steps : Nat) : ∀ {file : DataFile} (row : Buf), file.Ready →
    (file.block file.current).free ≠ 0 → row.len < 2 ^ 31 → row.len < steps →
    wp (Inner.writeRow steps (.page file.current) row)
      (fun idx after => ∃ id path, idx = id.rowIdx ∧ Wrote file after id row.toList path ∧
        (row.len ≤ (file.block file.current).free → path = [id])) Overflowed file := by
  induction steps with
  | zero => intro _ _ _ _ _ enough; omega
  | succ steps ih =>
    intro file row ready room small enough
    by_cases chained : (file.block file.current).free < row.len
    · have formed := ready.formed
      have nonneg := (file.block file.current).free_nonneg
      have freeRun := blockFreeBytes_page formed.current_positive formed.current_within formed.current_block
      obtain ⟨id, added, ran, put⟩ := rowAddRecord_run ready room small
      have page : id.page = file.current := by rw [put.place]
      have loaded := load_page put.has.positive put.has.within
      have record := rowGetRecord_record added put.ready put.has
      have roomEq := put.room
      have length : (added.record id).len = row.len := by rw [put.record]; rfl
      rw [← page] at ran freeRun ⊢
      rw [Inner.writeRow]
      refine wp_bind_ok freeRun (wp_bind_ok (by rw [page] at ran ⊢; exact ran) (wp_bind_ok loaded (wp_bind_ok record ?_)))
      simp only [ge_iff_le]
      have short : ¬ (row.len : Int) ≤ (file.block id.page).free := by rw [page]; omega
      have more : (row.len : Int) - (file.block id.page).free > 0 := by omega
      have roomNat : (file.block id.page).free = (added.room id : Int) := by rw [page]; omega
      simp only [short, if_false]
      rw [if_pos more]
      obtain ⟨block, fre, mid, find, outcome⟩ := findBlockCanWrite_run put.ready
      refine wp_bind_ok find ?_
      rcases outcome with ⟨⟨rfl, outgrown⟩, _⟩ | found
      · exact wp_of_error (bind_error (failed_run mid)) ⟨rfl, outgrown⟩
      · have free := found.free
        have some := found.positive
        have full := found.place
        subst full
        simp only [show fre ≠ -1 by omega, if_false]
        rw [roomNat, Int.toNat_natCast]
        refine wp_bind (ih (row.drop (added.room id)) found.ready (by omega) (by simp only [Buf.drop_len]; omega)
          (by simp only [Buf.drop_len]; omega)) ?_
        rintro _ after ⟨next, tail, rfl, wrote, _⟩
        have hasNext := wrote.chain.has
        have loadedNext := load_page hasNext.positive hasNext.within
        have number := wrote.ready.formed.blockId next.page hasNext.positive hasNext.within
        have kept := (found.opens.kept_but.trans wrote.kept).keeps put.has
        have outside : id ∉ tail := fun member => wrote.fresh id member (found.opens.kept_but.has put.has)
        obtain ⟨linked, last, set, copied, edited, record', chain⟩ := link_run wrote.ready kept.has row
          (by rw [kept.record, length]) (by rw [kept.room]; omega) (by rw [kept.room]; omega)
          (by rw [kept.room]; exact wrote.chain) outside
        rw [kept.record, kept.room] at copied
        rw [← wrote.page]
        refine wp_bind_ok loadedNext ?_
        rw [number]
        exact wp_bind_ok set (wp_bind_ok copied (wp_pure
          ⟨id, id :: tail, rfl, put.linked chained found wrote edited (by rw [record']) chain, False.elim⟩))
    · obtain ⟨id, after, ran, wrote, _⟩ := writeRow_short ready room row small (by omega) steps
      exact wp_of_ok ran ⟨id, [id], rfl, wrote, fun _ => rfl⟩

end DataFile

end Pingkv
