import Pingkv.DataFile.Fit
import Pingkv.DataFile.Links

/-! `_write_row` over an operating system that may refuse calls: the blocks it
takes for a row, and how it ends where it does not get one of them. -/

namespace Pingkv

namespace DataFile

open Exec

variable {file after : DataFile} {id : RecordId} {content : List UInt8} {path : List RecordId}

/-- The object after calls through pointers into its blocks. -/
def Through (before after : DataFile) : Prop := ∃ contents, after = blocks.put contents before

namespace Through

theorem smooth (through : Through file after) : Smooth file after 0 := by
  obtain ⟨contents, rfl⟩ := through
  exact ⟨id, fun n serves k below => serves k (by omega)⟩

theorem supply (through : Through file after) : after.supply = file.supply := by
  obtain ⟨contents, rfl⟩ := through
  rfl

theorem used (through : Through file after) : after.info.usedBlockCount = file.info.usedBlockCount := by
  obtain ⟨contents, rfl⟩ := through
  rfl

theorem held {blockId : Int} (through : Through file after) : after.held blockId ↔ file.held blockId := by
  obtain ⟨contents, rfl⟩ := through
  rfl

theorem trans {last : DataFile} (first : Through file after) (second : Through after last) : Through file last := by
  obtain ⟨contents, rfl⟩ := first
  obtain ⟨contents', rfl⟩ := second
  exact ⟨contents', blocks.put_put _ _ _⟩

theorem fit (through : Through file after) (fit : file.Fit) (ready : after.mend.Ready) : after.Fit := by
  obtain ⟨contents, rfl⟩ := through
  exact fit.put contents ready

end Through

/-- A call through pointers may be judged by what it does to the mended object. -/
theorem run_mend {α : Type} {call : Exec DataFile α} {outcome : Except Stop α} (confined : blocks.Confines call)
    (ran : call file.mend = (outcome, after)) : ∃ left, call file = (outcome, left) ∧ Through file left ∧ left.mend = after := by
  obtain ⟨left, contents, ran, same, mended⟩ := confined_mend confined ran
  exact ⟨left, ran, ⟨contents, same⟩, mended⟩

/-- The blocks a row takes behind the one it begins in, where that has so many bytes free. -/
def furtherBlocks (len free : Nat) : Nat := (len - free + 8151) / 8152

/-- A call made so many calls of `mmap` at most, none of them refused, and took so many more blocks. -/
structure Took (before after : DataFile) (calls blocks : Nat) : Prop where
  fit : after.Fit
  smooth : Smooth before after calls
  used : after.info.usedBlockCount = before.info.usedBlockCount + blocks
  forward : before.toFile.Forward → after.toFile.Forward

theorem Took.trans {last : DataFile} {calls blocks calls' blocks' : Nat} (first : Took file after calls blocks)
    (second : Took after last calls' blocks') : Took file last (calls + calls') (blocks + blocks') := by
  refine ⟨second.fit, first.smooth.trans second.smooth, ?_, fun forward => second.forward (first.forward forward)⟩
  rw [second.used, first.used]
  omega

/-- A call ended because so many more blocks cannot be mapped, or are not there. -/
def Stuck (file : DataFile) (blocks : Nat) (reason : Stop) : Prop :=
  reason = .failed ∧ ¬ (file.ServesMaps blocks ∧ file.info.usedBlockCount + blocks ≤ 262144) ∨
    reason = .fault ∧ ¬ file.supply.Grants blocks

theorem Through.stuck {blocks : Nat} {reason : Stop} (through : Through file after) (stuck : after.Stuck blocks reason) :
    file.Stuck blocks reason := by
  obtain ⟨contents, rfl⟩ := through
  exact stuck

theorem findBlockCanWrite_fit (fit : file.Fit) : wp findBlockCanWrite
    (fun found after => found.2 = -1 ∧ found.1 = .mapFailed ∧ ¬ file.FirstMaps ∨
      FoundFit file after found.1 found.2 ∧ file.FirstMaps)
    (fun reason _ => reason = .fault ∧ (file.block file.current).free = 0 ∧ ¬ 0 < file.supply.extend.spare) file :=
  findBlockWithin_fit fit (stepBound - 1)

/-- The next block of a full one that is mapped can be mapped. -/
theorem firstMaps_of_serves {blocks : Nat} (fit : file.Fit) (held : file.held file.info.usedBlockCount)
    (serves : file.ServesMaps (blocks + 1)) (low : file.info.usedBlockCount + (blocks + 1 : Nat) ≤ 262144) : file.FirstMaps := by
  have lower := fit.formed.used_lower
  refine ⟨.inl held, fun _ => .inr ⟨?_, ?_⟩⟩
  · rw [if_pos held]
    exact serves 0 (by omega)
  · rw [mapOffset_eq (by omega) (by omega)]
    omega

/-- What keeps the file from so many next blocks keeps it from one more. -/
theorem FoundFit.stuck {block : BlockPtr} {fre : Int} {blocks : Nat} {reason : Stop} (found : FoundFit file after block fre)
    (full : (file.block file.current).free = 0) (held : file.held file.info.usedBlockCount) (stuck : after.Stuck blocks reason) :
    file.Stuck (blocks + 1) reason := by
  refine stuck.imp ?_ ?_
  · rintro ⟨failed, short⟩
    refine ⟨failed, fun ⟨serves, low⟩ => short ⟨found.smooth.served blocks ?_, ?_⟩⟩
    · rwa [if_pos held, if_pos full, Nat.zero_add, Nat.add_comm]
    · rw [found.used, if_pos full]
      omega
  · rintro ⟨crashed, short⟩
    refine ⟨crashed, fun grants => short ?_⟩
    rw [found.supply, if_pos full]
    exact grants.2

/-- The next block is not there. -/
theorem stuck_of_none {blocks : Nat} (none : ¬ 0 < file.supply.extend.spare) : file.Stuck (blocks + 1) .fault :=
  .inr ⟨rfl, fun grants => none grants.1⟩

/-- The next block cannot be mapped. -/
theorem stuck_of_refused {blocks : Nat} (fit : file.Fit) (held : file.held file.info.usedBlockCount)
    (unmapped : ¬ file.FirstMaps) : file.Stuck (blocks + 1) .failed :=
  .inl ⟨rfl, fun ⟨serves, low⟩ => unmapped (firstMaps_of_serves fit held serves low)⟩

/-- A later record, by the order in which records come into a file. -/
theorem before_of_rank {next : RecordId} (formed : file.toFile.Formed) (has : file.Has id) (has' : file.Has next)
    (later : id.rank < next.rank) : id.Before next := by
  have low := has.place_lt formed
  have low' := has'.place_lt formed
  simp only [RecordId.rank, RecordId.Before] at later ⊢
  omega

/-- Linking the first record of a row to the rest of it. -/
theorem linked_forward {next : RecordId} {mid : DataFile} {record : RecordIndex} (edited : Edited file after id)
    (same : after.record id = { record with nextBlockId := next.blockId, nextRowIdx := next.rowIdx })
    (first : file.toFile.Counts mid.toFile) (second : mid.toFile.Counts after.toFile) (has : file.Has next)
    (later : id.rank < next.rank) (forward : file.toFile.Forward) : after.toFile.Forward := by
  have counts := first.trans second
  have hasNext := counts.has.mpr has
  refine edited.forward counts (fun _ => ⟨next, hasNext, before_of_rank edited.ready.formed edited.has hasNext later, ?_⟩) forward
  rw [same]
  exact ⟨rfl, rfl⟩

theorem rowAddRecord_fit (fit : file.Fit) (room : (file.block file.current).free ≠ 0) {len : Nat} (small : len < 2 ^ 31) :
    ∃ id after, rowAddRecord (.page file.current) len (decide ((file.block file.current).free < len)) file = (.ok id.rowIdx, after) ∧
      Through file after ∧ Added file.mend after.mend id len ∧ (file.toFile.Forward → after.toFile.Forward) := by
  obtain ⟨id, _, ran, put⟩ := rowAddRecord_run fit.mend_ready room small
  obtain ⟨after, ran', through, rfl⟩ := run_mend (confines_rowAddRecord _ _ _) ran
  exact ⟨id, after, ran', through, put, put.forward fit.formed ran⟩

/-- A row that fits into the block takes no other one. -/
private theorem innerWriteRow_whole (fit : file.Fit) (room : (file.block file.current).free ≠ 0) (row : Buf)
    (small : row.len < 2 ^ 31) (fits : row.len ≤ (file.block file.current).free) (steps : Nat) : ∃ id after,
    Inner.writeRow (steps + 1) (.page file.current) row file = (.ok id.rowIdx, after) ∧
      Wrote file.mend after.mend id row.toList [id] ∧ Took file after 0 0 := by
  have formed := fit.formed
  have freeRun := blockFreeBytes_page formed.current_positive formed.current_within formed.current_block
  obtain ⟨id, added, ran, through, put, forwardAdded⟩ := rowAddRecord_fit fit room small
  have page : id.page = file.current := by rw [put.place]; rfl
  have loaded : load (.page file.current) added = (.ok (added.block id.page), added) :=
    page ▸ load_page put.has.positive put.has.within
  have record := rowGetRecord_record added put.ready put.has
  rw [mend_toFile] at record
  have roomEq : (added.mend.room id : Int) = min (file.block file.current).free row.len := put.room
  have length : (added.mend.record id).len = row.len := by rw [put.record]; rfl
  obtain ⟨_, copied, edited, same, chain⟩ := whole_run put.ready put.has row length (by omega)
  have counts := (copyInto_counts _ _ _ _ _).ok copied
  obtain ⟨after, copied', through', rfl⟩ := run_mend (confines_copyInto _ _ _ _) copied
  have wrote : Wrote file.mend after.mend id row.toList [id] :=
    put.whole (show ¬ (file.block file.current).free < row.len by omega) edited same chain
  refine ⟨id, after, ?_, wrote, through'.fit (through.fit fit put.ready) edited.ready, through.smooth.trans through'.smooth,
    ?_, fun forward => edited.linked counts (by rw [same]) (by rw [same]) (forwardAdded forward)⟩
  · rw [Inner.writeRow, bind_ok freeRun]
    simp only [ge_iff_le, fits, if_true]
    rw [bind_ok ran, bind_ok loaded, bind_ok record]
    simp only [gt_iff_lt, lt_irrefl, if_false]
    rw [← page]
    exact bind_ok copied'
  · rw [through'.used, through.used]
    exact (Int.add_zero _).symm

/-- A record that the rest of its row was put behind is linked to it, and gets its own piece of the row. -/
private theorem innerWriteRow_linked {added mid tail : DataFile} {next : RecordId} {path : List RecordId} {block : BlockPtr}
    {blocks : Nat} (room : (file.block file.current).free ≠ 0) (row : Buf) (chained : (file.block file.current).free < row.len)
    (put : Added file.mend added.mend id row.len) (through : Through file added)
    (forwardAdded : file.toFile.Forward → added.toFile.Forward) (held : added.held added.info.usedBlockCount)
    (full : (added.block added.current).free = 0) (found : FoundFit added mid block 8152)
    (wrote : Wrote mid.mend tail.mend next (row.drop (added.room id)).toList path) (rest : Took mid tail blocks blocks) :
    ∃ linked last,
      setRecord (.page id.page) id.rowIdx (fun record => { record with nextBlockId := next.blockId, nextRowIdx := next.rowIdx })
        tail = (.ok (), linked) ∧
      copyInto (.page id.page) (added.record id).offset row.byte (added.room id) linked = (.ok (), last) ∧
      Wrote file.mend last.mend id row.toList (id :: path) ∧ Took file last (blocks + 1) (blocks + 1) := by
  have length : (added.record id).len = row.len := by
    rw [← mend_toFile added, put.record]
    rfl
  have nonneg := (file.block file.current).free_nonneg
  have roomEq : (added.room id : Int) = min (file.block file.current).free row.len := put.room
  have hasMid := found.found.opens.kept_but.has put.has
  have kept := (found.found.opens.kept_but.trans wrote.kept).keeps put.has
  have outside : id ∉ path := fun member => wrote.fresh id member hasMid
  obtain ⟨_, _, set, copied, edited, record', chain⟩ := link_run wrote.ready kept.has row
    (by rw [kept.record]; exact length) (by rw [kept.room, mend_toFile]; omega) (by rw [kept.room, mend_toFile]; omega)
    (by rw [kept.room]; exact wrote.chain) outside
  have forward : file.toFile.Forward → _ := fun forward => linked_forward edited record'
    ((setRecord_counts _ _ _ _).ok set) ((copyInto_counts _ _ _ _ _).ok copied) wrote.chain.has
    (wrote.later found.found.ready hasMid) (rest.forward ((forwardAdded forward).opens found.found.opens))
  rw [kept.record, kept.room] at copied
  obtain ⟨linked, set', through₁, rfl⟩ := run_mend (confines_setRecord _ _ _) set
  obtain ⟨last, copied', through₂, rfl⟩ := run_mend (confines_copyInto _ _ _ _) copied
  have throughTail := through₁.trans through₂
  have smooth := ((through.smooth.trans found.smooth).trans rest.smooth).trans throughTail.smooth
  rw [if_pos held, if_pos full] at smooth
  refine ⟨linked, last, set', copied', put.linked chained found.found wrote edited (by rw [record']) chain,
    throughTail.fit rest.fit edited.ready, smooth.mono (by omega), ?_, forward⟩
  rw [throughTail.used, rest.used, found.used, if_pos full, through.used]
  omega

/-- `_write_row` takes as many blocks as the row needs, or ends where it does not get one. -/
theorem innerWriteRow_fit (steps : Nat) : ∀ {file : DataFile} (row : Buf), file.Fit → (file.block file.current).free ≠ 0 →
    file.held file.info.usedBlockCount → row.len < 2 ^ 31 → row.len < steps →
    wp (Inner.writeRow steps (.page file.current) row) (fun idx after => ∃ id path, idx = id.rowIdx ∧
        Wrote file.mend after.mend id row.toList path ∧ Took file after
          (furtherBlocks row.len (file.block file.current).free.toNat)
          (furtherBlocks row.len (file.block file.current).free.toNat) ∧
        (row.len ≤ (file.block file.current).free → path = [id]))
      (fun reason _ => file.Stuck (furtherBlocks row.len (file.block file.current).free.toNat) reason) file := by
  induction steps with
  | zero => intro _ _ _ _ _ _ enough; omega
  | succ steps ih =>
    intro file row fit room held small enough
    have nonneg := (file.block file.current).free_nonneg
    by_cases chained : (file.block file.current).free < row.len
    · have formed := fit.formed
      have freeRun := blockFreeBytes_page formed.current_positive formed.current_within formed.current_block
      obtain ⟨id, added, ran, through, put, forwardAdded⟩ := rowAddRecord_fit fit room small
      have fitAdded := through.fit fit put.ready
      have page : id.page = file.current := by rw [put.place]; rfl
      have loaded : load (.page file.current) added = (.ok (added.block id.page), added) :=
        page ▸ load_page put.has.positive put.has.within
      have record := rowGetRecord_record added put.ready put.has
      rw [mend_toFile] at record
      have roomEq : (added.room id : Int) = min (file.block file.current).free row.len := put.room
      have roomNat : (file.block file.current).free = (added.room id : Int) := by omega
      have sameCurrent : added.current = file.current := by rw [File.current, through.used]; rfl
      have full : (added.block added.current).free = 0 := by
        rw [sameCurrent]
        exact put.full chained
      have heldAdded : added.held added.info.usedBlockCount := by
        rw [through.used]
        exact through.held.mpr held
      have count : furtherBlocks row.len (file.block file.current).free.toNat =
          furtherBlocks (row.drop (added.room id)).len 8152 + 1 := by
        simp only [furtherBlocks, Buf.drop_len, roomNat, Int.toNat_natCast]
        omega
      rw [count, Inner.writeRow]
      refine wp_bind_ok freeRun (wp_bind_ok ran (wp_bind_ok loaded (wp_bind_ok record ?_)))
      simp only [ge_iff_le]
      rw [if_neg (Int.not_le.mpr chained), if_neg (Int.not_le.mpr chained), if_pos (by omega), roomNat, Int.toNat_natCast]
      refine wp_bind ((findBlockCanWrite_fit fitAdded).mono (fun _ _ found => found) ?_) ?_
      · rintro reason _ ⟨rfl, _, none⟩
        exact through.stuck (stuck_of_none none)
      rintro ⟨block, fre⟩ mid (⟨refused, _, unmapped⟩ | ⟨found, _⟩)
      · obtain rfl : fre = -1 := refused
        exact wp_of_error (bind_error (failed_run mid)) (through.stuck (stuck_of_refused fitAdded heldAdded unmapped))
      · obtain rfl : fre = 8152 := found.fresh full
        obtain rfl : block = .page mid.current := found.found.place
        have free : (mid.block mid.current).free = (8152 : Nat) := found.found.free.symm
        have next := ih (row.drop (added.room id)) found.fit (by omega) found.held (by simp only [Buf.drop_len]; omega)
          (by simp only [Buf.drop_len]; omega)
        rw [free, Int.toNat_natCast] at next
        rw [if_neg (show (8152 : Int) ≠ -1 by decide)]
        refine wp_bind (next.mono (fun _ _ wrote => wrote) fun _ _ stuck =>
          through.stuck (found.stuck full heldAdded stuck)) ?_
        rintro _ tail ⟨next, path, rfl, wrote, rest, _⟩
        have hasNext := wrote.chain.has
        have loadedNext : load (.page next.page) tail = (.ok (tail.block next.page), tail) :=
          load_page hasNext.positive hasNext.within
        have number := rest.fit.formed.blockId next.page hasNext.positive hasNext.within
        obtain ⟨linked, last, set, copied, wroteFile, took⟩ := innerWriteRow_linked room row chained put through forwardAdded heldAdded
          full found wrote rest
        have here : next.page = mid.current := wrote.page
        dsimp only
        rw [← here, ← page]
        refine wp_bind_ok loadedNext ?_
        rw [number]
        refine wp_bind_ok set (wp_bind_ok copied (wp_pure ⟨id, id :: path, rfl, wroteFile, took, ?_⟩))
        intro short
        omega
    · have none : furtherBlocks row.len (file.block file.current).free.toNat = 0 := by
        simp only [furtherBlocks]
        omega
      obtain ⟨id, after, ran, wrote, took⟩ := innerWriteRow_whole fit room row small (by omega) steps
      rw [none]
      exact wp_of_ok ran ⟨id, [id], rfl, wrote, took, fun _ => rfl⟩

end DataFile

end Pingkv
