import Pingkv.DataFile.Rows

/-! `_read_row` returns the content of a row, whatever records it lies in. -/

namespace Pingkv

namespace DataFile

open Exec

variable {file : DataFile} {id : RecordId} {content : List UInt8} {path : List RecordId}

/-- Mapping the block of a record and reading through the pointer. -/
theorem readBlock_record (ready : file.Ready) (has : file.Has id) :
    ∃ after, readBlock id.blockId file = (.ok (.page id.page), after) ∧ Quiet file after ∧
      load (.page id.page) after = (.ok (file.block id.page), after) := by
  obtain ⟨after, mapped, quiet⟩ := readBlock_page ready.cached ready.serves has.positive has.within
    (has.mapped ready.formed)
  refine ⟨after, mapped, quiet, ?_⟩
  have size : after.size = file.size := congrArg File.size quiet.file
  have block : after.block = file.block := congrArg File.block quiet.file
  rw [← block]
  exact load_page has.positive (by rw [size]; exact has.within)

theorem rowGetRecord_record {σ : Type} (state : σ) (ready : file.Ready) (has : file.Has id) :
    rowGetRecord (file.block id.page) id.rowIdx state = (.ok (file.record id), state) := by
  have placed := has.placed
  have counted := (has.block ready.formed).count_eq
  rw [rowGetRecord_run state (has.block ready.formed) (by simp only [RecordId.rowIdx]; omega)
    (by simp only [RecordId.rowIdx]; omega), RecordId.rowIdx_toNat]
  rfl

/-- What `readRow`, `modifyRow` and `deleteRow` begin with. -/
theorem openRecord_run (ready : file.Ready) (has : file.Has id) : ∃ mapped, Quiet file mapped ∧
    ∀ {α : Type} (next : BlockPtr → Block → RecordIndex → Exec DataFile α), (do
      let block ← readBlock id.blockId
      if block = BlockPtr.mapFailed then failed
      let content ← load block
      let record ← rowGetRecord content id.rowIdx
      next block content record) file = next (.page id.page) (file.block id.page) (file.record id) mapped := by
  obtain ⟨mapped, opened, quiet, loaded⟩ := readBlock_record ready has
  refine ⟨mapped, quiet, fun next => ?_⟩
  rw [bind_ok opened]
  simp only [reduceCtorEq, if_false]
  rw [bind_ok loaded, bind_ok (rowGetRecord_record mapped ready has)]

theorem rowNextOffset_run {σ : Type} (state : σ) (ready : file.Ready) (has : file.Has id) :
    rowNextOffset (file.block id.page) id.rowIdx state = (.ok (file.ceiling id), state) := by
  obtain ⟨page, place⟩ := id
  unfold rowNextOffset
  cases place with
  | zero => rfl
  | succ place =>
    have earlier : file.Has ⟨page, place⟩ := ⟨has.positive, has.within, Nat.lt_of_succ_lt has.placed⟩
    have number : RecordId.rowIdx ⟨page, place + 1⟩ - 1 = RecordId.rowIdx ⟨page, place⟩ := by
      simp only [RecordId.rowIdx]
      omega
    rw [if_pos (by simp only [RecordId.rowIdx]; omega), number,
      bind_ok (rowGetRecord_record state ready earlier)]
    rfl

/-- `_row_get_len_in_block` is the length of the record, cut at its room. -/
theorem rowGetLenInBlock_run {σ : Type} (state : σ) (ready : file.Ready) (has : file.Has id) :
    rowGetLenInBlock (file.block id.page) id.rowIdx state =
      (.ok (min (file.record id).len (file.room id)), state) := by
  have room := has.room_eq ready.formed
  unfold rowGetLenInBlock
  rw [bind_ok (rowGetRecord_record state ready has), bind_ok (rowNextOffset_run state ready has)]
  by_cases more : file.ceiling id - (file.record id).offset > (file.record id).len
  · rw [if_pos more, pure_run, min_eq_left (by omega)]
  · rw [if_neg more, pure_run, min_eq_right (by omega), room]

/-- `content` was put at `place` of a row buffer and nothing before it changed. -/
structure Copied (row after : Buf) (place : Nat) (content : List UInt8) : Prop where
  len : after.len = row.len
  earlier : Mem.Agree after.byte row.byte 0 place
  bytes : after.byte.slice place content.length = content

theorem Copied.append {row mid after : Buf} {place : Nat} {first second : List UInt8}
    (left : Copied row mid place first) (right : Copied mid after (place + first.length) second) :
    Copied row after place (first ++ second) := by
  refine ⟨right.len.trans left.len, ?_, ?_⟩
  · exact (right.earlier.mono 0 place (Nat.le_refl _) (by omega)).trans left.earlier
  · have kept := (right.earlier.mono place first.length (Nat.zero_le place) (by omega)).slice_eq
    rw [List.length_append, Mem.slice_append, kept, left.bytes, right.bytes]

theorem copied_copy (row : Buf) (src : Mem) (place count : Nat) :
    Copied row ⟨row.len, row.byte.copy place src count⟩ place (src.slice 0 count) := by
  refine ⟨rfl, ?_, ?_⟩
  · have kept : Mem.Agree (row.byte.copy place src count) row.byte 0 place := Mem.agree_copy (by omega)
    exact kept
  · rw [Mem.slice_length]
    exact Mem.slice_copy row.byte place src count

theorem copyOut_run {σ : Type} (state : σ) (ready : file.Ready) (has : file.Has id) (row : Buf)
    {count place : Nat} (within : count ≤ file.room id) (fits : place + count ≤ row.len) :
    ∃ after, copyOut (file.block id.page) (file.record id).offset count row place state =
      (.ok after, state) ∧ Copied row after place (file.bytes id count) := by
  have bounds := has.bounds ready.formed
  have nonneg := has.offset_nonneg ready.formed
  have room := has.room_eq ready.formed
  let src : Mem := fun i => (file.block id.page).data ((file.record id).offset.toNat + i)
  refine ⟨⟨row.len, row.byte.copy (place : Int).toNat src (count : Int).toNat⟩, ?_, ?_⟩
  · unfold copyOut
    rw [if_pos (by simp only [dataLen]; omega)]
    rfl
  · have copied := copied_copy row src place count
    rwa [Mem.slice_shift, Nat.add_zero] at copied

/-- The loop over the pieces of a chained row appends them in order. -/
theorem readChain_run {disk : File} (chain : disk.Chain id content path) :
    ∀ {file : DataFile} (steps : Nat) (row : Buf) (place : Nat), file.toFile = disk → file.Ready →
      content.length < steps → place + content.length ≤ row.len →
      ∃ result after, readChain steps (disk.block id.page) id.rowIdx (disk.record id) content.length
        row place file = (.ok result, after) ∧ Quiet file after ∧ Copied row result place content := by
  induction chain with
  | @last id content has length fits bytes =>
    rintro file (_ | steps) row place rfl ready enough within
    · omega
    · have readLen := rowGetLenInBlock_run file ready has
      rw [length, min_eq_left (by exact_mod_cast fits)] at readLen
      obtain ⟨result, copied, put⟩ := copyOut_run file ready has row fits within
      rw [bytes] at put
      refine ⟨result, file, ?_, Quiet.refl file, put⟩
      rw [readChain, bind_ok readLen, bind_ok copied, if_neg (by omega)]
      rfl
  | @more id next content path has length positive split bytes nextBlock nextRow rest ih =>
    rintro file (_ | steps) row place rfl ready enough within
    · omega
    · have readLen := rowGetLenInBlock_run file ready has
      rw [length, min_eq_right (by omega)] at readLen
      obtain ⟨mid, copied, put⟩ := copyOut_run file ready has row (Nat.le_refl _)
        (show place + file.room id ≤ row.len by omega)
      rw [bytes] at put
      have taken : (content.take (file.room id)).length = file.room id := by
        simp only [List.length_take]
        omega
      obtain ⟨mapped, quiet, opened⟩ := openRecord_run ready rest.has
      have left : ((content.drop (file.room id)).length : Int) = content.length - file.room id := by
        simp only [List.length_drop]
        omega
      obtain ⟨result, after, ran, later, tail⟩ := ih steps mid (place + file.room id)
        quiet.file (quiet.ready ready) (by omega) (by rw [put.len]; omega)
      refine ⟨result, after, ?_, quiet.trans later, ?_⟩
      · rw [readChain, bind_ok readLen, bind_ok copied, if_pos (by omega), nextBlock, nextRow, opened, ← left]
        exact_mod_cast ran
      · have whole := put.append (by rw [taken]; exact tail)
        rwa [List.take_append_drop] at whole

theorem uninitialised_run (file : DataFile) :
    ∃ after, uninitialised file = (.ok (file.junk 0), after) ∧ Quiet file after :=
  ⟨_, rfl, rfl, rfl, id, id⟩

private theorem toList_of_copied {row result : Buf} (copied : Copied row result 0 content)
    (len : row.len = content.length) : result.toList = content := by
  rw [Buf.toList, copied.len, len, copied.bytes]

/-- The steps `_read_row` takes are bounded by the ranks left above the row. -/
theorem readRow_inner {disk : File} (holds : disk.Holds id content path) :
    ∀ {file : DataFile} (steps : Nat), file.toFile = disk → file.Ready → 2 ^ 28 - id.rank ≤ steps →
      ∃ row after, Inner.readRow steps id.blockId id.rowIdx file = (.ok (some row), after) ∧
        Quiet file after ∧ row.toList = content := by
  induction holds with
  | @moved id next content path has live migrated nextBlock nextRow later outside rest ih =>
    rintro file (_ | steps) rfl ready enough
    · have bound := has.rank_lt ready.formed
      omega
    · obtain ⟨mapped, quiet, opened⟩ := openRecord_run ready has
      obtain ⟨row, after, ran, rests, read⟩ := ih steps quiet.file (quiet.ready ready) (by omega)
      refine ⟨row, after, ?_, quiet.trans rests, read⟩
      rw [Inner.readRow, opened, if_neg live, if_pos migrated, nextBlock, nextRow]
      exact ran
  | @chained id content path live settled chained chain =>
    rintro file (_ | steps) rfl ready enough
    · have bound := chain.has.rank_lt ready.formed
      omega
    · obtain ⟨mapped, quiet, opened⟩ := openRecord_run ready chain.has
      obtain ⟨drawn, drew, quietDraw⟩ := uninitialised_run mapped
      have length := chain.length
      have bound := (recordAt_fits (file.block id.page).data id.place).len
      have small : content.length < stepBound := by
        have same : (recordAt (file.block id.page).data id.place).len = content.length := length
        have power : 2147483648 < stepBound := by decide
        omega
      have quietBoth := quiet.trans quietDraw
      obtain ⟨row, after, ran, rests, put⟩ := readChain_run chain stepBound
        ⟨(file.record id).len.toNat, mapped.junk 0⟩ 0 quietBoth.file (quietBoth.ready ready) small
        (by simp only [length]; omega)
      refine ⟨row, after, ?_, quietBoth.trans rests, toList_of_copied put (by simp only [length]; omega)⟩
      rw [Inner.readRow, opened, if_neg live, if_neg settled, if_neg (by omega), bind_ok drew, if_pos chained]
      rw [length] at ran ⊢
      exact bind_ok ran
  | @whole id content live settled whole chain =>
    rintro file (_ | steps) rfl ready enough
    · have bound := chain.has.rank_lt ready.formed
      omega
    · obtain ⟨mapped, quiet, opened⟩ := openRecord_run ready chain.has
      obtain ⟨drawn, drew, quietDraw⟩ := uninitialised_run mapped
      have length := chain.length
      obtain ⟨fits, bytes⟩ := chain.single
      obtain ⟨row, copied, put⟩ := copyOut_run drawn ready chain.has
        ⟨(file.record id).len.toNat, mapped.junk 0⟩ fits (show 0 + content.length ≤ _ by simp only [length]; omega)
      rw [bytes] at put
      refine ⟨row, drawn, ?_, quiet.trans quietDraw, toList_of_copied put (by simp only [length]; omega)⟩
      rw [Inner.readRow, opened, if_neg live, if_neg settled, if_neg (by omega), bind_ok drew, if_neg whole]
      rw [length] at copied ⊢
      exact bind_ok copied

/-- Reading a row that is held returns its content and changes nothing. -/
theorem readRow_holds (ready : file.Ready) (holds : file.toFile.Holds id content path) :
    ∃ row after, readRow id.blockId id.rowIdx file = (.ok (some row), after) ∧ Quiet file after ∧
      row.toList = content :=
  readRow_inner holds stepBound rfl ready
    (Nat.le_trans (Nat.sub_le _ _) (by decide : 2 ^ 28 ≤ stepBound))

/-- Reading a deleted row returns no row. -/
theorem readRow_deleted (ready : file.Ready) (has : file.Has id)
    (deleted : rowDeleted (file.record id).flags = 1) :
    ∃ after, readRow id.blockId id.rowIdx file = (.ok none, after) ∧ Quiet file after := by
  obtain ⟨mapped, quiet, opened⟩ := openRecord_run ready has
  refine ⟨mapped, ?_, quiet⟩
  have bound : stepBound = (stepBound - 1) + 1 := by decide
  rw [readRow, bound, Inner.readRow, opened, if_pos deleted]
  rfl

end DataFile

end Pingkv
