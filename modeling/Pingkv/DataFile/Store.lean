import Mathlib.Data.List.Basic
import Mathlib.Logic.Function.Basic
import Pingkv.DataFile.Modify

/-! A data file seen as a store: which row ids were handed out, and the bytes
each of them stands for. The public methods act on this view one row at a time. -/

namespace Pingkv

/-- The rows of a store by their ids: none where no row was handed out, and no
bytes for a row that was deleted. -/
abbrev Rows : Type := RecordId → Option (Option (List UInt8))

namespace Rows

variable {rows : Rows} {id other : RecordId} {row : Option (List UInt8)}

def put (rows : Rows) (id : RecordId) (row : Option (List UInt8)) : Rows :=
  Function.update rows id (some row)

@[simp] theorem put_same : rows.put id row id = some row := Function.update_self _ _ _

@[simp] theorem put_put {first : Option (List UInt8)} : (rows.put id first).put id row = rows.put id row :=
  Function.update_idem _ _ _

theorem put_ne (different : other ≠ id) : rows.put id row other = rows other :=
  Function.update_of_ne different _ _

theorem put_handed (handed : rows other ≠ none) : rows.put id row other ≠ none := by
  by_cases same : other = id
  · simp [same]
  · rwa [put_ne same]

end Rows

namespace File

variable {file before after : File} {id : RecordId} {content : List UInt8} {path : List RecordId}

/-- One row of a store, with the records it is kept in. -/
def RowAt (file : File) (id : RecordId) : Option (List UInt8) → List RecordId → Prop
  | none, path => file.Has id ∧ rowDeleted (file.record id).flags = 1 ∧ path = [id]
  | some content, path => file.Holds id content path

theorem RowAt.has_all {row : Option (List UInt8)} (holds : file.RowAt id row path) :
    ∀ place ∈ path, file.Has place := by
  cases row with
  | none =>
    obtain ⟨has, _, rfl⟩ := holds
    exact List.forall_mem_singleton.mpr has
  | some content => exact Holds.has_all holds

theorem RowAt.head_mem {row : Option (List UInt8)} (holds : file.RowAt id row path) : id ∈ path := by
  cases row with
  | none => simp [holds.2.2]
  | some content => exact Holds.head_mem holds

theorem RowAt.transfer {row : Option (List UInt8)} (holds : before.RowAt id row path)
    (keeps : ∀ place ∈ path, before.Keeps after place) : after.RowAt id row path := by
  cases row with
  | none =>
    obtain ⟨has, deleted, rfl⟩ := holds
    have kept := keeps id (by simp)
    exact ⟨kept.has, by rw [kept.record]; exact deleted, rfl⟩
  | some content => exact Holds.transfer holds keeps

/-- Where the rows of a store are kept; no two of them share a record. -/
structure Layout (file : File) (rows : Rows) (path : RecordId → List RecordId) : Prop where
  row : ∀ id row, rows id = some row → file.RowAt id row (path id)
  disjoint : ∀ id other, rows id ≠ none → rows other ≠ none → id ≠ other →
    List.Disjoint (path id) (path other)

/-- The file keeps these rows. -/
def Stores (file : File) (rows : Rows) : Prop := ∃ path, file.Layout rows path

variable {rows : Rows} {row : Option (List UInt8)}

theorem stores_none (file : File) : file.Stores fun _ => none := by
  refine ⟨fun _ => [], ?_, ?_⟩
  · intro id row found
    cases found
  · intro id other handed
    exact absurd rfl handed

theorem Layout.has_all {place : RecordId} {paths : RecordId → List RecordId}
    (layout : file.Layout rows paths) (handed : rows id ≠ none) (member : place ∈ paths id) :
    file.Has place := by
  obtain ⟨row, found⟩ := Option.ne_none_iff_exists'.mp handed
  exact (layout.row id row found).has_all place member

theorem Stores.has (stores : file.Stores rows) (handed : rows id ≠ none) : file.Has id := by
  obtain ⟨paths, layout⟩ := stores
  obtain ⟨row, found⟩ := Option.ne_none_iff_exists'.mp handed
  exact layout.has_all handed (layout.row id row found).head_mem

theorem Stores.transfer (stores : before.Stores rows) (kept : before.KeepsBut after []) :
    after.Stores rows := by
  obtain ⟨paths, layout⟩ := stores
  refine ⟨paths, fun id row found => ?_, layout.disjoint⟩
  exact (layout.row id row found).transfer fun place member =>
    kept.keeps (layout.has_all (by rw [found]; simp) member)

/-- One row changes in records of its own and in new ones: the other rows stay. -/
theorem Layout.put {paths : RecordId → List RecordId} {touched path' : List RecordId}
    (layout : before.Layout rows paths) (kept : before.KeepsBut after touched)
    (owned : ∀ place ∈ touched, rows id ≠ none ∧ place ∈ paths id) (holds : after.RowAt id row path')
    (own : ∀ place ∈ path', rows id ≠ none ∧ place ∈ paths id ∨ ¬ before.Has place) :
    after.Layout (rows.put id row) (Function.update paths id path') := by
  have apart : ∀ other, other ≠ id → rows other ≠ none → List.Disjoint (paths other) path' := by
    intro other different handed place member member'
    rcases own place member' with ⟨handed', old⟩ | new
    · exact layout.disjoint other id handed handed' different member old
    · exact new (layout.has_all handed member)
  refine ⟨?_, ?_⟩
  · intro other row' found
    by_cases same : other = id
    · subst same
      rw [Rows.put_same] at found
      rw [Function.update_self, ← Option.some.inj found]
      exact holds
    · rw [Rows.put_ne same] at found
      have handed : rows other ≠ none := by rw [found]; simp
      rw [Function.update_of_ne same]
      refine (layout.row other row' found).transfer fun place member =>
        kept place (layout.has_all handed member) fun inside => ?_
      obtain ⟨handed', old⟩ := owned place inside
      exact layout.disjoint other id handed handed' same member old
  · intro first second handed handed' different
    by_cases same : first = id
    · subst same
      rw [Rows.put_ne (Ne.symm different)] at handed'
      rw [Function.update_self, Function.update_of_ne (Ne.symm different)]
      exact (apart second (Ne.symm different) handed').symm
    · rw [Rows.put_ne same] at handed
      rw [Function.update_of_ne same]
      by_cases same' : second = id
      · subst same'
        rw [Function.update_self]
        exact apart first same handed
      · rw [Rows.put_ne same'] at handed'
        rw [Function.update_of_ne same']
        exact layout.disjoint first second handed handed' different

end File

namespace DataFile

open Exec

variable {file : DataFile} {rows : Rows} {id : RecordId} {content : List UInt8}

/-- A data file between two calls, with the rows it stores. -/
structure Storing (file : DataFile) (rows : Rows) : Prop where
  ready : file.Ready
  stores : file.toFile.Stores rows

theorem Quiet.storing {after : DataFile} (quiet : Quiet file after) (storing : file.Storing rows) :
    after.Storing rows :=
  ⟨quiet.ready storing.ready, by rw [quiet.file]; exact storing.stores⟩

theorem Storing.has (storing : file.Storing rows) (handed : rows id ≠ none) : file.Has id :=
  storing.stores.has handed

theorem Storing.holds (storing : file.Storing rows) (found : rows id = some (some content)) :
    ∃ path, file.toFile.Holds id content path := by
  obtain ⟨paths, layout⟩ := storing.stores
  exact ⟨paths id, layout.row id _ found⟩

theorem Storing.deleted (storing : file.Storing rows) (found : rows id = some none) :
    file.Has id ∧ rowDeleted (file.record id).flags = 1 := by
  obtain ⟨paths, layout⟩ := storing.stores
  obtain ⟨has, deleted, _⟩ := layout.row id _ found
  exact ⟨has, deleted⟩

/-- The record every other row was handed out under is what it was. -/
def Others (rows : Rows) (id : RecordId) (before after : File) : Prop :=
  ∀ other, rows other ≠ none → other ≠ id → after.record other = before.record other

/-- A row was stored under an id of its own. -/
structure Handed (before after : DataFile) (rows : Rows) (id : RecordId) (row : Buf) : Prop where
  storing : after.Storing (rows.put id (some row.toList))
  initOk : after.initOk = before.initOk
  new : rows id = none
  later : ∀ other, rows other ≠ none → other.rank < id.rank

theorem Placed.handed {after : DataFile} {row : Buf} {path : List RecordId} (storing : file.Storing rows)
    (placed : Placed file after id row.toList path) : Handed file after rows id row := by
  have later (other : RecordId) (handed : rows other ≠ none) : other.rank < id.rank :=
    placed.later other (storing.has handed)
  have new : rows id = none := by
    by_contra handed
    exact Nat.lt_irrefl _ (later id handed)
  obtain ⟨paths, layout⟩ := storing.stores
  exact ⟨⟨placed.ready, _, layout.put placed.kept (by simp) placed.holds fun place member =>
    .inr (placed.fresh place member)⟩, placed.initOk, new, later⟩

theorem Placed.others {after : DataFile} {path : List RecordId} (storing : file.Storing rows)
    (placed : Placed file after id content path) : Others rows id file.toFile after.toFile :=
  fun _ handed _ => (placed.kept.keeps (storing.has handed)).record

theorem writeRow_storing (storing : file.Storing rows) (row : Buf) (small : row.len < 2 ^ 31) :
    wp (writeRow row) (fun number after => ∃ id, number = (id.blockId, id.rowIdx) ∧
      Handed file after rows id row ∧ Others rows id file.toFile after.toFile ∧
      ((file.block file.current).free ≠ 0 → id = ⟨file.current, (file.block file.current).count⟩ ∧
        (row.len ≤ (file.block file.current).free → after.Whole id)))
      (Halted file.HasRoom) file := by
  refine (writeRow_ready storing.ready row small).mono ?_ fun _ _ halted => halted
  rintro _ after ⟨id, path, rfl, placed, used⟩
  exact ⟨id, rfl, placed.handed storing, placed.others storing, used⟩

/-- The new block comes after the blocks of all rows there were. -/
theorem writeRowNewBlock_storing (storing : file.Storing rows) (row : Buf) (small : row.len < 2 ^ 31) :
    wp (writeRowNewBlock row) (fun blockId after => ∃ id, blockId = id.blockId ∧ id.place = 0 ∧
      (∀ other, rows other ≠ none → other.page < id.page) ∧ Handed file after rows id row) Outgrew file := by
  refine (writeRowNewBlock_ready storing.ready row small).mono ?_ fun _ _ outgrown => outgrown
  rintro _ after ⟨id, path, rfl, first, next, placed⟩
  refine ⟨id, rfl, first, fun other handed => ?_, placed.handed storing⟩
  exact Nat.lt_of_le_of_lt ((storing.has handed).page_le_current storing.ready.formed) next

/-- A row of the size of a block is stored in the next one, with one block more used,
unless there is no next one to map. -/
theorem writeRowNewBlock_stored (storing : file.Storing rows) (row : Buf) (fits : row.len ≤ 8152) :
    (∃ id after, writeRowNewBlock row file = (.ok id.blockId, after) ∧ id.place = 0 ∧
      (∀ other, rows other ≠ none → other.page < id.page) ∧ Handed file after rows id row ∧
      Others rows id file.toFile after.toFile ∧ after.Whole id ∧
      after.info.usedBlockCount = file.info.usedBlockCount + 1 ∧ file.info.usedBlockCount < 262144) ∨
    ∃ after, writeRowNewBlock row file = (.error .fault, after) ∧ after.toFile.Outgrown ∧
      ¬ file.info.usedBlockCount < 262144 := by
  refine (writeRowNewBlock_short storing.ready row fits).imp_left ?_
  rintro ⟨id, after, ran, first, next, placed, whole, _, used⟩
  refine ⟨id, after, ran, first, fun other handed => ?_, placed.handed storing, placed.others storing, whole, used⟩
  exact Nat.lt_of_le_of_lt ((storing.has handed).page_le_current storing.ready.formed) next

/-- A modified row has the new bytes, in records of its own, and the other rows stay. -/
theorem Modified.storing {after : DataFile} {paths : RecordId → List RecordId} {path' : List RecordId} {content' : List UInt8}
    (layout : file.toFile.Layout rows paths) (handed : rows id ≠ none)
    (modified : Modified file after id content' (paths id) path') :
    after.Storing (rows.put id (some content')) :=
  ⟨modified.ready, _, layout.put modified.kept (fun _ member => ⟨handed, member⟩) modified.holds fun place member =>
    (modified.path place member).imp_left fun old => ⟨handed, old⟩⟩

/-- `modify_row` puts the new bytes at the start of the row; zeros may follow
where the old row was longer. -/
theorem modifyRow_storing (storing : file.Storing rows) (found : rows id = some (some content)) (row : Buf)
    (small : row.len < 2 ^ 31) :
    wp (modifyRow id.blockId id.rowIdx row) (fun _ after => after.initOk = file.initOk ∧
      after.Storing (rows.put id (some (row.toList ++ List.replicate (file.leftover stepBound id row.len) 0))) ∧
      Others rows id file.toFile after.toFile) Overflowed file := by
  obtain ⟨paths, layout⟩ := storing.stores
  have handed : rows id ≠ none := by rw [found]; simp
  refine (modifyRow_ready storing.ready (layout.row id _ found) row small).mono ?_ fun _ _ halt => halt
  rintro _ after ⟨path', modified⟩
  refine ⟨modified.initOk, modified.storing layout handed, ?_⟩
  intro other handed' different
  obtain ⟨row', found'⟩ := Option.ne_none_iff_exists'.mp handed'
  have own := (layout.row other row' found').head_mem
  exact (modified.kept other (storing.has handed') (layout.disjoint other id handed' handed different own)).record

/-- `modify_row` writes a row of one record in place where that has room for the new bytes. -/
theorem modifyRow_stored (storing : file.Storing rows) (found : rows id = some (some content)) (whole : file.Whole id)
    (row : Buf) (shorter : row.len ≤ content.length) : ∃ after,
    modifyRow id.blockId id.rowIdx row file = (.ok (), after) ∧ after.info = file.info ∧
      after.record id = file.record id := by
  obtain ⟨path, holds⟩ := storing.holds found
  exact modifyRow_whole storing.ready holds whole row shorter

theorem Storing.leftover_le (storing : file.Storing rows) (found : rows id = some (some content))
    (len : Nat) : file.leftover stepBound id len ≤ content.length - len := by
  obtain ⟨path, holds⟩ := storing.holds found
  exact holds.leftover_le storing.ready.formed len stepBound
    (Nat.le_trans (Nat.sub_le _ _) (by decide : 2 ^ 28 ≤ stepBound))

theorem modifyRow_gone (storing : file.Storing rows) (found : rows id = some none) (row : Buf) :
    ∃ after, modifyRow id.blockId id.rowIdx row file = (.error .failed, after) ∧ Quiet file after :=
  modifyRow_deleted storing.ready (storing.deleted found).1 (storing.deleted found).2 row

/-- A row whose record was marked is deleted, and the other rows stay. -/
theorem Edited.storing {after : DataFile} (storing : file.Storing rows) (handed : rows id ≠ none) (edited : Edited file after id)
    (deleted : rowDeleted (after.record id).flags = 1) : after.Storing (rows.put id none) := by
  obtain ⟨paths, layout⟩ := storing.stores
  obtain ⟨row, found⟩ := Option.ne_none_iff_exists'.mp handed
  have own : ∀ place ∈ [id], rows id ≠ none ∧ place ∈ paths id := by
    intro place member
    rw [List.mem_singleton.mp member]
    exact ⟨handed, (layout.row id row found).head_mem⟩
  exact ⟨edited.ready, _, layout.put edited.kept own ⟨edited.has, deleted, rfl⟩ fun place member => .inl (own place member)⟩

theorem deleteRow_storing (storing : file.Storing rows) (handed : rows id ≠ none) :
    ∃ after, deleteRow id.blockId id.rowIdx file = (.ok (), after) ∧ after.initOk = file.initOk ∧
      after.Storing (rows.put id none) := by
  obtain ⟨after, ran, edited, deleted⟩ := deleteRow_ready storing.ready (storing.has handed)
  exact ⟨after, ran, edited.initOk, edited.storing storing handed deleted⟩

theorem readRow_storing (storing : file.Storing rows) (found : rows id = some (some content)) :
    ∃ row after, readRow id.blockId id.rowIdx file = (.ok (some row), after) ∧ Quiet file after ∧
      row.toList = content := by
  obtain ⟨path, holds⟩ := storing.holds found
  exact readRow_holds storing.ready holds

theorem readRow_gone (storing : file.Storing rows) (found : rows id = some none) :
    ∃ after, readRow id.blockId id.rowIdx file = (.ok none, after) ∧ Quiet file after :=
  readRow_deleted storing.ready (storing.deleted found).1 (storing.deleted found).2

/-- Reading a row that was handed out changes nothing. -/
theorem readRow_quiet {stored : Option (List UInt8)} (storing : file.Storing rows) (found : rows id = some stored) :
    ∃ row after, readRow id.blockId id.rowIdx file = (.ok row, after) ∧ Quiet file after := by
  cases stored with
  | none =>
    obtain ⟨after, read, quiet⟩ := readRow_gone storing found
    exact ⟨none, after, read, quiet⟩
  | some content =>
    obtain ⟨row, after, read, quiet, _⟩ := readRow_storing storing found
    exact ⟨some row, after, read, quiet⟩

/-- A file of 128 empty blocks behind its head. -/
theorem formed_of_new {disk : File} (used : disk.info.usedBlockCount = 2) (count : disk.info.blockCount = 129)
    (size : disk.size = 129)
    (added : ∀ page : Nat, 0 < page → page < 129 →
      (disk.block page).blockId = page + 1 ∧ (disk.block page).recordCount = 0) :
    disk.Formed := by
  constructor
  · rw [used]
  · rw [used, count]
    decide
  · rw [used]
    decide
  · rw [count, size]
    rfl
  · intro page positive within
    exact (added page positive (by omega)).1
  · intro page positive within
    exact Block.formed_of_empty (added page positive (by omega)).2
  · intro page above within
    exact (added page (by omega) (by omega)).2

/-- A new data file is ready and stores no row. -/
theorem createFile_run (os : OsCall → Nat → Bool) (serves : ∀ call n, call ≠ .munmap → os call n = true)
    (junk : Nat → Mem) (dbName : List UInt8) (fileId pid : Int) :
    ∃ file, createFile dbName fileId pid (new os junk) = (.ok (), file) ∧
      file.Storing (fun _ => none) ∧ file.initOk = true ∧ file.info.usedBlockCount = 2 ∧
      file.info.blockCount = 129 ∧ (file.block 1).recordCount = 0 := by
  have served : (new os junk).Serves := serves
  obtain ⟨opened, open_run, quiet⟩ := osCall_serves served .open (by decide)
  obtain ⟨moded, mode_run, quiet'⟩ := osCall_serves (quiet.serves served) .fchmod (by decide)
  obtain ⟨written, write_run, quiet''⟩ := osCall_serves (quiet'.serves (quiet.serves served)) .write (by decide)
  have same := quiet''.file.trans (quiet'.file.trans quiet.file)
  let headed : DataFile := { written with
    size := max 1 written.size
    info := {
      currPid := pid
      fileId := fileId
      dbName := dbName.take 15
      blockSize := Pingkv.blockSize
      blockCount := 1
      usedBlockCount := 1 } }
  have servedHeaded : headed.Serves := quiet''.serves (quiet'.serves (quiet.serves served))
  obtain ⟨mapped, map_run, quietMap⟩ := osCall_serves servedHeaded .mmap (by decide)
  obtain ⟨extended, extend_run, appended⟩ := extendFile_run (quietMap.serves servedHeaded)
  let moved : DataFile := { extended with info := { extended.info with usedBlockCount := 2 } }
  have servedMoved : moved.Serves := appended.serves
  obtain ⟨synced, sync_run, quietSync⟩ := osCall_serves servedMoved .msync (by decide)
  have size : mapped.size = 1 := by
    have empty : written.size = 0 := congrArg File.size same
    have head : mapped.size = max 1 written.size := congrArg File.size quietMap.file
    omega
  have info : mapped.info = headed.info := congrArg File.info quietMap.file
  have extendedSize : extended.size = 129 := by rw [appended.size, size]
  have syncedFile : synced.toFile = moved.toFile := quietSync.file
  have added (page : Nat) (positive : 0 < page) (within : page < 129) :
      (extended.block page).blockId = page + 1 ∧ (extended.block page).recordCount = 0 := by
    have fresh := appended.added (page - 1) (by omega)
    rw [size, info, show 1 + (page - 1) = page by omega] at fresh
    refine ⟨?_, fresh.2⟩
    rw [fresh.1]
    simp only [headed]
    omega
  have count : extended.info.blockCount = 129 := by
    rw [appended.info, info]
    rfl
  have noEntry : extended.cache = [] := by
    have first : opened.cache = [] := (congrArg (fun result => result.2.cache) open_run).symm
    have second : moded.cache = opened.cache := (congrArg (fun result => result.2.cache) mode_run).symm
    have third : written.cache = moded.cache := (congrArg (fun result => result.2.cache) write_run).symm
    have fourth : mapped.cache = written.cache := (congrArg (fun result => result.2.cache) map_run).symm
    rw [appended.cache, fourth, third, second, first]
  refine ⟨{ synced with initOk := true }, ?_, ⟨⟨?_, ?_, quietSync.serves servedMoved⟩, ?_⟩, rfl, ?_, ?_, ?_⟩
  · rw [createFile, bind_ok open_run]
    simp only [Bool.not_true, Bool.false_eq_true, if_false]
    rw [bind_ok mode_run]
    simp only [Bool.not_true, Bool.false_eq_true, if_false]
    rw [bind_ok write_run]
    simp only [Bool.not_true, Bool.false_eq_true, if_false, update_bind_run]
    rw [bind_ok (show readFileHead headed = (.ok (), mapped) by
      rw [readFileHead, bind_ok map_run]
      rfl), bind_ok extend_run, update_bind_run, bind_ok (show flushFileHead moved = (.ok (), synced) by
      rw [flushFileHead, bind_ok sync_run]
      rfl)]
    rfl
  · change synced.toFile.Formed
    rw [syncedFile]
    exact formed_of_new rfl count extendedSize added
  · refine quietSync.cached ?_
    intro entry member
    rw [noEntry] at member
    cases member
  · exact File.stores_none _
  · exact congrArg (fun disk => disk.info.usedBlockCount) syncedFile
  · exact (congrArg (fun disk => disk.info.blockCount) syncedFile).trans count
  · exact (congrArg (fun disk => (disk.block 1).recordCount) syncedFile).trans (added 1 (by omega) (by omega)).2

end DataFile

end Pingkv
