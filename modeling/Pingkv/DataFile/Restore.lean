import Pingkv.DataFile.FitModify
import Pingkv.DataFile.Reachable
import Pingkv.DataFile.Unmapped

/-! `modify_row` where blocks cannot be mapped: what the rows read as afterwards. -/

namespace Pingkv

namespace DataFile

open Exec

variable {file after later : DataFile} {id : RecordId} {rows : Rows}

/-- No block is refused behind the point where the record of the row is marked as migrated:
one on the way there is, or the row is written in place, or none is. -/
def Spared (file : DataFile) (id : RecordId) (len : Nat) : Prop :=
  ¬ file.MapsLinks stepBound id ∨ file.InPlace stepBound id len ∨ file.MapsAnew stepBound id len

instance (file : DataFile) (id : RecordId) (len : Nat) : Decidable (file.Spared id len) :=
  inferInstanceAs (Decidable (¬ _ ∨ _ ∨ _))

/-- What a row reads as does not depend on memory that was never written. -/
theorem reading_of_storing (storing : file.Storing rows) {row : Option (List UInt8)} (found : rows id = some row) :
    file.reading id.number = .ok row := by
  cases row with
  | none =>
    obtain ⟨after, read, _⟩ := readRow_gone storing found
    rw [reading, RecordId.number, read]
    rfl
  | some content =>
    obtain ⟨row, after, read, _, same⟩ := readRow_storing storing found
    rw [reading, RecordId.number, read, ← same]
    rfl

/-- Rows read as before from an object over the same disk. -/
theorem reading_of_same {row : Option (List UInt8)} (storing : file.Storing rows) (found : rows id = some row)
    (disk : later.toFile = file.toFile) (tame : later.Tame) (serves : ∀ call n, later.os call n = true) :
    later.reading id.number = file.reading id.number := by
  have fresh : ({ file with junk := later.junk, os := later.os } : DataFile).Storing rows :=
    ⟨⟨storing.ready.formed, storing.ready.cached, fun call n _ => serves call n⟩, storing.stores⟩
  have same : Same later { file with junk := later.junk, os := later.os } :=
    ⟨disk, rfl, ⟨tame, storing.ready.fit.tame⟩, fun n => ⟨fun k _ => serves .mmap k, fun k _ => serves .mmap k⟩⟩
  rw [same.reading, reading_of_storing fresh found, reading_of_storing storing found]

/-- Where a modification is spared, -1 means that the file was left alone. -/
theorem modifyRow_spared (fit : file.Fit) {content : List UInt8} {path : List RecordId} (holds : file.toFile.Holds id content path)
    (row : Buf) (small : row.len < 2 ^ 31) (granted : file.Granted row.len) (spared : file.Spared id row.len) :
    wp (modifyRow id.blockId id.rowIdx row) (fun _ _ => True) (fun _ after => Aborted file after) file := by
  refine (innerModifyRow_fit holds stepBound row rfl fit small
    (Nat.le_trans (Nat.sub_le _ _) (by decide : 2 ^ 28 ≤ stepBound))).mono (fun _ _ _ => trivial) ?_
  rintro reason after (⟨_, _, aborted⟩ | ⟨links, moved, halted⟩)
  · exact aborted
  · have anew := (spared.resolve_left (not_not_intro links)).resolve_left moved
    rcases halted with ⟨_, short⟩ | ⟨_, short⟩
    · exact absurd anew short
    · exact absurd granted short

end DataFile

namespace History

open Exec DataFile

variable {history : History} {id : Int × Int} {row : Buf} {os : OsCall → Nat → Bool}

/-- If `modify_row` returns -1, then once every call into the operating system succeeds again each
row reads as it did before. -/
def Restores (history : History) (os : OsCall → Nat → Bool) (id : Int × Int) (row : Buf) : Prop :=
  (modifyRow id.1 id.2 row (history.file.withOs os)).1 = .error .failed → ∀ later : DataFile,
    later.toFile = (modifyRow id.1 id.2 row (history.file.withOs os)).2.toFile →
    later.cache = (modifyRow id.1 id.2 row (history.file.withOs os)).2.cache → (∀ call n, later.os call n = true) →
    ∀ other ∈ history.handed, later.reading other = history.file.reading other

/-- A refused modification leaves all rows as they were where no block is refused behind the mark. -/
theorem Reached.restores (reached : Reached history) (handed : id ∈ history.handed) (live : id ∉ history.deleted)
    (small : row.len < 2 ^ 31) (served : ∀ kind n, kind ≠ .mmap → os kind n = true)
    (spared : (history.file.withOs os).Spared (RecordId.ofNumber id) row.len) : history.Restores os id row := by
  obtain ⟨rows, sound⟩ := reached.sound
  obtain ⟨place, rfl, there⟩ := sound.handed id handed
  obtain ⟨stored, found⟩ := Option.ne_none_iff_exists'.mp there
  rw [RecordId.ofNumber_number] at spared
  cases stored with
  | none => exact absurd (sound.deleted place found) live
  | some content =>
    intro refused later disk cache serves other handed'
    obtain ⟨path, holds⟩ := sound.storing.holds found
    have fit := sound.storing.ready.withOs os
    have granted := fit.granted (fun n => served .lseek n (by decide)) (fun n => served .write n (by decide)) row.len
    have aborted := (modifyRow_spared fit holds row small granted spared).error (run_of_fst refused)
    obtain ⟨place', rfl, there'⟩ := sound.handed other handed'
    obtain ⟨stored', found'⟩ := Option.ne_none_iff_exists'.mp there'
    have tame : later.Tame := by
      rw [Tame, cache]
      exact aborted.tame
    exact reading_of_same sound.storing found' (disk.trans aborted.file) tame serves

/-- The row of a flushed file, whose block cannot be mapped. -/
theorem flushed_restores : ((start.perform (.writeRow (Buf.ofList [1, 2, 3]))).perform .flushBlocks).Restores (mapping 0) (2, 1)
    (Buf.ofList [4, 5, 6, 7]) := by
  have flushed := three_reached.step (step_perform .flushBlocks (by simp [Call.target]) (by decide) (by decide +kernel))
  exact Reached.restores flushed (by decide +kernel) (by decide +kernel) (by decide) (mapping_served 0) (by decide +kernel)

private theorem not_restores {other : Int × Int} (handed : other ∈ history.handed)
    (refused : (modifyRow id.1 id.2 row (history.file.withOs os)).1 = .error .failed)
    (differs : ((modifyRow id.1 id.2 row (history.file.withOs os)).2.withOs fun _ _ => true).reading other ≠
      history.file.reading other) : ¬ history.Restores os id row := by
  intro restores
  exact differs (restores refused ((modifyRow id.1 id.2 row (history.file.withOs os)).2.withOs fun _ _ => true) rfl rfl
    (fun _ _ => rfl) other handed)

/-- A row of three bytes cannot be read any more once the block for a longer content could not be mapped. -/
theorem marked_row_lost : ∃ history, Reached history ∧ (2, 1) ∈ history.handed ∧ (2, 1) ∉ history.deleted ∧
    (∀ kind n, kind ≠ .mmap → mapping 0 kind n = true) ∧ ¬ history.Restores (mapping 0) (2, 1) ⟨9000, fun _ => 7⟩ := by
  refine ⟨_, three_reached, by decide +kernel, by decide +kernel, mapping_served 0, ?_⟩
  apply not_restores
  · exact show (2, 1) ∈ _ by decide +kernel
  · decide +kernel
  · decide +kernel

end History

end Pingkv
