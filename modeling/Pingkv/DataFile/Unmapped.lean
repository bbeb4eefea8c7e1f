import Pingkv.DataFile.FitRows
import Pingkv.DataFile.Offsets

/-! The two row writers where blocks cannot be mapped: they return -1 exactly as
long as the first block for the row was mapped. -/

namespace Pingkv

namespace DataFile

variable {file : DataFile}

/-- The object, over an operating system that answers the coming calls in another way. -/
def withOs (file : DataFile) (os : OsCall → Nat → Bool) : DataFile := { file with os := os }

/-- Some block could not be mapped: `_cache` has a null entry for it. -/
def Unmapped (file : DataFile) : Prop := ∃ entry ∈ file.cache, entry.2 = .null

/-- Only the first coming calls of `mmap` succeed. -/
def mapping (calls : Nat) (kind : OsCall) (n : Nat) : Bool := decide (kind ≠ .mmap ∨ n < calls)

theorem mapping_served (calls : Nat) (kind : OsCall) (n : Nat) (other : kind ≠ .mmap) : mapping calls kind n = true := by
  simp [mapping, other]

theorem Ready.withOs (ready : file.Ready) (os : OsCall → Nat → Bool) : (file.withOs os).Fit := ⟨ready.fit.formed, ready.fit.cached⟩

theorem Fit.ample (fit : file.Fit) (lseek : ∀ n, file.os .lseek n = true) (write : ∀ n, file.os .write n = true) :
    file.supply.Ample := by
  have upper := fit.formed.used_upper
  exact ⟨by simp only [supply]; omega, lseek, write⟩

theorem Fit.granted (fit : file.Fit) (lseek : ∀ n, file.os .lseek n = true) (write : ∀ n, file.os .write n = true) (len : Nat) :
    file.Granted len := by
  have ample := fit.ample lseek write
  unfold Granted
  split
  · exact ample.grants _
  · exact ample.extend.1.grants _

end DataFile

namespace Call

open DataFile Exec History

variable {file : DataFile} {call : Call} {history : History} {os : OsCall → Nat → Bool}

/-- A call comes back without following a pointer that is not mapped, and where a block cannot be mapped it returns -1. -/
def Checks (call : Call) (file : DataFile) : Prop :=
  (call.run file).1 ≠ .error .fault ∧ (call.run file).1 ≠ .error .exhausted ∧
    ((call.run file).2.Unmapped → (call.run file).1 = .error .failed)

/-- The first block that a row writer needs can be mapped: the used one, and the next one where that is full. -/
def FirstMaps : Call → DataFile → Prop
  | writeRow _, file => file.FirstMaps
  | _, file => file.Maps (file.info.usedBlockCount + 1) 0

private theorem checks_iff {first : Prop} (clean : file.Clean)
    (runs : wp call.run (fun _ after => first ∧ (file.Clean → after.Clean))
      (fun reason _ => reason = .failed ∧ first ∨ reason = .fault ∧ ¬ first) file) : call.Checks file ↔ first := by
  rcases runs.cases with ⟨value, after, ran, mapped, kept⟩ | ⟨reason, after, ran, ⟨rfl, mapped⟩ | ⟨rfl, unmapped⟩⟩
  · refine iff_of_true ?_ mapped
    rw [Checks, ran]
    refine ⟨by simp, by simp, ?_⟩
    rintro ⟨entry, member, null⟩
    exact absurd null (kept clean entry member)
  · refine iff_of_true ?_ mapped
    rw [Checks, ran]
    exact ⟨by simp, by simp, fun _ => rfl⟩
  · refine iff_of_false ?_ unmapped
    rw [Checks, ran]
    exact fun checks => checks.1 rfl

/-- A row writer checks each `mmap` exactly where the first block it needs can be mapped: its
error exit reads the number of that block. -/
theorem checks_iff_firstMaps (reached : Reached history) (writes : call.Writes) (small : call.rowLen < 2 ^ 31)
    (served : ∀ kind n, kind ≠ .mmap → os kind n = true) :
    call.Checks (history.file.withOs os) ↔ call.FirstMaps (history.file.withOs os) := by
  obtain ⟨rows, sound⟩ := reached.sound
  have ready := sound.storing.ready
  have fit := ready.withOs os
  have lseek (n : Nat) : os .lseek n = true := served .lseek n (by decide)
  have write (n : Nat) : os .write n = true := served .write n (by decide)
  refine checks_iff ready.clean ?_
  cases call with
  | writeRow row =>
    refine wp_bind ((writeRow_fit fit row small).mono (fun _ _ wrote => wrote) ?_) ?_
    · rintro reason _ (⟨rfl, first, _⟩ | ⟨rfl, unmapped | short⟩)
      · exact .inl ⟨rfl, first⟩
      · exact .inr ⟨rfl, unmapped⟩
      · exact absurd (fit.granted lseek write row.len) short
    · rintro _ after ⟨first, id, path, _, _, took⟩
      exact wp_pure ⟨first, took.smooth.clean⟩
  | writeRowNewBlock row =>
    refine wp_bind ((writeRowNewBlock_fit fit row small).mono (fun _ _ wrote => wrote) ?_) ?_
    · rintro reason _ (⟨rfl, first, _⟩ | ⟨rfl, unmapped | short⟩)
      · exact .inl ⟨rfl, first⟩
      · exact .inr ⟨rfl, unmapped⟩
      · exact absurd ((fit.ample lseek write).grants _) short
    · rintro _ after ⟨first, id, path, _, _, _, took⟩
      exact wp_pure ⟨first, took.smooth.clean⟩
  | modifyRow | deleteRow | readRow | flushBlocks => exact writes.elim

/-- The second block of a long row cannot be mapped, and -1 is returned. -/
theorem long_row_checked : (writeRow ⟨9000, fun _ => 7⟩).Checks (start.file.withOs (mapping 1)) := by
  have writes : (writeRow ⟨9000, fun _ => 7⟩).Writes := trivial
  have maps : (start.file.withOs (mapping 1)).FirstMaps := by decide +kernel
  exact (checks_iff_firstMaps start_reached writes (by decide) (mapping_served 1)).mpr maps

/-- Where no block can be mapped, a row writer reads the number of the block through `MAP_FAILED`. -/
theorem first_block_unchecked : Reached start ∧ (∀ kind n, kind ≠ .mmap → mapping 0 kind n = true) ∧
    ((writeRow (Buf.ofList [7])).run (start.file.withOs (mapping 0))).1 = .error .fault ∧
    ¬ (writeRow (Buf.ofList [7])).Checks (start.file.withOs (mapping 0)) := by
  have crashed : ((writeRow (Buf.ofList [7])).run (start.file.withOs (mapping 0))).1 = .error .fault := by decide +kernel
  exact ⟨start_reached, mapping_served 0, crashed, fun checks => checks.1 crashed⟩

end Call

end Pingkv
