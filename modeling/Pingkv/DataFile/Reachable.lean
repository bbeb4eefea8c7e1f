import Pingkv.DataFile.History
import Pingkv.Lib.Transition

/-! What the rows of every data file read as that calls can lead to. -/

namespace Pingkv

/-- A modification to `len` bytes replaces the row as a whole: the record where
its links end is chained, or no longer than the new row. -/
def File.Replaces (file : File) (id : RecordId) (len : Nat) : Prop :=
  let last := file.record (file.settled stepBound id)
  rowChained last.flags = 1 ∨ last.len ≤ len

instance (file : File) (id : RecordId) (len : Nat) : Decidable (file.Replaces id len) :=
  inferInstanceAs (Decidable (_ ∨ _))

theorem File.leftover_eq_zero (file : File) (id : RecordId) (len : Nat) :
    file.leftover stepBound id len = 0 ↔ file.Replaces id len := by
  simp only [leftover, Replaces]
  by_cases chained : rowChained (file.record (file.settled stepBound id)).flags = 1
  · simp [chained]
  · simp only [chained, if_false, false_or]
    omega

namespace History

open Exec DataFile

variable {before after history : History} {call : Call} {calls : List Call} {row : Buf}
  {outcome : Except Stop (Option (Int × Int))}

/-- A row id reads as these bytes, at this length. -/
def Reads (file : DataFile) (id : Int × Int) (bytes : List UInt8) : Prop := ∃ buf after,
  readRow id.1 id.2 file = (.ok (some buf), after) ∧ buf.toList = bytes ∧ buf.len = bytes.length

theorem reads_of_storing {file : DataFile} {rows : Rows} {id : RecordId} {bytes : List UInt8}
    (storing : file.Storing rows) (found : rows id = some (some bytes)) : Reads file id.number bytes := by
  obtain ⟨buf, after, read, _, same⟩ := readRow_storing storing found
  exact ⟨buf, after, read, same, by rw [← same, Buf.toList_length]⟩

/-- The same file cannot read as two byte strings. -/
theorem Reads.unique {file : DataFile} {id : Int × Int} {bytes bytes' : List UInt8}
    (first : Reads file id bytes) (second : Reads file id bytes') : bytes = bytes' := by
  obtain ⟨buf, after, read, same, _⟩ := first
  obtain ⟨buf', after', read', same', _⟩ := second
  have equal : buf = buf' := by
    have outcomes := congrArg Prod.fst (read.symm.trans read')
    simpa using outcomes
  rw [← same, ← same', equal]

/-- A row that was written reads back as its bytes until a call changes it. -/
theorem Reached.reads_written (reached : Reached before)
    (writes : call = .writeRow row ∨ call = .writeRowNewBlock row) (step : Step before call outcome after) :
    ∃ id, outcome = .ok (some id) ∧ ∀ calls last, Steps after calls last →
      (∀ call ∈ calls, call.changes ≠ some id) → Reads last.file id row.toList := by
  obtain ⟨rows, sound⟩ := reached.sound
  obtain ⟨id, ended, kept⟩ := step.written sound writes
  refine ⟨id.number, ended, fun calls last steps spared => ?_⟩
  obtain ⟨rows', sound', same⟩ := steps.kept kept.sound
  refine reads_of_storing sound'.storing ?_
  rw [same id (by simp) spared, Rows.put_same]

/-- A call about a row that was handed out, which leaves at most `2 ^ 31` bytes. -/
def Fits (call : Call) (history : History) : Prop :=
  (∀ id ∈ call.target, id ∈ history.handed) ∧ call.rowLen < 2 ^ 31 ∧ ¬ (history.perform call).file.toFile.Outgrown

instance (call : Call) (history : History) : Decidable (Fits call history) := inferInstanceAs (Decidable (_ ∧ _ ∧ _))

theorem steps_of_fits (fits : Transition.Throughout (fun call history => some (history.perform call)) Fits calls history) :
    Steps history calls (calls.foldl perform history) := by
  induction calls generalizing history with
  | nil => exact .done _
  | cons call rest ih =>
    obtain ⟨⟨aimed, small, bounded⟩, later⟩ := fits
    exact .next (step_perform call (fun id same => aimed id same) small bounded) (ih (later _ rfl))

/-- Calls about other rows than the first one. -/
def others : List Call :=
  [.writeRow (Buf.ofList [1, 2, 3]), .readRow (2, 1), .modifyRow (3, 2) ⟨9000, fun _ => 5⟩, .deleteRow (3, 2), .flushBlocks]

/-- A row in two pieces reads as it was written. -/
theorem chained_row_reads_written : ((Call.writeRow ⟨9000, fun _ => 7⟩).run start.file).1 = .ok (some (2, 1)) ∧
    Reads (others.foldl perform (start.perform (.writeRow ⟨9000, fun _ => 7⟩))).file (2, 1) (List.replicate 9000 7) := by
  obtain ⟨id, ended, reads⟩ := Reached.reads_written start_reached (.inl rfl)
    (step_perform (.writeRow ⟨9000, fun _ => 7⟩) (by simp [Call.target]) (by decide) (by decide +kernel))
  have number : ((Call.writeRow ⟨9000, fun _ => 7⟩).run start.file).1 = .ok (some (2, 1)) := by decide +kernel
  obtain rfl : id = (2, 1) := Option.some.inj (Except.ok.inj (ended.symm.trans number))
  have kept := reads others _ (steps_of_fits (by decide +kernel)) (by decide)
  refine ⟨number, ?_⟩
  rwa [Buf.toList, Mem.slice_const] at kept

/-- A modified row reads as the new bytes, with zeros after them where the record kept its length. -/
theorem Reached.reads_padded {id : Int × Int} {file : DataFile} (reached : Reached history)
    (handed : id ∈ history.handed) (live : id ∉ history.deleted) (small : row.len < 2 ^ 31)
    (modified : modifyRow id.1 id.2 row history.file = (.ok (), file)) :
    Reads file id (row.toList ++
      List.replicate (history.file.leftover stepBound (RecordId.ofNumber id) row.len) 0) := by
  obtain ⟨rows, sound⟩ := reached.sound
  obtain ⟨place, rfl, there⟩ := sound.handed id handed
  obtain ⟨stored, found⟩ := Option.ne_none_iff_exists'.mp there
  cases stored with
  | none => exact absurd (sound.deleted place found) live
  | some content =>
    obtain ⟨_, storing, _⟩ := (modifyRow_storing sound.storing found row small).ok modified
    rw [RecordId.ofNumber_number]
    exact reads_of_storing storing Rows.put_same

/-- A row that was modified reads back as the new bytes exactly when the
modification replaced it as a whole. -/
theorem Reached.reads_modified {id : Int × Int} {file : DataFile} (reached : Reached history)
    (handed : id ∈ history.handed) (live : id ∉ history.deleted) (small : row.len < 2 ^ 31)
    (modified : modifyRow id.1 id.2 row history.file = (.ok (), file)) :
    Reads file id row.toList ↔ history.file.Replaces (RecordId.ofNumber id) row.len := by
  have reads := reached.reads_padded handed live small modified
  rw [← File.leftover_eq_zero]
  constructor
  · intro whole
    have lengths := congrArg List.length (whole.unique reads)
    simp only [List.length_append, List.length_replicate] at lengths
    omega
  · intro none
    rwa [none, List.replicate_zero, List.append_nil] at reads

theorem three_reached : Reached (start.perform (.writeRow (Buf.ofList [1, 2, 3]))) :=
  start_reached.step (step_perform (.writeRow (Buf.ofList [1, 2, 3])) (by simp [Call.target]) (by decide)
    (by decide +kernel))

theorem three_reads_modified :
    Reads (modifyRow 2 1 (Buf.ofList [4, 5, 6, 7]) (start.perform (.writeRow (Buf.ofList [1, 2, 3]))).file).2
      (2, 1) [4, 5, 6, 7] := by
  have returned : (modifyRow 2 1 (Buf.ofList [4, 5, 6, 7])
    (start.perform (.writeRow (Buf.ofList [1, 2, 3]))).file).1 = .ok () := by decide +kernel
  have whole := Reached.reads_modified three_reached (show (2, 1) ∈ _ by decide +kernel)
    (by decide +kernel) (by decide) (run_of_fst returned)
  simpa using whole.mpr (by decide +kernel)

/-- Three bytes modified to one byte read back as three, two of them zero. -/
theorem shorter_row_keeps_length : ∃ history file, Reached history ∧ (2, 1) ∈ history.handed ∧
    (2, 1) ∉ history.deleted ∧ modifyRow 2 1 (Buf.ofList [9]) history.file = (.ok (), file) ∧
      Reads file (2, 1) [9, 0, 0] := by
  have returned : (modifyRow 2 1 (Buf.ofList [9])
    (start.perform (.writeRow (Buf.ofList [1, 2, 3]))).file).1 = .ok () := by decide +kernel
  have modified := run_of_fst returned
  have handed : (2, 1) ∈ (start.perform (.writeRow (Buf.ofList [1, 2, 3]))).handed := by decide +kernel
  have live : (2, 1) ∉ (start.perform (.writeRow (Buf.ofList [1, 2, 3]))).deleted := by decide
  have padded := three_reached.reads_padded handed live (by decide) modified
  have zeros : (start.perform (.writeRow (Buf.ofList [1, 2, 3]))).file.leftover stepBound
      (RecordId.ofNumber (2, 1)) (Buf.ofList [9]).len = 2 := by decide +kernel
  rw [zeros] at padded
  exact ⟨_, _, three_reached, handed, live, modified, by simpa using padded⟩

end History

end Pingkv
