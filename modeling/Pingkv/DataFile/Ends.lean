import Pingkv.DataFile.FitModify
import Pingkv.DataFile.History

/-! Walks over the links between records. In every file that calls lead to, links
lead to later records, so the walks of `_read_row` and `_modify_row` end, and the
pieces of a chained row are as long together as the row. -/

namespace Pingkv

open Exec

namespace File

variable {file : File} {id : RecordId} {content : List UInt8} {path : List RecordId}

/-- The loop of `_read_row` goes on to the next piece of a chained row until nothing is left to read. -/
inductive Consumes (file : File) : RecordId → Int → Prop where
  | last {id : RecordId} {remain : Int} (has : file.Has id)
      (whole : DataFile.rowGetLenInBlock (file.block id.page) id.rowIdx () = (.ok remain, ())) : Consumes file id remain
  | more {id next : RecordId} {remain readLen : Int} (has : file.Has id)
      (piece : DataFile.rowGetLenInBlock (file.block id.page) id.rowIdx () = (.ok readLen, ())) (left : remain - readLen > 0)
      (nextBlock : (file.record id).nextBlockId = next.blockId) (nextRow : (file.record id).nextRowIdx = next.rowIdx)
      (rest : Consumes file next (remain - readLen)) : Consumes file id remain

/-- Reading the row of a handed out id ends with a record whose pieces make up its length. -/
def ReadsWhole (file : File) (id : RecordId) : Prop :=
  rowDeleted (file.record id).flags ≠ 1 →
    let last := file.settled stepBound id
    rowMigrated (file.record last).flags ≠ 1 ∧ (rowChained (file.record last).flags = 1 → file.Consumes last (file.record last).len)

/-- A chained row that is neither deleted nor migrated. -/
theorem ReadsWhole.consumes {record : RecordIndex} (reads : file.ReadsWhole id) (found : file.record id = record)
    (live : rowDeleted record.flags ≠ 1) (settled : rowMigrated record.flags ≠ 1) (chained : rowChained record.flags = 1) :
    file.Consumes id record.len := by
  subst found
  have whole := (reads live).2
  rw [settled_here settled] at whole
  exact whole chained

end File

namespace DataFile

variable {file : DataFile} {id : RecordId} {content : List UInt8} {path : List RecordId}

theorem consumes_chain (ready : file.Ready) (chain : file.toFile.Chain id content path) :
    file.toFile.Consumes id content.length := by
  induction chain with
  | @last id content has length fits bytes =>
    have piece := rowGetLenInBlock_run () ready has
    rw [length, min_eq_left (by exact_mod_cast fits)] at piece
    exact .last has piece
  | @more id next content path has length positive split bytes nextBlock nextRow rest ih =>
    have piece := rowGetLenInBlock_run () ready has
    rw [length, min_eq_right (by omega)] at piece
    have left : ((content.drop (file.room id)).length : Int) = content.length - file.room id := by
      simp only [List.length_drop]
      omega
    rw [left] at ih
    exact .more has piece (by omega) nextBlock nextRow ih

/-- The migration links of a row end at the record that it is kept in. -/
theorem holds_settled {disk : File} (holds : disk.Holds id content path) : ∀ {file : DataFile} (steps : Nat),
    file.toFile = disk → file.Ready → 2 ^ 28 - id.rank ≤ steps →
      rowMigrated (disk.record (disk.settled steps id)).flags ≠ 1 ∧
        (rowChained (disk.record (disk.settled steps id)).flags = 1 →
          disk.Consumes (disk.settled steps id) (disk.record (disk.settled steps id)).len) := by
  induction holds with
  | @moved id next content path has live migrated nextBlock nextRow later outside rest ih =>
    rintro file (_ | steps) rfl ready enough
    · have bound := has.rank_lt ready.formed
      omega
    · rw [File.settled_link next migrated nextBlock nextRow]
      exact ih steps rfl ready (by omega)
  | @chained id content path live settled chained chain =>
    rintro file steps rfl ready _
    rw [File.settled_here settled]
    refine ⟨settled, fun _ => ?_⟩
    rw [chain.length]
    exact consumes_chain ready chain
  | @whole id content live settled whole chain =>
    rintro file steps rfl _ _
    rw [File.settled_here settled]
    exact ⟨settled, fun chained => absurd chained whole⟩

end DataFile

namespace History

open DataFile

variable {before after history : History} {call : Call} {calls : List Call} {rows : Rows}
  {outcome : Except Stop (Option (Int × Int))}

/-- A call links records to later ones only. -/
theorem Step.forward (sound : before.Sound rows) (step : Step before call outcome after)
    (forward : before.file.toFile.Forward) : after.file.toFile.Forward := by
  have fit := sound.storing.ready.fit
  have ran := step.run
  cases call with
  | writeRow row =>
    obtain ⟨_, rfl, _⟩ := step.written sound (.inl rfl)
    have wrote : wp (Call.run (.writeRow row)) (fun _ last => last.toFile.Forward) (fun _ _ => True) before.file := by
      refine wp_bind ((writeRow_fit fit row step.small).mono (fun _ _ wrote => wrote) fun _ _ _ => trivial) ?_
      rintro _ last ⟨_, _, _, _, _, took⟩
      exact wp_pure (took.forward forward)
    exact wrote.ok ran
  | writeRowNewBlock row =>
    obtain ⟨_, rfl, _⟩ := step.written sound (.inr rfl)
    have wrote : wp (Call.run (.writeRowNewBlock row)) (fun _ last => last.toFile.Forward) (fun _ _ => True) before.file := by
      refine wp_bind ((writeRowNewBlock_fit fit row step.small).mono (fun _ _ wrote => wrote) fun _ _ _ => trivial) ?_
      rintro _ last ⟨_, _, _, _, _, _, took⟩
      exact wp_pure (took.forward forward)
    exact wrote.ok ran
  | modifyRow number row =>
    obtain ⟨id, stored, rfl, found⟩ := sound.find number (step.aimed number rfl)
    cases stored with
    | none =>
      obtain ⟨file, refused, quiet⟩ := modifyRow_gone sound.storing found row
      obtain ⟨_, rfl⟩ := Prod.mk.inj (ran.symm.trans (bind_error refused))
      exact quiet.file ▸ forward
    | some content =>
      obtain ⟨path, held⟩ := sound.storing.holds found
      have linked := innerModifyRow_fit held stepBound row rfl fit step.small
        (Nat.le_trans (Nat.sub_le _ _) (by decide : 2 ^ 28 ≤ stepBound))
      have wrote : wp (Call.run (.modifyRow id.number row)) (fun _ last => last.toFile.Forward) (fun _ _ => True) before.file := by
        refine wp_bind (linked.mono (fun _ _ wrote => wrote) fun _ _ _ => trivial) ?_
        rintro _ last ⟨_, _, _, _, took⟩
        exact wp_pure (took.forward forward)
      have stored : wp (Call.run (.modifyRow id.number row)) (fun _ _ => True) Overflowed before.file :=
        wp_bind (modifyRow_storing sound.storing found row step.small) fun _ _ _ => wp_pure trivial
      cases outcome with
      | ok result => exact wrote.ok ran
      | error reason => exact absurd (stored.error ran).2 step.bounded
  | deleteRow number =>
    obtain ⟨id, stored, rfl, found⟩ := sound.find number (step.aimed number rfl)
    have handed : rows id ≠ none := by rw [found]; simp
    obtain ⟨file, marked, _⟩ := deleteRow_storing sound.storing handed
    obtain ⟨_, rfl⟩ := Prod.mk.inj (ran.symm.trans (bind_ok marked))
    exact ((deleteRow_fit fit (sound.storing.has handed)).ok marked).2.2.forward forward
  | readRow number =>
    obtain ⟨id, stored, rfl, found⟩ := sound.find number (step.aimed number rfl)
    obtain ⟨_, file, read, quiet⟩ := readRow_quiet sound.storing found
    obtain ⟨_, rfl⟩ := Prod.mk.inj (ran.symm.trans (bind_ok read))
    exact quiet.file ▸ forward
  | flushBlocks =>
    obtain ⟨_, file, flushed, quiet, rfl | ⟨rfl, _⟩⟩ := flushBlocks_ready sound.storing.ready
    · obtain ⟨_, rfl⟩ := Prod.mk.inj (ran.symm.trans (bind_ok flushed))
      exact quiet.file ▸ forward
    · obtain ⟨_, rfl⟩ := Prod.mk.inj (ran.symm.trans (bind_error flushed))
      exact quiet.file ▸ forward

theorem Created.forward (created : Created history) : history.file.toFile.Forward := by
  have formed := created.sound.storing.ready.formed
  obtain ⟨os, junk, dbName, fileId, pid, serves, ran, _, _⟩ := created
  obtain ⟨file, ran', _, _, used, _, empty⟩ := createFile_run os (fun call n _ => serves call n) junk dbName fileId pid
  obtain rfl : file = history.file := congrArg Prod.snd (ran'.symm.trans ran)
  refine File.forward_of_empty fun page positive within => ?_
  by_cases first : page = 1
  · rw [first]
    exact empty
  · exact formed.unused page (by omega) within

theorem Steps.forward (steps : Steps before calls after) : ∀ {rows : Rows}, before.Sound rows →
    before.file.toFile.Forward → after.file.toFile.Forward := by
  induction steps with
  | done => exact fun _ forward => forward
  | next step rest ih =>
    intro rows sound forward
    obtain ⟨_, kept⟩ := step.kept sound
    exact ih kept.sound (step.forward sound forward)

/-- Links lead to later records in every file that calls lead to. -/
theorem Reached.forward (reached : history.Reached) : history.file.toFile.Forward := by
  obtain ⟨start, calls, created, steps⟩ := reached
  exact steps.forward created.sound created.forward

/-- In every file that calls lead to, the stored links lead to later records, reading and modifying a row that was
handed out ends, and the pieces of a chained row make up its length. -/
theorem Reached.links_end (reached : history.Reached) : history.file.toFile.Forward ∧ ∀ number ∈ history.handed,
    (∃ row after, readRow number.1 number.2 history.file = (.ok row, after)) ∧
    (∀ row : Buf, row.len < 2 ^ 31 → (modifyRow number.1 number.2 row history.file).1 = .ok () ∨
      (modifyRow number.1 number.2 row history.file).1 = .error .failed) ∧
    history.file.toFile.ReadsWhole (RecordId.ofNumber number) := by
  refine ⟨reached.forward, fun number member => ?_⟩
  obtain ⟨rows, sound⟩ := reached.sound
  obtain ⟨id, stored, rfl, found⟩ := sound.find number member
  obtain ⟨row, after, read, _⟩ := readRow_quiet sound.storing found
  refine ⟨⟨row, after, read⟩, fun row small => ?_, ?_⟩
  · cases stored with
    | none =>
      obtain ⟨_, refused, _⟩ := modifyRow_gone sound.storing found row
      exact .inr (congrArg Prod.fst refused)
    | some content =>
      rcases (modifyRow_storing sound.storing found row small).cases with ⟨_, _, ran, _⟩ | ⟨_, _, ran, rfl, _⟩
      · exact .inl (congrArg Prod.fst ran)
      · exact .inr (congrArg Prod.fst ran)
  · rw [RecordId.ofNumber_number]
    intro live
    cases stored with
    | none => exact absurd (sound.storing.deleted found).2 live
    | some content =>
      obtain ⟨path, held⟩ := sound.storing.holds found
      exact holds_settled held stepBound rfl sound.storing.ready
        (Nat.le_trans (Nat.sub_le _ _) (by decide : 2 ^ 28 ≤ stepBound))

theorem long_reached : Reached (start.perform (.writeRow ⟨9000, fun _ => 7⟩)) :=
  start_reached.step (step_perform (.writeRow ⟨9000, fun _ => 7⟩) (by simp [Call.target]) (by decide) (by decide +kernel))

/-- A row of 9000 bytes lies in two pieces, the second one in the next block. -/
theorem long_links_end : (start.perform (.writeRow ⟨9000, fun _ => 7⟩)).file.toFile.Forward ∧
    (start.perform (.writeRow ⟨9000, fun _ => 7⟩)).file.record ⟨1, 0⟩ = ⟨2, 16, 9000, 3, 1⟩ ∧
    (start.perform (.writeRow ⟨9000, fun _ => 7⟩)).file.toFile.Consumes ⟨1, 0⟩ 9000 := by
  obtain ⟨forward, ends⟩ := Reached.links_end long_reached
  have record : (start.perform (.writeRow ⟨9000, fun _ => 7⟩)).file.record ⟨1, 0⟩ = ⟨2, 16, 9000, 3, 1⟩ := by decide +kernel
  have handed : (2, 1) ∈ (start.perform (.writeRow ⟨9000, fun _ => 7⟩)).handed := by decide +kernel
  exact ⟨forward, record, (ends (2, 1) handed).2.2.consumes record (by decide) (by decide) (by decide)⟩

end History

end Pingkv
