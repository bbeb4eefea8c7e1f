import Pingkv.DataFile.Ends
import Pingkv.DataFile.Unmapped
import Pingkv.Lib.Transition

/-! Runs of the public methods in which each call gets the blocks it moves on to,
whether or not the operating system lets it extend the file further. -/

namespace Pingkv

namespace Call

open DataFile

/-- How often a call moves on to a next block. -/
def moves : Call → DataFile → Nat
  | writeRow row, file => file.moves row.len
  | writeRowNewBlock row, _ => furtherBlocks row.len 8152 + 1
  | modifyRow id row, file =>
    if rowDeleted (file.record (.ofNumber id)).flags = 1 ∨ file.InPlace stepBound (.ofNumber id) row.len then 0
    else file.moves row.len
  | _, _ => 0

/-- Each of these blocks is there once it is moved on to. -/
def Granted : Call → DataFile → Prop
  | writeRow row, file => file.Granted row.len
  | writeRowNewBlock row, file => file.supply.Grants (furtherBlocks row.len 8152 + 1)
  | modifyRow id row, file =>
    rowDeleted (file.record (.ofNumber id)).flags = 1 ∨ file.InPlace stepBound (.ofNumber id) row.len ∨ file.Granted row.len
  | _, _ => True

instance (call : Call) (file : DataFile) : Decidable (call.Granted file) :=
  match call with
  | writeRow _ => inferInstanceAs (Decidable (DataFile.Granted _ _))
  | writeRowNewBlock _ => inferInstanceAs (Decidable (Supply.Grants _ _))
  | modifyRow _ _ => inferInstanceAs (Decidable (_ ∨ _ ∨ DataFile.Granted _ _))
  | deleteRow _ | readRow _ | flushBlocks => isTrue trivial

/-- The calls that change records. -/
def Edits : Call → Prop
  | readRow _ | flushBlocks => False
  | _ => True

instance (call : Call) : Decidable call.Edits :=
  match call with
  | readRow _ | flushBlocks => isFalse id
  | writeRow _ | writeRowNewBlock _ | modifyRow _ _ | deleteRow _ => isTrue trivial

/-- A call that changes records, about a row that was handed out and with a row of `int` length, that moves on to
blocks among the first `2 ^ 31` bytes only. -/
def Plain (call : Call) (history : History) : Prop :=
  (∀ id ∈ call.target, id ∈ history.handed) ∧ call.rowLen < 2 ^ 31 ∧ call.Edits ∧
    history.file.info.usedBlockCount + call.moves history.file ≤ 262144

instance (call : Call) (history : History) : Decidable (call.Plain history) := inferInstanceAs (Decidable (_ ∧ _ ∧ _ ∧ _))

/-- Such a call that gets all the blocks it moves on to. -/
def Allowed (call : Call) (history : History) : Prop := call.Plain history ∧ call.Granted history.file

instance (call : Call) (history : History) : Decidable (call.Allowed history) := inferInstanceAs (Decidable (_ ∧ _))

end Call

namespace History

open Exec DataFile Transition

variable {before after history : History} {call : Call} {calls : List Call} {rows : Rows} {file : DataFile}

/-- The history behind a call, if it comes back. -/
def turn (call : Call) (history : History) : Option History :=
  (returned call.run history.file).map fun _ => history.perform call

/-- The history over the mended object. -/
def mend (history : History) : History := { history with file := history.file.mend }

/-- What calls keep where `mmap` is never refused. -/
structure Holding (history : History) (rows : Rows) : Prop where
  fit : history.file.Fit
  clean : history.file.Clean
  maps : ∀ n, history.file.ServesMaps n
  forward : history.file.toFile.Forward
  sound : history.mend.Sound rows

section Step

variable {last : DataFile} {gone : List (Int × Int)}

/-- A call took some blocks and put one row. -/
private theorem Holding.put {more blocks : Nat} {id : RecordId} {row : Option (List UInt8)} {new : List (Int × Int)}
    (holding : before.Holding rows) (took : Took before.file last more blocks)
    (storing : last.mend.Storing (rows.put id row)) (own : ∀ number ∈ new, number = id.number)
    (marked : row = none → id.number ∈ gone) :
    Holding ⟨last, new ++ before.handed, gone ++ before.deleted⟩ (rows.put id row) := by
  have sound : (mend ⟨last, new ++ before.handed, gone ++ before.deleted⟩).Sound (rows.put id row) :=
    holding.sound.put storing rfl rfl own marked
  exact ⟨took.fit, took.smooth.clean holding.clean, fun n => took.smooth.served n (holding.maps _),
    took.forward holding.forward, sound⟩

/-- What a call that changes records leaves, where it does not crash. -/
def Left (before : History) (call : Call) (outcome : Except Stop (Option (Int × Int))) (last : DataFile) : Prop :=
  ∃ rows, Holding ⟨last, Call.written outcome ++ before.handed, call.deletes ++ before.deleted⟩ rows

private theorem Holding.placed {more blocks : Nat} {id : RecordId} {row : Buf} {path : List RecordId}
    (holding : before.Holding rows) (took : Took before.file last more blocks)
    (placed : Placed before.file.mend last.mend id row.toList path) :
    before.Left call (.ok (some id.number)) last := by
  refine ⟨rows.put id (some row.toList), holding.put took (placed.handed holding.sound.storing).storing ?_ (by simp)⟩
  exact List.forall_mem_singleton.mpr rfl

/-- A call left the rows as they are. -/
private theorem Holding.same {more blocks : Nat} (holding : before.Holding rows) (took : Took before.file last more blocks)
    (file : last.toFile = before.file.toFile) : Holding ⟨last, before.handed, gone ++ before.deleted⟩ rows := by
  have stores : last.toFile.Stores rows := file ▸ holding.sound.storing.stores
  have sound : (mend ⟨last, before.handed, gone ++ before.deleted⟩).Sound rows :=
    holding.sound.same ⟨took.fit.mend_ready, stores⟩ rfl rfl
  exact ⟨took.fit, took.smooth.clean holding.clean, fun n => took.smooth.served n (holding.maps _),
    took.forward holding.forward, sound⟩

/-- Blocks up to this one can be mapped. -/
private theorem Holding.mapped (holding : before.Holding rows) {blockId : Int} (lower : 1 ≤ blockId) (upper : blockId ≤ 262144) :
    before.file.Maps blockId 0 := by
  refine .inr ⟨holding.maps 1 0 (by omega), ?_⟩
  rw [mapOffset_eq lower upper]
  omega

/-- A call keeps all this where it gets the blocks it moves on to. It returns -1 then only for a deleted row, and
crashes only where it does not get them. -/
theorem Holding.step (holding : before.Holding rows) (plain : call.Plain before) :
    wp call.run (fun result => before.Left call (.ok result)) (fun reason last =>
      reason = .failed ∧ call.Granted before.file ∧ before.Left call (.error reason) last ∨
        reason = .fault ∧ ¬ call.Granted before.file) before.file := by
  obtain ⟨aimed, small, edits, low⟩ := plain
  have fit := holding.fit
  have storing := holding.sound.storing
  cases call with
  | writeRow row =>
    refine wp_bind ((writeRow_fit fit row small).mono (fun _ _ wrote => wrote) ?_) ?_
    · rintro reason last (⟨rfl, _, short⟩ | ⟨rfl, unmapped | short⟩)
      · exact absurd ⟨holding.maps _, low⟩ short
      · have maps : before.file.MapsRow row.len := ⟨holding.maps _, low⟩
        exact absurd (maps.first fit) unmapped
      · exact .inr ⟨rfl, short⟩
    · rintro _ last ⟨_, id, path, rfl, placed, took⟩
      exact wp_pure (holding.placed took placed)
  | writeRowNewBlock row =>
    have lower := fit.formed.used_lower
    simp only [Call.moves] at low
    refine wp_bind ((writeRowNewBlock_fit fit row small).mono (fun _ _ wrote => wrote) ?_) ?_
    · rintro reason last (⟨rfl, _, short⟩ | ⟨rfl, unmapped | short⟩)
      · exact absurd ⟨holding.maps _, low⟩ short
      · exact absurd (holding.mapped (by omega) (by omega)) unmapped
      · exact .inr ⟨rfl, short⟩
    · rintro _ last ⟨_, id, path, rfl, first, placed, took⟩
      have number : (id.blockId, (1 : Int)) = id.number := by simp [RecordId.number, RecordId.rowIdx, first]
      rw [number]
      exact wp_pure (holding.placed took placed)
  | modifyRow number row =>
    obtain ⟨id, stored, rfl, found⟩ := holding.sound.find number (aimed number rfl)
    obtain ⟨paths, layout⟩ := storing.stores
    simp only [Call.moves, Call.Granted, RecordId.ofNumber_number] at low ⊢
    cases stored with
    | none =>
      obtain ⟨has, deleted, _⟩ := layout.row id none found
      have mapped := has.mapped fit.formed
      refine wp_bind ((modifyRow_fit_deleted fit has deleted row).mono (fun _ _ never => never) ?_) fun _ _ => False.elim
      rintro reason last ⟨rfl, followed | unmapped⟩
      · exact .inl ⟨rfl, .inl deleted, rows, holding.same followed.took followed.file⟩
      · refine absurd (holding.mapped ?_ ?_) unmapped <;> simp only [RecordId.blockId] <;> omega
    | some content =>
      have held : before.file.toFile.Holds id content (paths id) := layout.row id (some content) found
      have live : rowDeleted (before.file.record id).flags ≠ 1 := held.live
      refine wp_bind ((innerModifyRow_fit held stepBound row rfl fit small
        (Nat.le_trans (Nat.sub_le _ _) (by decide : 2 ^ 28 ≤ stepBound))).mono (fun _ _ wrote => wrote) ?_) ?_
      · rintro reason last (⟨rfl, unmapped, _⟩ | ⟨_, moved, halted⟩)
        · exact absurd (holding.maps _) unmapped
        · rw [if_neg (not_or.mpr ⟨live, moved⟩)] at low
          rcases halted with ⟨_, short⟩ | ⟨rfl, short⟩
          · exact absurd ⟨holding.maps _, low⟩ short
          · exact .inr ⟨rfl, fun granted => short ((granted.resolve_left live).resolve_left moved)⟩
      · rintro _ last ⟨⟨path', modified⟩, _, _, _, took⟩
        have storing' := modified.storing layout (by rw [found]; simp)
        exact wp_pure ⟨_, holding.put took storing' (by simp [Call.written]) (by simp)⟩
  | deleteRow number =>
    obtain ⟨id, stored, rfl, found⟩ := holding.sound.find number (aimed number rfl)
    have handed : rows id ≠ none := by rw [found]; simp
    have has := storing.has handed
    have mapped := has.mapped fit.formed
    refine wp_bind ((deleteRow_fit fit has).mono (fun _ _ marked => marked) ?_) ?_
    · rintro reason last ⟨_, unmapped⟩
      refine absurd (holding.mapped ?_ ?_) unmapped <;> simp only [RecordId.blockId] <;> omega
    · rintro _ last ⟨edited, deleted, took⟩
      have storing' := edited.storing storing handed deleted
      exact wp_pure ⟨_, holding.put took storing' (by simp [Call.written]) (by simp [Call.deletes])⟩
  | readRow | flushBlocks => exact edits.elim

end Step

/-- What is wanted of a call whatever `_extend_file` is refused: the counters stay in order, no block is touched that
the file has not got, and a call that does not get the blocks it needs returns -1. -/
def Sturdy (history : History) (call : Call) : Prop :=
  (history.perform call).file.info.usedBlockCount ≤ (history.perform call).file.info.blockCount ∧
    (call.run history.file).1 ≠ .error .fault ∧
      (¬ call.Granted history.file → (call.run history.file).1 = .error .failed)

/-- A call that gets its blocks keeps all there was. -/
theorem Holding.kept (holding : before.Holding rows) (allowed : call.Allowed before) :
    ∃ rows', (before.perform call).Holding rows' := by
  rcases (holding.step allowed.1).cases with ⟨result, last, ran, left⟩ | ⟨reason, last, ran, ⟨_, _, left⟩ | ⟨_, short⟩⟩
  · rw [perform, ran]
    exact left
  · rw [perform, ran]
    exact left
  · exact absurd allowed.2 short

theorem Holding.sturdy_iff (holding : before.Holding rows) (plain : call.Plain before) :
    before.Sturdy call ↔ call.Granted before.file := by
  constructor
  · rintro ⟨_, whole, refused⟩
    by_contra short
    have ended := refused short
    rcases (holding.step plain).cases with ⟨_, _, ran, _⟩ | ⟨_, _, ran, ⟨_, granted, _⟩ | ⟨rfl, _⟩⟩
    · rw [ran] at ended
      cases ended
    · exact short granted
    · exact whole (congrArg Prod.fst ran)
  · intro granted
    obtain ⟨_, after⟩ := holding.kept ⟨plain, granted⟩
    refine ⟨after.fit.formed.used_upper, fun crashed => ?_, fun short => absurd granted short⟩
    rcases (holding.step plain).cases with ⟨_, _, ran, _⟩ | ⟨_, _, ran, ⟨rfl, _⟩ | ⟨_, short⟩⟩
    · rw [ran] at crashed
      cases crashed
    · rw [ran] at crashed
      cases crashed
    · exact short granted

/-- The object over an operating system that answers the coming calls in another way. -/
def withOs (history : History) (os : OsCall → Nat → Bool) : History := { history with file := history.file.withOs os }

theorem Reached.holding (reached : Reached history) {os : OsCall → Nat → Bool} (maps : ∀ n, os .mmap n = true) :
    ∃ rows, (history.withOs os).Holding rows := by
  obtain ⟨rows, sound⟩ := reached.sound
  have ready := sound.storing.ready
  have mended : (history.withOs os).mend.Sound rows :=
    sound.same ⟨ready.fit.mend_ready, sound.storing.stores⟩ rfl (List.nil_append _).symm
  exact ⟨rows, ready.withOs os, ready.clean, fun _ n _ => maps n, reached.forward, mended⟩

theorem turn_eq {after : History} (turned : turn call before = some after) : after = before.perform call := by
  obtain ⟨_, _, rfl⟩ := Option.map_eq_some_iff.mp turned
  rfl

/-- Where every call gets the blocks it moves on to, every call is sturdy, and a next call is exactly if it gets
its blocks, too. -/
theorem Reached.sturdy_while_granted (reached : Reached history) {os : OsCall → Nat → Bool} (maps : ∀ n, os .mmap n = true)
    {calls : List Call} (allowed : Throughout turn Call.Allowed calls (history.withOs os)) :
    Throughout turn (fun call before => before.Sturdy call) calls (history.withOs os) ∧
      ∀ final call, Transition.run turn calls (history.withOs os) = some final → call.Plain final →
        (final.Sturdy call ↔ call.Granted final.file) := by
  have kept (call : Call) (before after : History) (holds : ∃ rows, before.Holding rows) (allowed : call.Allowed before)
      (turned : turn call before = some after) : ∃ rows, after.Holding rows := by
    obtain ⟨_, holding⟩ := holds
    rw [turn_eq turned]
    exact holding.kept allowed
  refine ⟨Transition.throughout_of_inv kept ?_ (reached.holding maps) allowed, ?_⟩
  · rintro call before ⟨_, holding⟩ allowed
    exact (holding.sturdy_iff allowed.1).mpr allowed.2
  · intro final call ran plain
    obtain ⟨_, holding⟩ := Transition.run_throughout kept (reached.holding maps) allowed ran
    exact holding.sturdy_iff plain

/-- An operating system on which `_extend_file` never gets to the end of the file. -/
def refusing (call : OsCall) (_ : Nat) : Bool := call ≠ .lseek

/-- Rows that fit into the 128 blocks that are there. -/
theorem small_rows_sturdy : Throughout turn (fun call before => before.Sturdy call)
    [.writeRow (Buf.ofList [1, 2, 3]), .writeRowNewBlock (Buf.ofList [4]), .modifyRow (2, 1) ⟨9000, fun _ => 7⟩]
      (start.withOs refusing) :=
  (Reached.sturdy_while_granted start_reached (fun _ => rfl) (by decide +kernel)).1

/-- A row of one byte more than these blocks can hold: `_find_block_can_write` takes a block behind the last one. -/
theorem block_not_there :
    (∀ call n, call ≠ .lseek → refusing call n = true) ∧ (Call.writeRow ⟨1043457, fun _ => 7⟩).Plain (start.withOs refusing) ∧
    (((Call.writeRow ⟨1043457, fun _ => 7⟩).run (start.withOs refusing).file).1 = .error .fault ∧
      ((start.withOs refusing).perform (.writeRow ⟨1043457, fun _ => 7⟩)).file.info.usedBlockCount = 130 ∧
      ((start.withOs refusing).perform (.writeRow ⟨1043457, fun _ => 7⟩)).file.info.blockCount = 129) ∧
    ¬ (start.withOs refusing).Sturdy (.writeRow ⟨1043457, fun _ => 7⟩) := by
  have crashed : ((Call.writeRow ⟨1043457, fun _ => 7⟩).run (start.withOs refusing).file).1 = .error .fault ∧
      ((start.withOs refusing).perform (.writeRow ⟨1043457, fun _ => 7⟩)).file.info.usedBlockCount = 130 ∧
      ((start.withOs refusing).perform (.writeRow ⟨1043457, fun _ => 7⟩)).file.info.blockCount = 129 := by decide +kernel
  exact ⟨fun call _ other => decide_eq_true other, by decide +kernel, crashed, fun sturdy => sturdy.2.1 crashed.1⟩

end History

end Pingkv
