import Pingkv.DataFile.Store

/-! Runs of the public methods of a data file, from the creation of the file on. -/

namespace Pingkv

/-- The block id and the row index that name a record. -/
def RecordId.number (id : RecordId) : Int × Int := (id.blockId, id.rowIdx)

def RecordId.ofNumber (number : Int × Int) : RecordId := ⟨(number.1 - 1).toNat, (number.2 - 1).toNat⟩

@[simp] theorem RecordId.ofNumber_number (id : RecordId) : RecordId.ofNumber id.number = id := by
  simp [ofNumber, number, blockId, rowIdx]

/-- The methods a client calls on an open data file; rows have `int` lengths. -/
inductive Call where
  | writeRow (row : Buf)
  | writeRowNewBlock (row : Buf)
  | modifyRow (id : Int × Int) (row : Buf)
  | deleteRow (id : Int × Int)
  | readRow (id : Int × Int)
  | flushBlocks

namespace Call

open Exec

/-- What a call does, and the row id it returns when it writes a row. -/
def run [HeadPointers] : Call → Exec DataFile (Option (Int × Int))
  | writeRow row => do return some (← DataFile.writeRow row)
  | writeRowNewBlock row => do return some (← DataFile.writeRowNewBlock row, 1)
  | modifyRow id row => do DataFile.modifyRow id.1 id.2 row; return none
  | deleteRow id => do DataFile.deleteRow id.1 id.2; return none
  | readRow id => do let _ ← DataFile.readRow id.1 id.2; return none
  | flushBlocks => do DataFile.flushBlocks; return none

/-- The row a call is about. -/
def target : Call → Option (Int × Int)
  | modifyRow id _ | deleteRow id | readRow id => some id
  | _ => none

/-- The row a call changes. -/
def changes : Call → Option (Int × Int)
  | modifyRow id _ | deleteRow id => some id
  | _ => none

/-- The row id a call returned. -/
def written : Except Stop (Option (Int × Int)) → List (Int × Int)
  | .ok (some id) => [id]
  | _ => []

/-- The row a call deletes. -/
def deletes : Call → List (Int × Int)
  | deleteRow id => [id]
  | _ => []

/-- The length of the row a call hands over. -/
def rowLen : Call → Nat
  | writeRow row | writeRowNewBlock row | modifyRow _ row => row.len
  | _ => 0

end Call

/-- A data file with the row ids its writers returned and those `delete_row` was called on. -/
structure History where
  file : DataFile
  handed : List (Int × Int)
  deleted : List (Int × Int)

namespace History

open Exec DataFile

/-- One call, about a row that was handed out, that leaves at most `2 ^ 31` bytes. -/
structure Step (before : History) (call : Call) (outcome : Except Stop (Option (Int × Int)))
    (after : History) : Prop where
  aimed : ∀ id, call.target = some id → id ∈ before.handed
  small : call.rowLen < 2 ^ 31
  run : call.run before.file = (outcome, after.file)
  handed : after.handed = Call.written outcome ++ before.handed
  deleted : after.deleted = call.deletes ++ before.deleted
  bounded : ¬ after.file.toFile.Outgrown

/-- Any number of calls, one after another. -/
inductive Steps : History → List Call → History → Prop where
  | done (history : History) : Steps history [] history
  | next {before mid after : History} {call : Call} {calls : List Call}
      {outcome : Except Stop (Option (Int × Int))} (step : Step before call outcome mid)
      (rest : Steps mid calls after) : Steps before (call :: calls) after

/-- A data file as `create_file` leaves it, every call into the operating system succeeding. -/
def Created (history : History) : Prop := ∃ os junk dbName fileId pid,
  (∀ call n, os call n = true) ∧
    createFile dbName fileId pid (new os junk) = (.ok (), history.file) ∧
    history.handed = [] ∧ history.deleted = []

/-- The data files that calls can lead to. -/
def Reached (history : History) : Prop := ∃ start calls, Created start ∧ Steps start calls history

/-- What the lists of a history say about the rows stored in its file. -/
structure Sound (history : History) (rows : Rows) : Prop where
  storing : history.file.Storing rows
  handed : ∀ number ∈ history.handed, ∃ id : RecordId, number = id.number ∧ rows id ≠ none
  deleted : ∀ id, rows id = some none → id.number ∈ history.deleted

variable {before after history : History} {call : Call} {calls : List Call} {rows : Rows} {row : Buf}
  {outcome : Except Stop (Option (Int × Int))}

theorem Created.sound (created : Created history) : history.Sound fun _ => none := by
  obtain ⟨os, junk, dbName, fileId, pid, serves, ran, handed, deleted⟩ := created
  obtain ⟨file, ran', storing, _⟩ := createFile_run os (fun call n _ => serves call n) junk dbName fileId pid
  have same : file = history.file := congrArg Prod.snd (ran'.symm.trans ran)
  rw [same] at storing
  refine ⟨storing, ?_, ?_⟩
  · rw [handed]
    intro number member
    cases member
  · intro id found
    cases found

/-- A row handed out once is found under its id. -/
theorem Sound.find (sound : before.Sound rows) (number : Int × Int) (member : number ∈ before.handed) :
    ∃ id : RecordId, ∃ row, number = id.number ∧ rows id = some row := by
  obtain ⟨id, same, handed⟩ := sound.handed number member
  obtain ⟨row, found⟩ := Option.ne_none_iff_exists'.mp handed
  exact ⟨id, row, same, found⟩

/-- What one call does to the rows: those it does not change stay as they are. -/
structure Kept (before after : History) (call : Call) (rows rows' : Rows) : Prop where
  sound : after.Sound rows'
  same : ∀ id, rows id ≠ none → call.changes ≠ some id.number → rows' id = rows id

/-- One row was put, and the lists have grown accordingly. -/
theorem Sound.put {id : RecordId} {row : Option (List UInt8)} {new gone : List (Int × Int)} (sound : before.Sound rows)
    (storing : after.file.Storing (rows.put id row)) (handed : after.handed = new ++ before.handed)
    (deleted : after.deleted = gone ++ before.deleted) (own : ∀ number ∈ new, number = id.number)
    (marked : row = none → id.number ∈ gone) : after.Sound (rows.put id row) := by
  refine ⟨storing, ?_, ?_⟩
  · intro number member
    rw [handed] at member
    rcases List.mem_append.mp member with new | old
    · exact ⟨id, own number new, by simp⟩
    · obtain ⟨other, same, found⟩ := sound.handed number old
      by_cases equal : other = id
      · exact ⟨id, by rw [same, equal], by simp⟩
      · exact ⟨other, same, by rwa [Rows.put_ne equal]⟩
  · intro other found
    rw [deleted, List.mem_append]
    by_cases equal : other = id
    · subst equal
      rw [Rows.put_same] at found
      exact .inl (marked (Option.some.inj found))
    · rw [Rows.put_ne equal] at found
      exact .inr (sound.deleted other found)

/-- No row was put, and none handed out. -/
theorem Sound.same {gone : List (Int × Int)} (sound : before.Sound rows) (storing : after.file.Storing rows)
    (handed : after.handed = before.handed) (deleted : after.deleted = gone ++ before.deleted) : after.Sound rows := by
  refine ⟨storing, handed ▸ sound.handed, fun id found => ?_⟩
  rw [deleted]
  exact List.mem_append_right _ (sound.deleted id found)

/-- The rows after a call that put one row. -/
private theorem Step.put {id : RecordId} {row : Option (List UInt8)} (sound : before.Sound rows)
    (step : Step before call outcome after) (storing : after.file.Storing (rows.put id row))
    (handed : ∀ number ∈ Call.written outcome, number = id.number)
    (gone : row = none → id.number ∈ call.deletes) : after.Sound (rows.put id row) :=
  sound.put storing step.handed step.deleted handed gone

private theorem put_same_of_changes {id : RecordId} {row : Option (List UInt8)} :
    ∀ other, rows other ≠ none → some id.number ≠ some other.number →
      rows.put id row other = rows other :=
  fun _ _ different => Rows.put_ne fun equal => different (by rw [equal])

/-- A writer that returns hands out a new id for the bytes it was given. -/
private theorem Step.kept_write (sound : before.Sound rows) (step : Step before call outcome after)
    (holds : wp call.run (fun result file => ∃ id : RecordId, result = some id.number ∧
      Handed before.file file rows id row) Outgrew before.file) :
    ∃ id : RecordId, outcome = .ok (some id.number) ∧ rows id = none ∧
      Kept before after call rows (rows.put id (some row.toList)) := by
  rcases holds.run step.run with ⟨result, ended, id, number, handed⟩ | ⟨_, _, outgrown⟩
  · subst number
    subst ended
    refine ⟨id, rfl, handed.new, step.put sound handed.storing ?_ (by simp), ?_⟩
    · exact List.forall_mem_singleton.mpr rfl
    · intro other found _
      refine Rows.put_ne fun equal => ?_
      rw [equal] at found
      exact found handed.new
  · exact absurd outgrown step.bounded

/-- A call that returns no row id and changes no row. -/
private theorem Step.kept_quiet (sound : before.Sound rows) (step : Step before call outcome after)
    (quiet : Quiet before.file after.file) (plain : Call.written outcome = []) :
    Kept before after call rows rows := by
  have grown := step.handed
  rw [plain, List.nil_append] at grown
  exact ⟨sound.same (quiet.storing sound.storing) grown step.deleted, fun _ _ _ => rfl⟩

/-- What a writer's step returns, and what its row id stands for afterwards. -/
theorem Step.written (sound : before.Sound rows) (step : Step before call outcome after)
    (writes : call = .writeRow row ∨ call = .writeRowNewBlock row) : ∃ id : RecordId,
      outcome = .ok (some id.number) ∧ Kept before after call rows (rows.put id (some row.toList)) := by
  have small := step.small
  rcases writes with rfl | rfl
  · have holds := (writeRow_storing sound.storing row small).mono (fun _ _ wrote => wrote) fun _ _ halted => halted.1
    obtain ⟨id, ended, _, kept⟩ := step.kept_write sound (wp_bind holds (by
      rintro _ file ⟨id, rfl, handed, _⟩
      exact wp_pure ⟨id, rfl, handed⟩))
    exact ⟨id, ended, kept⟩
  · have holds := writeRowNewBlock_storing sound.storing row small
    obtain ⟨id, ended, _, kept⟩ := step.kept_write sound (wp_bind holds (by
      rintro _ file ⟨id, rfl, first, _, handed⟩
      refine wp_pure ⟨id, ?_, handed⟩
      simp [RecordId.number, RecordId.rowIdx, first]))
    exact ⟨id, ended, kept⟩

/-- One call keeps a history sound and changes at most the row it is about. -/
theorem Step.kept (sound : before.Sound rows) (step : Step before call outcome after) :
    ∃ rows', Kept before after call rows rows' := by
  have ran := step.run
  cases call with
  | writeRow row =>
    obtain ⟨id, _, kept⟩ := step.written sound (.inl rfl)
    exact ⟨_, kept⟩
  | writeRowNewBlock row =>
    obtain ⟨id, _, kept⟩ := step.written sound (.inr rfl)
    exact ⟨_, kept⟩
  | modifyRow number row =>
    obtain ⟨id, stored, rfl, found⟩ := sound.find number (step.aimed number rfl)
    cases stored with
    | none =>
      obtain ⟨file, refused, quiet⟩ := modifyRow_gone sound.storing found row
      have ended : Call.run (.modifyRow id.number row) before.file = (.error .failed, file) :=
        bind_error refused
      obtain ⟨rfl, rfl⟩ := Prod.mk.inj (ran.symm.trans ended)
      exact ⟨rows, step.kept_quiet sound quiet rfl⟩
    | some content =>
      have holds : wp (Call.run (.modifyRow id.number row)) (fun result file => result = none ∧
          ∃ content', file.Storing (rows.put id (some content'))) Overflowed before.file := by
        refine wp_bind (modifyRow_storing sound.storing found row step.small) ?_
        rintro _ file ⟨_, storing, _⟩
        exact wp_pure ⟨rfl, _, storing⟩
      rcases holds.run ran with ⟨_, rfl, rfl, content', storing⟩ | ⟨_, _, outgrown⟩
      · exact ⟨_, step.put sound storing (by simp [Call.written]) (by simp), put_same_of_changes⟩
      · exact absurd outgrown.2 step.bounded
  | deleteRow number =>
    obtain ⟨id, stored, rfl, found⟩ := sound.find number (step.aimed number rfl)
    obtain ⟨file, marked, _, storing⟩ :=
      deleteRow_storing sound.storing (show rows id ≠ none by rw [found]; simp)
    have ended : Call.run (.deleteRow id.number) before.file = (.ok none, file) := bind_ok marked
    obtain ⟨rfl, rfl⟩ := Prod.mk.inj (ran.symm.trans ended)
    exact ⟨_, step.put sound storing (by simp [Call.written]) (by simp [Call.deletes]), put_same_of_changes⟩
  | readRow number =>
    obtain ⟨id, stored, rfl, found⟩ := sound.find number (step.aimed number rfl)
    obtain ⟨buf, file, read, quiet⟩ := readRow_quiet sound.storing found
    have ended : Call.run (.readRow id.number) before.file = (.ok none, file) := bind_ok read
    obtain ⟨rfl, rfl⟩ := Prod.mk.inj (ran.symm.trans ended)
    exact ⟨rows, step.kept_quiet sound quiet rfl⟩
  | flushBlocks =>
    obtain ⟨outcome, file, flushed, quiet, rfl | ⟨rfl, _⟩⟩ := flushBlocks_ready sound.storing.ready
    · have ended : Call.run .flushBlocks before.file = (.ok none, file) := bind_ok flushed
      obtain ⟨rfl, rfl⟩ := Prod.mk.inj (ran.symm.trans ended)
      exact ⟨rows, step.kept_quiet sound quiet rfl⟩
    · have ended : Call.run .flushBlocks before.file = (.error .failed, file) := bind_error flushed
      obtain ⟨rfl, rfl⟩ := Prod.mk.inj (ran.symm.trans ended)
      exact ⟨rows, step.kept_quiet sound quiet rfl⟩

/-- Any number of calls keep a history sound, and a row none of them changes. -/
theorem Steps.kept (steps : Steps before calls after) : ∀ {rows : Rows}, before.Sound rows →
    ∃ rows', after.Sound rows' ∧
      ∀ id, rows id ≠ none → (∀ call ∈ calls, call.changes ≠ some id.number) → rows' id = rows id := by
  induction steps with
  | done => exact fun sound => ⟨_, sound, fun _ _ _ => rfl⟩
  | next step rest ih =>
    intro rows sound
    obtain ⟨mid, kept⟩ := step.kept sound
    obtain ⟨rows', sound', same⟩ := ih kept.sound
    refine ⟨rows', sound', fun id handed spared => ?_⟩
    have first := kept.same id handed (spared _ List.mem_cons_self)
    rw [same id (by rwa [first]) fun call member => spared call (List.mem_cons_of_mem _ member), first]

theorem Reached.sound (reached : Reached history) : ∃ rows, history.Sound rows := by
  obtain ⟨start, calls, created, steps⟩ := reached
  obtain ⟨rows, sound, _⟩ := steps.kept created.sound
  exact ⟨rows, sound⟩

theorem Reached.step (reached : Reached before) (step : Step before call outcome after) : Reached after := by
  obtain ⟨first, calls, created, steps⟩ := reached
  refine ⟨first, calls ++ [call], created, ?_⟩
  clear created
  induction steps with
  | done => exact .next step (.done _)
  | next head _ ih => exact .next head (ih step)

instance (file : File) : Decidable file.Outgrown := inferInstanceAs (Decidable (_ < _))

/-- A data file that was just created, with zeroed memory. -/
def start : History := ⟨(createFile [] 1 1 (new (fun _ _ => true) fun _ _ => 0)).2, [], []⟩

theorem start_created : Created start := by
  obtain ⟨file, ran, _⟩ := createFile_run (fun _ _ => true) (fun _ _ _ => rfl) (fun _ _ => 0) [] 1 1
  refine ⟨fun _ _ => true, fun _ _ => 0, [], 1, 1, fun _ _ => rfl, ?_, rfl, rfl⟩
  rw [start, ran]

theorem start_reached : Reached start := ⟨start, [], start_created, .done _⟩

/-- The history after one more call. -/
def perform (history : History) (call : Call) : History where
  file := (call.run history.file).2
  handed := Call.written (call.run history.file).1 ++ history.handed
  deleted := call.deletes ++ history.deleted

theorem step_perform (call : Call) (aimed : ∀ id, call.target = some id → id ∈ history.handed)
    (small : call.rowLen < 2 ^ 31) (bounded : ¬ (history.perform call).file.toFile.Outgrown) :
    Step history call (call.run history.file).1 (history.perform call) :=
  ⟨aimed, small, rfl, rfl, rfl, bounded⟩

end History

end Pingkv
