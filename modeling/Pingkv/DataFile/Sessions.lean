import Pingkv.DataFile.Reachable
import Pingkv.Lib.Simulation
import Mathlib.Data.Prod.Lex

/-! A data file over several sessions: calls, and openings of the same file by new
objects. What the callers see of it is what they would see of a store of rows. -/

namespace Pingkv

/-- What a call hands out. -/
inductive Answer where
  | wrote (id : Int × Int)
  | done
  | row (bytes : Option (List UInt8))
  deriving DecidableEq, Repr

/-- The row id a call returned. -/
def Answer.written : Except Exec.Stop Answer → List (Int × Int)
  | .ok (.wrote id) => [id]
  | _ => []

open Exec

/-- What a call does and hands out. -/
def Call.answer : Call → Exec DataFile Answer
  | writeRow row => do return .wrote (← DataFile.writeRow row)
  | writeRowNewBlock row => do return .wrote (← DataFile.writeRowNewBlock row, 1)
  | modifyRow id row => do DataFile.modifyRow id.1 id.2 row; return .done
  | deleteRow id => do DataFile.deleteRow id.1 id.2; return .done
  | readRow id => do let row ← DataFile.readRow id.1 id.2; return .row (row.map Buf.toList)
  | flushBlocks => do DataFile.flushBlocks; return .done

/-- A new object for the file of another one, in a process of its own. -/
def DataFile.reopened (file : DataFile) (host : Host) : DataFile where
  toFile := file.toFile
  toHost := host
  cache := []
  initOk := false

/-- A data file and the row ids that were handed out since it was created. -/
structure Session where
  file : DataFile
  handed : List (Int × Int)

namespace Session

inductive Event where
  | call (call : Call) (outcome : Except Stop Answer)
  | reopen

/-- The row ids that a step hands out. -/
def Event.written : Event → List (Int × Int)
  | .call _ outcome => Answer.written outcome
  | .reopen => []

/-- The row that a step changes. -/
def Event.changes : Event → Option (Int × Int)
  | .call made _ => made.changes
  | .reopen => none

/-- A reading of a row answers with these bytes. -/
def Event.Shows (number : Int × Int) (row : Option (List UInt8)) : Event → Prop
  | .call (.readRow id) outcome => id = number → outcome = .ok (.row row)
  | _ => True

/-- A changing of a row fails. -/
def Event.Refuses (number : Int × Int) : Event → Prop
  | .call (.modifyRow id _) outcome => id = number → outcome = .error .failed
  | _ => True

/-- A call about a row that was handed out, which leaves at most `2 ^ 31` bytes, or the
next opening of the file. An object that goes may have flushed its blocks or not. -/
inductive Step (before : Session) : Event → Session → Prop where
  | call {call : Call} {outcome : Except Stop Answer} {file : DataFile}
      (aimed : ∀ id, call.target = some id → id ∈ before.handed) (small : call.rowLen < 2 ^ 31)
      (ran : call.answer before.file = (outcome, file)) (bounded : ¬ file.toFile.Outgrown) :
      Step before (.call call outcome) ⟨file, Answer.written outcome ++ before.handed⟩
  | reopen {host : Host} {pid : Int} {pidExists : Int → Bool} {file : DataFile}
      (serves : (before.file.reopened host).Serves)
      (opened : DataFile.openFile pid pidExists (before.file.reopened host) = (.ok (), file)) :
      Step before .reopen ⟨file, before.handed⟩

/-- A data file as `create_file` leaves it; only unmapping may fail. -/
def Created (session : Session) : Prop := ∃ os junk dbName fileId pid, (∀ call n, call ≠ .munmap → os call n = true) ∧
  DataFile.createFile dbName fileId pid (DataFile.new os junk) = (.ok (), session.file) ∧ session.handed = []

end Session

/-- Records in the order of their blocks, and of their places in a block. -/
def RecordId.Precedes (first second : RecordId) : Prop :=
  first.page < second.page ∨ first.page = second.page ∧ first.place < second.place

theorem RecordId.number_inj {first second : RecordId} (same : first.number = second.number) : first = second := by
  simpa using congrArg ofNumber same

theorem RecordId.Precedes.number_lt {first second : RecordId} (precedes : first.Precedes second) :
    toLex first.number < toLex second.number := by
  rw [Prod.Lex.toLex_lt_toLex]
  simp only [number, blockId, rowIdx]
  unfold Precedes at precedes
  omega

namespace Rows

open Session

/-- The store of rows: rows come under ids behind all others, keep their bytes until they are
changed, and once deleted stay so. A row that gets shorter may be padded with zeros. -/
inductive Step (rows : Rows) : Event → Rows → Prop where
  | write {id : RecordId} {call : Call} {row : Buf} (writes : call = .writeRow row ∨ call = .writeRowNewBlock row)
      (later : ∀ other, rows other ≠ none → other.Precedes id) :
      Step rows (.call call (.ok (.wrote id.number))) (rows.put id (some row.toList))
  | modify {id : RecordId} {row : Buf} {content : List UInt8} {zeros : Nat} (found : rows id = some (some content))
      (padded : zeros ≤ content.length - row.len) :
      Step rows (.call (.modifyRow id.number row) (.ok .done)) (rows.put id (some (row.toList ++ List.replicate zeros 0)))
  | refuse {id : RecordId} {row : Buf} (gone : rows id = some none) :
      Step rows (.call (.modifyRow id.number row) (.error .failed)) rows
  | delete {id : RecordId} (handed : rows id ≠ none) :
      Step rows (.call (.deleteRow id.number) (.ok .done)) (rows.put id none)
  | read {id : RecordId} {row : Option (List UInt8)} (found : rows id = some row) :
      Step rows (.call (.readRow id.number) (.ok (.row row))) rows
  | flush {outcome : Except Stop Answer} (ended : outcome = .ok .done ∨ outcome = .error .failed) :
      Step rows (.call .flushBlocks outcome) rows
  | reopen : Step rows .reopen rows

variable {rows rows' : Rows} {id : RecordId} {row : Option (List UInt8)} {number : Int × Int} {event : Event}
  {events : List Event}

/-- An id that is in use stays so. -/
theorem Step.keeps_handed (stepped : Step rows event rows') (handed : rows id ≠ none) : rows' id ≠ none := by
  cases stepped with
  | write | modify | delete => exact put_handed handed
  | refuse | read | flush | reopen => exact handed

/-- An id that is handed out is new, and behind all others. -/
theorem Step.written (stepped : Step rows event rows') (member : number ∈ event.written) :
    ∃ id : RecordId, number = id.number ∧ rows' id ≠ none ∧ ∀ other, rows other ≠ none → other.Precedes id := by
  cases stepped with
  | @write id _ _ writes later =>
    obtain rfl : number = id.number := by simpa [Event.written, Answer.written] using member
    exact ⟨id, rfl, by simp, later⟩
  | flush ended => rcases ended with rfl | rfl <;> cases member
  | modify | refuse | delete | read | reopen => cases member

/-- A row that a step does not change stays as it is, and is read so. -/
theorem Step.keeps_row (stepped : Step rows event rows') (found : rows id = some row)
    (spared : event.changes ≠ some id.number) : rows' id = some row ∧ event.Shows id.number row := by
  have other {changed : RecordId} (same : event.changes = some changed.number) : id ≠ changed := by
    rintro rfl
    exact spared same
  cases stepped with
  | @write place _ _ writes later =>
    refine ⟨?_, by rcases writes with rfl | rfl <;> trivial⟩
    rw [put_ne, found]
    rintro rfl
    have behind := later id (by simp [found])
    unfold RecordId.Precedes at behind
    omega
  | modify | delete => exact ⟨by rw [put_ne (other (by rfl)), found], trivial⟩
  | @read place _ held =>
    refine ⟨found, fun same => ?_⟩
    obtain rfl : place = id := RecordId.number_inj same
    rw [Option.some.inj (held.symm.trans found)]
  | refuse | flush | reopen => exact ⟨found, trivial⟩

/-- A row that was deleted stays so. -/
theorem Step.keeps_deleted (stepped : Step rows event rows') (gone : rows id = some none) :
    rows' id = some none ∧ event.Shows id.number none ∧ event.Refuses id.number := by
  by_cases changed : event.changes = some id.number
  · cases stepped with
    | @modify place row content zeros found padded =>
      obtain rfl : place = id := RecordId.number_inj (Option.some.inj changed)
      rw [gone] at found
      cases found
    | @delete place handed =>
      obtain rfl : place = id := RecordId.number_inj (Option.some.inj changed)
      exact ⟨put_same, trivial, trivial⟩
    | refuse => exact ⟨gone, trivial, fun _ => rfl⟩
    | write writes => rcases writes with rfl | rfl <;> cases changed
    | read | flush | reopen => cases changed
  · obtain ⟨same, shows⟩ := stepped.keeps_row gone changed
    refine ⟨same, shows, ?_⟩
    cases stepped with
    | refuse => exact fun _ => rfl
    | @modify place => exact fun same => absurd (congrArg some same) changed
    | write writes => rcases writes with rfl | rfl <;> trivial
    | delete | read | flush | reopen => trivial

/-- A run hands out one id behind the other, and all behind those in use before it. -/
theorem trace_ascending (trace : Simulation.Trace Step rows events rows') :
    (events.flatMap Event.written).Pairwise (toLex · < toLex ·) ∧
      ∀ number ∈ events.flatMap Event.written, ∀ other, rows other ≠ none → toLex other.number < toLex number := by
  induction trace with
  | done => simp
  | @next rows mid rows' event events first _ ih =>
    obtain ⟨ordered, behind⟩ := ih
    have early {number} (member : number ∈ event.written) (other) (handed : rows other ≠ none) :
        toLex other.number < toLex number := by
      obtain ⟨id, rfl, _, later⟩ := first.written member
      exact (later other handed).number_lt
    have between {number later} (member : number ∈ event.written) (after : later ∈ events.flatMap Event.written) :
        toLex number < toLex later := by
      obtain ⟨id, rfl, held, _⟩ := first.written member
      exact behind later after id held
    have single : event.written.Pairwise (toLex · < toLex ·) := by
      cases event with
      | reopen => exact .nil
      | call call outcome =>
        rcases outcome with _ | _ | _ | _ <;> simp [Event.written, Answer.written]
    simp only [List.flatMap_cons, List.mem_append]
    refine ⟨List.pairwise_append.mpr ⟨single, ordered, fun _ member _ after => between member after⟩, ?_⟩
    rintro number (own | after) other handed
    · exact early own other handed
    · exact behind number after other (first.keeps_handed handed)

end Rows

namespace DataFile

variable {file after : DataFile} {rows : Rows}

/-- The process in the head of a file does not matter to its rows. -/
theorem Storing.owned (storing : file.Storing rows) (serves : after.Serves) (cached : after.Cached)
    (pid : Int) (same : after.toFile = { file.toFile with info := { file.info with currPid := pid } }) :
    after.Storing rows := by
  obtain ⟨⟨formed, _, _⟩, paths, layout⟩ := storing
  refine ⟨⟨?_, cached, serves⟩, ?_⟩
  · rw [same]
    exact ⟨formed.used_lower, formed.used_upper, formed.used_mapped, formed.size_eq, formed.blockId, formed.block,
      formed.unused⟩
  · rw [same]
    refine ⟨paths, fun id row found => ?_, layout.disjoint⟩
    refine (layout.row id row found).transfer fun place member => ?_
    have has := (layout.row id row found).has_all place member
    exact ⟨⟨has.positive, has.within, has.placed⟩, rfl, rfl, Mem.Agree.refl⟩

/-- An opening succeeds, and stores the rows the file had, unless a living process owns the file. -/
theorem openFile_serves {host : Host} (pid : Int) (pidExists : Int → Bool) (storing : file.Storing rows)
    (serves : (file.reopened host).Serves) :
    (∃ after, openFile pid pidExists (file.reopened host) = (.error .failed, after)) ∧
        file.info.currPid ≠ pid ∧ pidExists file.info.currPid ∨
      ∃ after, openFile pid pidExists (file.reopened host) = (.ok (), after) ∧ after.Storing rows ∧
        after.size = file.size := by
  have nonempty : file.size ≠ 0 := by
    have size := storing.ready.formed.size_eq
    have lower := storing.ready.formed.used_lower
    have upper := storing.ready.formed.used_upper
    omega
  obtain ⟨first, ranOpen, quietOpen⟩ := osCall_serves serves .open (by decide)
  obtain ⟨second, ranMap, quietMap⟩ := osCall_serves (quietOpen.serves serves) .mmap (by decide)
  have same : second.toFile = file.toFile := quietMap.file.trans quietOpen.file
  have served : second.Serves := quietMap.serves (quietOpen.serves serves)
  have cached : second.Cached := quietMap.cached (quietOpen.cached (List.forall_mem_nil _))
  have mapped : readFileHead first = (.ok (), second) := by
    rw [readFileHead, bind_ok ranMap]
    rfl
  let owned : DataFile := { second with info := { second.info with currPid := pid } }
  obtain ⟨synced, ranSync, quietSync⟩ := osCall_serves (show owned.Serves from served) .msync (by decide)
  have flushed : attempt flushFileHead owned = (.ok (some ()), synced) := attempt_ok (by
    rw [flushFileHead, bind_ok ranSync]
    rfl)
  rw [openFile, bind_ok ranOpen]
  simp only [Bool.not_true, Bool.false_eq_true, if_false]
  rw [bind_ok mapped]
  simp only [read_bind_run]
  rw [if_neg (same ▸ nonempty), same]
  by_cases blocked : file.info.currPid ≠ pid ∧ pidExists file.info.currPid
  · rw [if_pos blocked]
    exact .inl ⟨⟨second, rfl⟩, blocked⟩
  · rw [if_neg blocked, update_bind_run, bind_ok flushed]
    refine .inr ⟨{ synced with initOk := true }, rfl, storing.owned ?_ ?_ pid ?_, ?_⟩
    · exact quietSync.serves served
    · exact quietSync.cached cached
    · rw [← same]
      exact quietSync.file
    · exact (congrArg File.size quietSync.file).trans (show second.size = file.size from congrArg File.size same)

/-- An opening that succeeds stores the rows the file had. -/
theorem openFile_storing {host : Host} {pid : Int} {pidExists : Int → Bool} (storing : file.Storing rows)
    (serves : (file.reopened host).Serves) (opened : openFile pid pidExists (file.reopened host) = (.ok (), after)) :
    after.Storing rows := by
  rcases openFile_serves pid pidExists storing serves with ⟨⟨_, refused⟩, _⟩ | ⟨_, ran, stored, _⟩
  · cases refused.symm.trans opened
  · obtain rfl := congrArg Prod.snd (ran.symm.trans opened)
    exact stored

end DataFile

theorem History.Reached.bounded {history : History} (reached : Reached history) : ¬ history.file.toFile.Outgrown := by
  obtain ⟨start, calls, created, steps⟩ := reached
  have first : ¬ start.file.toFile.Outgrown := by
    obtain ⟨os, junk, dbName, fileId, pid, serves, ran, _⟩ := created
    obtain ⟨file, ran', storing, _, _, count, _⟩ := DataFile.createFile_run os (fun call n _ => serves call n) junk dbName fileId pid
    obtain rfl : file = start.file := congrArg Prod.snd (ran'.symm.trans ran)
    have size := storing.ready.formed.size_eq
    simp only [File.Outgrown, Pingkv.blockSize]
    omega
  clear created
  induction steps with
  | done => exact first
  | next step _ ih => exact ih step.bounded

namespace Session

open DataFile Simulation

variable {before after session last : Session} {rows rows' : Rows} {call : Call} {outcome : Except Stop Answer}
  {file : DataFile} {events : List Event}

/-- The rows that a session has in its file, those that were handed out among them. -/
structure Stands (session : Session) (rows : Rows) : Prop where
  storing : session.file.Storing rows
  handed : ∀ number ∈ session.handed, ∃ id : RecordId, number = id.number ∧ rows id ≠ none

theorem Created.stands (created : Created session) : session.Stands fun _ => none := by
  obtain ⟨os, junk, dbName, fileId, pid, serves, ran, handed⟩ := created
  obtain ⟨file, ran', storing, _⟩ := createFile_run os serves junk dbName fileId pid
  have same : file = session.file := congrArg Prod.snd (ran'.symm.trans ran)
  refine ⟨same ▸ storing, fun number member => ?_⟩
  rw [handed] at member
  cases member

/-- Putting a row keeps the ids that were handed out. -/
theorem Stands.put {id : RecordId} {row : Option (List UInt8)} (stands : before.Stands rows)
    (storing : file.Storing (rows.put id row)) (new : List (Int × Int)) (own : ∀ number ∈ new, number = id.number) :
    (⟨file, new ++ before.handed⟩ : Session).Stands (rows.put id row) := by
  refine ⟨storing, fun number member => ?_⟩
  rcases List.mem_append.mp member with new | old
  · exact ⟨id, own number new, by simp⟩
  · obtain ⟨other, same, found⟩ := stands.handed number old
    exact ⟨other, same, Rows.put_handed found⟩

theorem Stands.same (stands : before.Stands rows) (storing : file.Storing rows) :
    (⟨file, before.handed⟩ : Session).Stands rows := ⟨storing, stands.handed⟩

/-- A row handed out once is found under its id. -/
theorem Stands.find (stands : before.Stands rows) {number : Int × Int} (member : number ∈ before.handed) :
    ∃ id : RecordId, ∃ row, number = id.number ∧ rows id = some row := by
  obtain ⟨id, same, handed⟩ := stands.handed number member
  obtain ⟨row, found⟩ := Option.ne_none_iff_exists'.mp handed
  exact ⟨id, row, same, found⟩

/-- A block has fewer than 1024 records, so ranks order records as their places do. -/
theorem precedes_of_rank {id other : RecordId} (storing : file.Storing rows) (handed : rows id ≠ none)
    (less : other.rank < id.rank) : other.Precedes id := by
  have has := storing.has handed
  have block := storing.ready.formed.block id.page has.positive has.within
  have bounds := block.bounds (Nat.le_refl _)
  have placed := has.placed
  have count := block.counted
  unfold Block.count at placed
  unfold RecordId.rank at less
  unfold RecordId.Precedes
  omega

/-- A writer hands out an id behind all others. -/
theorem Stands.wrote (stands : before.Stands rows) {row : Buf} (writes : call = .writeRow row ∨ call = .writeRowNewBlock row)
    (holds : wp call.answer (fun answer file => ∃ id : RecordId, answer = .wrote id.number ∧
      Handed before.file file rows id row) Outgrew before.file)
    (ran : call.answer before.file = (outcome, file)) (bounded : ¬ file.toFile.Outgrown) :
    ∃ rows', Rows.Step rows (.call call outcome) rows' ∧
      (⟨file, Answer.written outcome ++ before.handed⟩ : Session).Stands rows' := by
  rcases holds.run ran with ⟨answer, rfl, id, rfl, handed⟩ | ⟨_, _, outgrown⟩
  · refine ⟨_, .write writes fun other found => ?_, stands.put handed.storing _ (List.forall_mem_singleton.mpr rfl)⟩
    exact precedes_of_rank handed.storing (by simp) (handed.later other found)
  · exact absurd outgrown bounded

/-- Whatever a session shows, the store of its rows shows. -/
theorem simulates : Simulation.Simulates Step Rows.Step Stands := by
  intro before rows event after stands stepped
  cases stepped with
  | reopen serves opened => exact ⟨rows, .reopen, stands.same (openFile_storing stands.storing serves opened)⟩
  | @call call outcome file aimed small ran bounded =>
    cases call with
    | writeRow row =>
      refine stands.wrote (.inl rfl) (wp_bind ((writeRow_storing stands.storing row small).mono (fun _ _ wrote => wrote)
        fun _ _ halted => halted.1) ?_) ran bounded
      rintro _ file ⟨id, rfl, handed, _⟩
      exact wp_pure ⟨id, rfl, handed⟩
    | writeRowNewBlock row =>
      refine stands.wrote (.inr rfl) (wp_bind (writeRowNewBlock_storing stands.storing row small) ?_) ran bounded
      rintro _ file ⟨id, rfl, first, _, handed⟩
      refine wp_pure ⟨id, ?_, handed⟩
      simp [RecordId.number, RecordId.rowIdx, first]
    | modifyRow number row =>
      obtain ⟨id, stored, rfl, found⟩ := stands.find (aimed number rfl)
      cases stored with
      | none =>
        obtain ⟨file', refused, quiet⟩ := modifyRow_gone stands.storing found row
        obtain ⟨rfl, rfl⟩ := Prod.mk.inj (ran.symm.trans (bind_error refused))
        exact ⟨rows, .refuse found, stands.same (quiet.storing stands.storing)⟩
      | some content =>
        have holds : wp (Call.answer (.modifyRow id.number row)) (fun answer file => answer = .done ∧
            file.Storing (rows.put id (some (row.toList ++
              List.replicate (before.file.leftover stepBound id row.len) 0)))) Overflowed before.file := by
          refine wp_bind (modifyRow_storing stands.storing found row small) ?_
          rintro _ file ⟨_, storing, _⟩
          exact wp_pure ⟨rfl, storing⟩
        rcases holds.run ran with ⟨_, rfl, rfl, storing⟩ | ⟨_, _, outgrown⟩
        · exact ⟨_, .modify found (stands.storing.leftover_le found row.len),
            stands.put storing [] (List.forall_mem_nil _)⟩
        · exact absurd outgrown.2 bounded
    | deleteRow number =>
      obtain ⟨id, stored, rfl, found⟩ := stands.find (aimed number rfl)
      have handed : rows id ≠ none := by simp [found]
      obtain ⟨file', deleted, _, storing⟩ := deleteRow_storing stands.storing handed
      obtain ⟨rfl, rfl⟩ := Prod.mk.inj (ran.symm.trans (bind_ok deleted))
      exact ⟨_, .delete handed, stands.put storing [] (List.forall_mem_nil _)⟩
    | readRow number =>
      obtain ⟨id, stored, rfl, found⟩ := stands.find (aimed number rfl)
      have holds : wp (Call.answer (.readRow id.number)) (fun answer file => answer = .row stored ∧ file.Storing rows)
          (fun _ _ => False) before.file := by
        cases stored with
        | none =>
          obtain ⟨file', read, quiet⟩ := readRow_gone stands.storing found
          exact wp_bind_ok read (wp_pure ⟨rfl, quiet.storing stands.storing⟩)
        | some content =>
          obtain ⟨buf, file', read, quiet, same⟩ := readRow_storing stands.storing found
          exact wp_bind_ok read (wp_pure ⟨congrArg (fun bytes => Answer.row (some bytes)) same,
            quiet.storing stands.storing⟩)
      rcases holds.run ran with ⟨_, rfl, rfl, storing⟩ | ⟨_, _, never⟩
      · exact ⟨rows, .read found, stands.same storing⟩
      · exact never.elim
    | flushBlocks =>
      obtain ⟨ended, file', flushed, quiet, rfl | ⟨rfl, _⟩⟩ := flushBlocks_ready stands.storing.ready
      · obtain ⟨rfl, rfl⟩ := Prod.mk.inj (ran.symm.trans (bind_ok flushed))
        exact ⟨rows, .flush (.inl rfl), stands.same (quiet.storing stands.storing)⟩
      · obtain ⟨rfl, rfl⟩ := Prod.mk.inj (ran.symm.trans (bind_error flushed))
        exact ⟨rows, .flush (.inr rfl), stands.same (quiet.storing stands.storing)⟩

/-- A file is opened again, and a row of it read, deleted and read again. -/
def lookAgain (id : Int × Int) (bytes : List UInt8) : List Event :=
  [.reopen, .call (.readRow id) (.ok (.row (some bytes))), .call (.deleteRow id) (.ok .done),
    .call (.readRow id) (.ok (.row none))]

theorem Stands.looksAgain {id : RecordId} {bytes : List UInt8} (stands : session.Stands rows)
    (member : id.number ∈ session.handed) (found : rows id = some (some bytes))
    (bounded : ¬ session.file.toFile.Outgrown) : ∃ last, Trace Step session (lookAgain id.number bytes) last := by
  have serves : (session.file.reopened session.file.toHost).Serves := stands.storing.ready.serves
  obtain ⟨opened, ranOpen, storing, size⟩ : ∃ opened, openFile 0 (fun _ => false)
      (session.file.reopened session.file.toHost) = (.ok (), opened) ∧ opened.Storing rows ∧
        opened.size = session.file.size := by
    rcases openFile_serves 0 (fun _ => false) stands.storing serves with ⟨_, _, living⟩ | ran
    · cases living
    · exact ran
  have handed : rows id ≠ none := by simp [found]
  obtain ⟨content, read, ranRead, quiet, same⟩ := readRow_storing storing found
  have storing := quiet.storing storing
  obtain ⟨deleted, ranDelete, edited, gone⟩ := deleteRow_ready storing.ready (storing.has handed)
  have storing := edited.storing storing handed gone
  obtain ⟨last, ranLast, quiet'⟩ := readRow_gone storing Rows.put_same
  have sized : read.size = session.file.size := (congrArg File.size quiet.file).trans size
  have sized' : last.size = session.file.size :=
    (congrArg File.size quiet'.file).trans (edited.size.trans sized)
  refine ⟨_, .next (.reopen serves ranOpen) (.next (.call ?_ (by simp [Call.rowLen]) ?_ ?_)
    (.next (.call ?_ (by simp [Call.rowLen]) (bind_ok ranDelete) ?_)
      (.next (.call ?_ (by simp [Call.rowLen]) (bind_ok ranLast) ?_) (.done _))))⟩
  · exact fun _ same => Option.some.inj same ▸ member
  · refine (bind_ok ranRead).trans ?_
    rw [Option.map_some, same]
    rfl
  · rwa [File.Outgrown, sized]
  · exact fun _ same => Option.some.inj same ▸ member
  · rwa [File.Outgrown, edited.size, sized]
  · exact fun _ same => Option.some.inj same ▸ member
  · rwa [File.Outgrown, sized']

theorem Created.looksAgain {history : History} (created : History.Created history)
    (bounded : ¬ (history.perform (.writeRow (Buf.ofList [1, 2, 3]))).file.toFile.Outgrown) :
    ∃ session id last, Created session ∧ Trace Step session
      (.call (.writeRow (Buf.ofList [1, 2, 3])) (.ok (.wrote id)) :: lookAgain id [1, 2, 3]) last := by
  have created : Created ⟨history.file, []⟩ := by
    obtain ⟨os, junk, dbName, fileId, pid, serves, ran, _⟩ := created
    exact ⟨os, junk, dbName, fileId, pid, fun call n _ => serves call n, ran, rfl⟩
  obtain ⟨outcome, file, ran⟩ : ∃ outcome file, DataFile.writeRow (Buf.ofList [1, 2, 3]) history.file = (outcome, file) :=
    ⟨_, _, rfl⟩
  rw [History.perform, Call.run] at bounded
  rcases (writeRow_storing created.stands.storing (Buf.ofList [1, 2, 3]) (by decide)).run ran with
    ⟨_, rfl, id, rfl, handed, _⟩ | ⟨_, rfl, halted⟩
  · rw [bind_ok ran] at bounded
    have stands := created.stands.put handed.storing [id.number] (by simp)
    obtain ⟨last, rest⟩ := stands.looksAgain (by simp) Rows.put_same bounded
    exact ⟨_, id.number, last, created, .next (.call (by simp [Call.target]) (by decide) (bind_ok ran) bounded) rest⟩
  · rw [bind_error ran] at bounded
    exact absurd halted.1 bounded

theorem first_looksAgain : ∃ session id last, Created session ∧ Trace Step session
    (.call (.writeRow (Buf.ofList [1, 2, 3])) (.ok (.wrote id)) :: lookAgain id [1, 2, 3]) last :=
  Created.looksAgain History.start_created History.three_reached.bounded

/-- Calls and restarts from the creation of a data file on show what a store of rows shows. -/
theorem refines (created : Created session) (trace : Trace Step session events last) :
    ∃ rows, Trace Rows.Step (fun _ => none) events rows ∧ last.Stands rows :=
  simulates.trace created.stands trace

theorem first_refines : ∃ id rows, Trace Rows.Step (fun _ => none)
    (.call (.writeRow (Buf.ofList [1, 2, 3])) (.ok (.wrote id)) :: lookAgain id [1, 2, 3]) rows := by
  obtain ⟨session, id, last, created, trace⟩ := first_looksAgain
  obtain ⟨rows, ran, _⟩ := refines created trace
  exact ⟨id, rows, ran⟩

/-- Row ids are handed out in ascending order, also after restarts, so none twice. -/
theorem ascending (created : Created session) (trace : Trace Step session events last) :
    (events.flatMap Event.written).Pairwise (toLex · < toLex ·) :=
  simulates.shows created.stands (fun ran => (Rows.trace_ascending ran).1) trace

theorem first_ascending : ∃ id : Int × Int,
    ((Event.call (.writeRow (Buf.ofList [1, 2, 3])) (.ok (.wrote id)) :: lookAgain id [1, 2, 3]).flatMap
      Event.written).Pairwise (toLex · < toLex ·) := by
  obtain ⟨session, id, last, created, trace⟩ := first_looksAgain
  exact ⟨id, ascending created trace⟩

/-- A row reads as it was written, also after restarts, until a call changes it. -/
theorem durable {earlier later : List Event} {row : Buf} {number : Int × Int} (created : Created session)
    (writes : call = .writeRow row ∨ call = .writeRowNewBlock row)
    (trace : Trace Step session (earlier ++ .call call (.ok (.wrote number)) :: later) last)
    (spared : ∀ event ∈ later, event.changes ≠ some number) :
    ∀ event ∈ later, event.Shows number (some row.toList) := by
  obtain ⟨rows, shown, _⟩ := refines created trace
  obtain ⟨mid, _, ran⟩ := shown.split
  cases ran with
  | next first rest =>
    cases first with
    | @write id _ content writes' _ =>
      obtain rfl : row = content := by rcases writes with rfl | rfl <;> simpa using writes'
      exact rest.each (fun rows => rows id = some (some row.toList)) _
        (fun held allowed stepped => stepped.keeps_row held allowed) Rows.put_same spared
    | flush ended => rcases ended with ended | ended <;> cases ended

theorem first_durable : ∃ id : Int × Int,
    ∀ event ∈ [Event.reopen, .call (.readRow id) (.ok (.row (some [1, 2, 3])))], event.Shows id (some [1, 2, 3]) := by
  obtain ⟨session, id, last, created, trace⟩ := first_looksAgain
  let read := [Event.reopen, .call (.readRow id) (.ok (.row (some [1, 2, 3])))]
  have parts : Trace Step session ((_ :: read) ++ [_, _]) last := trace
  obtain ⟨mid, before, _⟩ := parts.split
  have whole : Trace Step session ([] ++ _ :: read) mid := before
  exact ⟨id, durable created (.inl rfl) whole (by simp [read, Event.changes, Call.changes])⟩

/-- A row that was deleted reads as none and cannot be changed, also after restarts. -/
theorem buried {earlier later : List Event} {number : Int × Int} (created : Created session)
    (trace : Trace Step session (earlier ++ .call (.deleteRow number) outcome :: later) last) :
    outcome = .ok .done ∧ ∀ event ∈ later, event.Shows number none ∧ event.Refuses number := by
  obtain ⟨rows, shown, _⟩ := refines created trace
  obtain ⟨mid, _, ran⟩ := shown.split
  cases ran with
  | next first rest =>
    cases first with
    | write writes => rcases writes with writes | writes <;> cases writes
    | @delete id handed =>
      exact ⟨rfl, rest.each (fun rows => rows id = some none) (fun _ => True)
        (fun held _ stepped => stepped.keeps_deleted held) Rows.put_same fun _ _ => trivial⟩

theorem first_buried : ∃ id : Int × Int, ∀ event ∈ [Event.call (.readRow id) (.ok (.row none))],
    event.Shows id none ∧ event.Refuses id := by
  obtain ⟨session, id, last, created, trace⟩ := first_looksAgain
  have parts : Trace Step session ([_, _, _] ++ _ :: [_]) last := trace
  exact ⟨id, (buried created parts).2⟩

end Session

end Pingkv
