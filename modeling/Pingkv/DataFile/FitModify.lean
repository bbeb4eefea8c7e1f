import Pingkv.DataFile.FitRows
import Pingkv.DataFile.Reread

/-! `_modify_row` over an operating system that may refuse calls. Until it has
followed all links of the row it leaves the file alone. -/

namespace Pingkv

/-- The blocks of the records that `_modify_row` goes through. -/
def File.linkBlocks (file : File) : Nat → RecordId → List Int
  | 0, _ => []
  | steps + 1, id => id.blockId :: if rowMigrated (file.record id).flags = 1 then
      linkBlocks file steps ⟨((file.record id).nextBlockId - 1).toNat, ((file.record id).nextRowIdx - 1).toNat⟩ else []

/-- `_modify_row` writes so many bytes over those of the row, and no new record. -/
def File.InPlace (file : File) (steps : Nat) (id : RecordId) (len : Nat) : Prop :=
  rowChained (file.record (file.settled steps id)).flags ≠ 1 ∧ len ≤ (file.record (file.settled steps id)).len

instance (file : File) (steps : Nat) (id : RecordId) (len : Nat) : Decidable (file.InPlace steps id len) :=
  inferInstanceAs (Decidable (_ ∧ _))

namespace DataFile

open Exec

variable {file after : DataFile} {id : RecordId} {content : List UInt8} {path : List RecordId} {block : BlockPtr}
  {blockId : Int}

/-- How often `mmap` is called to read blocks one after another. -/
def unheld (file : DataFile) (ids : List Int) : Nat := (ids.toFinset.filter fun id => ¬ file.held id).card

theorem Opened.unheld (opened : Opened file after blockId block) (mapped : block ≠ .mapFailed) (ids : List Int) :
    (if file.held blockId then 0 else 1) + after.unheld ids = file.unheld (blockId :: ids) := by
  have own : after.held blockId := opened.holds mapped
  simp only [DataFile.unheld]
  by_cases held : file.held blockId
  · have same : (ids.toFinset.filter fun id => ¬ after.held id) = ((blockId :: ids).toFinset.filter fun id => ¬ file.held id) := by
      ext other
      by_cases here : other = blockId
      · subst here
        simp [own, held]
      · simp [here, opened.held other here]
    rw [if_pos held, same, Nat.zero_add]
  · have more : ((blockId :: ids).toFinset.filter fun id => ¬ file.held id) =
        insert blockId (ids.toFinset.filter fun id => ¬ after.held id) := by
      ext other
      by_cases here : other = blockId
      · subst here
        simp [held]
      · simp [here, opened.held other here]
    rw [if_neg held, more, Finset.card_insert_of_notMem (by simp [own]), Nat.add_comm]

theorem Opened.serves (opened : Opened file after blockId block) (mapped : block ≠ .mapFailed) (ids : List Int) (calls : Nat) :
    after.ServesMaps (after.unheld ids + calls) ↔ file.ServesMaps (file.unheld (blockId :: ids) + calls) := by
  rw [← opened.unheld mapped ids]
  have maps : file.Maps blockId 0 := by
    rcases opened.found with ⟨_, _, maps⟩ | ⟨rfl, _⟩
    · exact maps
    · exact absurd rfl mapped
  simp only [ServesMaps, opened.mmap]
  by_cases held : file.held blockId
  · simp only [if_pos held, Nat.zero_add]
  · simp only [if_neg held]
    constructor
    · intro serves k below
      cases k with
      | zero => exact (maps.resolve_left held).1
      | succ k => exact serves k (by omega)
    · exact fun serves k below => serves (k + 1) (by omega)

/-- The block of a record was mapped, and nothing else happened. -/
structure Followed (before after : DataFile) (id : RecordId) : Prop where
  took : Took before after (if before.held id.blockId then 0 else 1) 0
  file : after.toFile = before.toFile
  junk : after.junk = before.junk
  initOk : after.initOk = before.initOk
  supply : after.supply = before.supply
  serves : ∀ ids calls, after.ServesMaps (after.unheld ids + calls) ↔ before.ServesMaps (before.unheld (id.blockId :: ids) + calls)

/-- A call has ended before it changed the file. -/
structure Aborted (before after : DataFile) : Prop where
  file : after.toFile = before.toFile
  junk : after.junk = before.junk
  tame : after.Tame

/-- What `_modify_row` begins with: it goes on only if the block is mapped. -/
theorem openRecord_fit (fit : file.Fit) (has : file.Has id) {α : Type} {next : BlockPtr → Block → RecordIndex → Exec DataFile α}
    {post : α → DataFile → Prop} {halt : Stop → DataFile → Prop}
    (mapped : ∀ after, Followed file after id →
      wp (next (.page id.page) (file.block id.page) (file.record id)) post halt after)
    (refused : ∀ after, Aborted file after → ¬ file.Maps id.blockId 0 → halt .failed after) : wp (do
      let block ← readBlock id.blockId
      if block = BlockPtr.mapFailed then failed
      let content ← load block
      let record ← rowGetRecord content id.rowIdx
      next block content record) post halt file := by
  have low := has.mapped fit.formed
  have positive := has.positive
  obtain ⟨block, after, ran, opened⟩ := readBlock_patchy fit.cached (show 2 ≤ id.blockId by simp only [RecordId.blockId]; omega)
    (by simp only [RecordId.blockId]; omega)
  refine wp_bind_ok ran ?_
  rcases opened.found with ⟨rfl, _, maps⟩ | ⟨rfl, unmapped⟩
  · have page : (id.blockId - 1).toNat = id.page := by simp only [RecordId.blockId]; omega
    have isPage : BlockPtr.page (id.blockId - 1).toNat ≠ .mapFailed := by simp
    have fitAfter : after.Fit := opened.fit fit fun _ => by rw [page]; exact has.within
    have loaded : load (.page id.page) after = (.ok (file.block id.page), after) := by
      rw [← opened.file]
      exact load_page has.positive (by rw [opened.file]; exact has.within)
    have followed : Followed file after id := by
      refine ⟨⟨fitAfter, opened.smooth isPage, ?_, ?_⟩, opened.file, opened.junk,
        opened.initOk, opened.supply, opened.serves isPage⟩
      · rw [opened.file]
        exact (Int.add_zero _).symm
      · rw [opened.file]
        exact fun forward => forward
    have found := rowGetRecord_record after fit.mend_ready has
    rw [mend_toFile] at found
    rw [if_neg isPage, page]
    exact wp_bind_ok loaded (wp_bind_ok found (mapped after followed))
  · have patchy : after.Patchy := opened.patchy fun found => absurd rfl found
    have tame : after.Tame := Fit.tame ⟨opened.file ▸ fit.formed, patchy⟩
    exact wp_of_error rfl (refused after ⟨opened.file, opened.junk, tame⟩ unmapped)

/-- Changes of one record that leave its place alone leave as many bytes free. -/
theorem Edited.free (edited : Edited file after id) (counts : file.toFile.Counts after.toFile) (formed : file.toFile.Formed)
    (offset : (after.record id).offset = (file.record id).offset) :
    (after.block after.current).free = (file.block file.current).free := by
  have current : after.current = file.current := by simp only [File.current, edited.info]
  have same : (after.block file.current).count = (file.block file.current).count := by simp only [Block.count, counts.count]
  have last : (after.block file.current).offset (file.block file.current).count =
      (file.block file.current).offset (file.block file.current).count := by
    cases count : (file.block file.current).count with
    | zero => rfl
    | succ place =>
      by_cases here : (⟨file.current, place⟩ : RecordId) = id
      · rw [← here] at offset
        exact offset
      · have has : file.Has ⟨file.current, place⟩ :=
          ⟨formed.current_positive, formed.current_within, by simp only [count]; omega⟩
        exact congrArg RecordIndex.offset (edited.kept ⟨file.current, place⟩ has (by simpa using here)).record
  simp only [Block.free, current, counts.count, same, last]

/-- Where as many bytes are free, a new row needs the same. -/
theorem Through.moves (through : Through file after)
    (free : (after.block after.current).free = (file.block file.current).free) (len : Nat) :
    after.moves len = file.moves len ∧ after.maps len = file.maps len ∧ (after.MapsRow len ↔ file.MapsRow len) ∧
      (after.Granted len ↔ file.Granted len) := by
  have moves : after.moves len = file.moves len := by simp only [DataFile.moves, free]
  have maps : after.maps len = file.maps len := by simp only [DataFile.maps, moves, through.used, through.held]
  have supply := through.supply
  obtain ⟨contents, rfl⟩ := through
  refine ⟨moves, maps, ?_, ?_⟩
  · rw [MapsRow, MapsRow, moves, maps]
    rfl
  · rw [Granted, Granted, moves, free, supply]

/-- A row is written anew and linked. Its record is marked before a block is found for the row. -/
theorem migrateRow_fit (fit : file.Fit) (has : file.Has id) (live : rowDeleted (file.record id).flags ≠ 1) (row : Buf)
    (small : row.len < 2 ^ 31) :
    wp (Inner.migrateRow (.page id.page) id.rowIdx row) (fun _ after =>
        (∃ path', Modified file.mend after.mend id row.toList [id] path') ∧
          Took file after (file.maps row.len) (file.moves row.len))
      (fun reason _ => reason = .failed ∧ ¬ file.MapsRow row.len ∨ reason = .fault ∧ ¬ file.Granted row.len) file := by
  obtain ⟨_, mark, edited, record, _⟩ := setRecord_run fit.mend_ready has
    (fun record => { record with flags := rowSetMigrated record.flags })
    ⟨(record_fits file.toFile id).offset, (record_fits file.toFile id).len,
      (record_fits file.toFile id).nextBlockId, (record_fits file.toFile id).nextRowIdx⟩ rfl
  have counts := (setRecord_counts _ _ _ _).ok mark
  obtain ⟨marked, mark', through, rfl⟩ := run_mend (confines_setRecord _ _ _) mark
  have fitMarked := through.fit fit edited.ready
  have forward : file.toFile.Forward → marked.toFile.Forward := edited.linked counts (by rw [record]) (by rw [record])
  obtain ⟨moves, maps, mapsRow, granted⟩ := through.moves (edited.free counts fit.formed (by rw [record])) row.len
  unfold Inner.migrateRow
  refine wp_bind_ok mark' (wp_bind ((findBlockCanWrite_fit fitMarked).mono (fun _ _ found => found) ?_) ?_)
  · rintro reason _ ⟨rfl, full, none⟩
    exact .inr ⟨rfl, fun grants => not_granted_of_none full none (granted.mpr grants)⟩
  rintro ⟨block, fre⟩ mid (⟨refused, _, unmapped⟩ | ⟨found, _⟩)
  · obtain rfl : fre = -1 := refused
    exact wp_of_error (bind_error (failed_run mid)) (.inl ⟨rfl, fun all => unmapped ((mapsRow.mpr all).first fitMarked)⟩)
  · have positive := found.found.positive
    have written := found.innerWriteRow fitMarked row small
    rw [moves, maps, mapsRow, granted] at written
    obtain rfl : block = .page mid.current := found.found.place
    dsimp only
    rw [if_neg (show fre ≠ -1 by omega)]
    refine wp_bind (written.mono (fun _ _ wrote => wrote) fun _ _ halted => halted) ?_
    rintro _ tail ⟨next, path, rfl, wrote, took⟩
    have hasNext := wrote.chain.has
    have here : next.page = mid.current := wrote.page
    have loadedNext : load (.page next.page) tail = (.ok (tail.block next.page), tail) :=
      load_page hasNext.positive hasNext.within
    have number := took.fit.formed.blockId next.page hasNext.positive hasNext.within
    have kept := (found.found.opens.kept_but.trans wrote.kept).keeps edited.has
    have later := wrote.later found.found.ready (found.found.opens.kept_but.has edited.has)
    obtain ⟨_, link, edited', record', _⟩ := setRecord_run wrote.ready kept.has
      (fun record => { record with nextBlockId := next.blockId, nextRowIdx := next.rowIdx })
      (linkFits (record_fits tail.toFile id) wrote.ready hasNext) rfl
    have counts' := (setRecord_counts _ _ _ _).ok link
    obtain ⟨last, link', through', rfl⟩ := run_mend (confines_setRecord _ _ _) link
    have liveMend : rowDeleted (file.mend.record id).flags ≠ 1 := live
    have modified := wrote.migrated liveMend edited record found.found edited' record'
    rw [← here]
    refine wp_bind_ok loadedNext ?_
    rw [number]
    refine wp_of_ok link' ⟨⟨id :: path, modified⟩, through'.fit took.fit edited'.ready, ?_, ?_, fun old => ?_⟩
    · exact ((through.smooth.trans took.smooth).trans through'.smooth).mono (by omega)
    · rw [through'.used, took.used, through.used]
    · have hasNext' := counts'.has.mpr hasNext
      refine edited'.forward counts' (fun _ => ⟨next, hasNext', before_of_rank edited'.ready.formed edited'.has hasNext' later, ?_⟩)
        (took.forward (forward old))
      rw [record']
      exact ⟨rfl, rfl⟩

/-- A row is written over where it lies. -/
theorem inPlace_fit (fit : file.Fit) (chain : file.toFile.Chain id content [id])
    (live : rowDeleted (file.record id).flags ≠ 1) (settled : rowMigrated (file.record id).flags ≠ 1)
    (whole : rowChained (file.record id).flags ≠ 1) (row : Buf) (shorter : row.len ≤ content.length) : ∃ mid after,
    copyInto (.page id.page) (file.record id).offset (fun _ => 0) (file.record id).len file = (.ok (), mid) ∧
      copyInto (.page id.page) (file.record id).offset row.byte row.len mid = (.ok (), after) ∧
      Modified file.mend after.mend id (row.toList ++ List.replicate (content.length - row.len) 0) [id] [id] ∧
      Took file after 0 0 := by
  obtain ⟨_, _, clear, copy, modified, info, record⟩ := modify_inPlace fit.mend_ready chain live settled whole row shorter
  have counts := ((copyInto_counts _ _ _ _ _).ok clear).trans ((copyInto_counts _ _ _ _ _).ok copy)
  obtain ⟨mid, clear', through, rfl⟩ := run_mend (confines_copyInto _ _ _ _) clear
  obtain ⟨after, copy', through', rfl⟩ := run_mend (confines_copyInto _ _ _ _) copy
  have both := through.trans through'
  refine ⟨mid, after, clear', copy', modified, both.fit fit modified.ready, both.smooth, ?_, fun forward => ?_⟩
  · rw [both.used]
    exact (Int.add_zero _).symm
  · refine forward.edit modified.kept (fun other has => .inr (counts.has.mp has)) modified.holds.has ?_
    have same : after.record id = file.record id := record
    rw [same]
    exact (forward id chain.has).mono fun _ => counts.has.mpr

theorem linkBlocks_link {disk : File} (next : RecordId) {steps : Nat} (migrated : rowMigrated (disk.record id).flags = 1)
    (nextBlock : (disk.record id).nextBlockId = next.blockId) (nextRow : (disk.record id).nextRowIdx = next.rowIdx) :
    disk.linkBlocks (steps + 1) id = id.blockId :: disk.linkBlocks steps next := by
  rw [File.linkBlocks, if_pos migrated, nextBlock, nextRow]
  simp [RecordId.blockId, RecordId.rowIdx]

theorem linkBlocks_here {disk : File} {steps : Nat} (settled : rowMigrated (disk.record id).flags ≠ 1) :
    disk.linkBlocks (steps + 1) id = [id.blockId] := by
  rw [File.linkBlocks, if_neg settled]

/-- Each block on the way to where a row lies now can be mapped. -/
def MapsLinks (file : DataFile) (steps : Nat) (id : RecordId) : Prop :=
  file.ServesMaps (file.unheld (file.linkBlocks steps id))

/-- Each of these blocks can be mapped, and then each that the row goes to when it is written anew. -/
def MapsAnew (file : DataFile) (steps : Nat) (id : RecordId) (len : Nat) : Prop :=
  file.ServesMaps (file.unheld (file.linkBlocks steps id ++ [file.info.usedBlockCount]) + file.moves len) ∧
    file.info.usedBlockCount + file.moves len ≤ 262144

instance (file : DataFile) (steps : Nat) (id : RecordId) : Decidable (file.MapsLinks steps id) :=
  inferInstanceAs (Decidable (file.ServesMaps _))

instance (file : DataFile) (steps : Nat) (id : RecordId) (len : Nat) : Decidable (file.MapsAnew steps id len) :=
  inferInstanceAs (Decidable (_ ∧ _))

/-- How `_modify_row` ends where it does not return 0. -/
def Unmodified (before : DataFile) (steps : Nat) (id : RecordId) (len : Nat) (reason : Stop) (after : DataFile) : Prop :=
  reason = .failed ∧ ¬ before.MapsLinks steps id ∧ Aborted before after ∨
    before.MapsLinks steps id ∧ ¬ before.InPlace steps id len ∧
      (reason = .failed ∧ ¬ before.MapsAnew steps id len ∨ reason = .fault ∧ ¬ before.Granted len)

section Followed

variable {next : RecordId} (steps len : Nat)

theorem Followed.moves (followed : Followed file after id) (len : Nat) :
    after.moves len = file.moves len ∧ (after.Granted len ↔ file.Granted len) := by
  have moves : after.moves len = file.moves len := by simp only [DataFile.moves, followed.file]
  refine ⟨moves, ?_⟩
  rw [Granted, Granted, moves, followed.file, followed.supply]

theorem Followed.links (followed : Followed file after id) (migrated : rowMigrated (file.record id).flags = 1)
    (nextBlock : (file.record id).nextBlockId = next.blockId) (nextRow : (file.record id).nextRowIdx = next.rowIdx) :
    (after.MapsLinks steps next ↔ file.MapsLinks (steps + 1) id) ∧
      (after.MapsAnew steps next len ↔ file.MapsAnew (steps + 1) id len) := by
  simp only [MapsLinks, MapsAnew, linkBlocks_link next migrated nextBlock nextRow, (followed.moves len).1, followed.file,
    List.cons_append]
  exact ⟨followed.serves _ 0, and_congr_left' (followed.serves _ _)⟩

theorem Followed.here (followed : Followed file after id) (settled : rowMigrated (file.record id).flags ≠ 1) :
    file.MapsLinks (steps + 1) id ∧ (file.MapsAnew (steps + 1) id len → after.MapsRow len) := by
  simp only [MapsLinks, MapsAnew, MapsRow, DataFile.maps, linkBlocks_here settled, (followed.moves len).1, followed.file]
  refine ⟨(followed.serves [] 0).mp fun k below => absurd below (by simp [DataFile.unheld]), ?_⟩
  rintro ⟨serves, low⟩
  refine ⟨?_, low⟩
  have one : after.unheld [file.info.usedBlockCount] = if after.held file.info.usedBlockCount then 0 else 1 := by
    by_cases held : after.held file.info.usedBlockCount <;> simp [DataFile.unheld, Finset.filter_singleton, held]
  rw [← one]
  exact (followed.serves _ _).mpr serves

end Followed

/-- What a modification behind the first block of a row leaves is what it leaves from there on. -/
theorem Followed.modified {mid last : DataFile} {path' : List RecordId} {next : RecordId} (followed : Followed file mid id)
    (modified : Modified mid.mend last.mend next content path path') : Modified file.mend last.mend next content path path' := by
  have sameFile : mid.mend.toFile = file.mend.toFile := followed.file
  obtain ⟨ready, initOk, size, kept, holds, fresh⟩ := modified
  rw [sameFile] at size kept
  exact ⟨ready, initOk.trans followed.initOk, size, kept, holds, fun place member =>
    (fresh place member).imp_right fun new has => new (by rw [sameFile]; exact has)⟩

/-- The links of a migrated row were followed to the next one. -/
theorem Followed.unmodified {mid last : DataFile} {next : RecordId} {steps len : Nat} {reason : Stop} (followed : Followed file mid id)
    (migrated : rowMigrated (file.record id).flags = 1) (nextBlock : (file.record id).nextBlockId = next.blockId)
    (nextRow : (file.record id).nextRowIdx = next.rowIdx) (unmodified : mid.Unmodified steps next len reason last) :
    file.Unmodified (steps + 1) id len reason last := by
  obtain ⟨links, anew⟩ := followed.links steps len migrated nextBlock nextRow
  have settled : file.settled (steps + 1) id = file.settled steps next := File.settled_link next migrated nextBlock nextRow
  rcases unmodified with ⟨rfl, stopped, aborted⟩ | ⟨maps, moved, halted⟩
  · exact .inl ⟨rfl, fun maps => stopped (links.mpr maps), aborted.file.trans followed.file, aborted.junk.trans followed.junk,
      aborted.tame⟩
  · refine .inr ⟨links.mp maps, ?_, ?_⟩
    · rw [File.InPlace, settled]
      rwa [followed.file] at moved
    · exact halted.imp (And.imp_right fun short all => short (anew.mpr all))
        (And.imp_right fun short all => short ((followed.moves len).2.mpr all))

/-- The row is written anew where its links end. -/
theorem Followed.migrates {mid : DataFile} {steps : Nat} (followed : Followed file mid id) (has : file.Has id)
    (live : rowDeleted (file.record id).flags ≠ 1) (settled : rowMigrated (file.record id).flags ≠ 1) (row : Buf)
    (small : row.len < 2 ^ 31) (moved : ¬ file.InPlace (steps + 1) id row.len) :
    wp (Inner.migrateRow (.page id.page) id.rowIdx row) (fun _ after =>
        (∃ path', Modified file.mend after.mend id row.toList [id] path') ∧ file.MapsLinks (steps + 1) id ∧
          ∃ calls blocks, Took file after calls blocks) (file.Unmodified (steps + 1) id row.len) mid := by
  obtain ⟨links, anew⟩ := followed.here steps row.len settled
  have hasMid : mid.Has id := followed.file ▸ has
  have liveMid : rowDeleted (mid.record id).flags ≠ 1 := followed.file ▸ live
  refine (migrateRow_fit followed.took.fit hasMid liveMid row small).mono ?_ ?_
  · rintro _ after ⟨⟨path', modified⟩, took⟩
    exact ⟨⟨path', followed.modified modified⟩, links, _, _, followed.took.trans took⟩
  · intro reason after halted
    refine .inr ⟨links, moved, halted.imp (And.imp_right fun short all => short (anew all)) (And.imp_right fun short all => ?_)⟩
    exact short ((followed.moves row.len).2.mpr all)

/-- A block on the way cannot be mapped. -/
theorem not_mapsLinks {steps : Nat} (fit : file.Fit) (has : file.Has id) (unmapped : ¬ file.Maps id.blockId 0) :
    ¬ file.MapsLinks (steps + 1) id := by
  intro serves
  have low := has.mapped fit.formed
  have free : ¬ file.held id.blockId := fun held => unmapped (.inl held)
  refine unmapped (.inr ⟨serves 0 (Finset.card_pos.mpr ⟨id.blockId, ?_⟩), ?_⟩)
  · simp [File.linkBlocks, free]
  · rw [mapOffset_eq (by simp only [RecordId.blockId]; omega) (by simp only [RecordId.blockId]; omega)]
    simp only [RecordId.blockId]
    omega

/-- `_modify_row` of a row that is held: where its links end it writes the row in place or anew. -/
theorem innerModifyRow_fit {disk : File} (holds : disk.Holds id content path) :
    ∀ {file : DataFile} (steps : Nat) (row : Buf), file.toFile = disk → file.Fit → row.len < 2 ^ 31 → 2 ^ 28 - id.rank ≤ steps →
      wp (Inner.modifyRow steps id.blockId id.rowIdx row) (fun _ after =>
          (∃ path', Modified file.mend after.mend id
            (row.toList ++ List.replicate (disk.leftover steps id row.len) 0) path path') ∧
          file.MapsLinks steps id ∧ ∃ calls blocks, Took file after calls blocks)
        (file.Unmodified steps id row.len) file := by
  induction holds with
  | @moved id next content path has live migrated nextBlock nextRow later outside rest ih =>
    rintro file (_ | steps) row rfl fit small enough
    · have bound := has.rank_lt fit.formed
      omega
    · rw [Inner.modifyRow]
      refine openRecord_fit fit has (fun mid followed => ?_) fun after aborted unmapped =>
        .inl ⟨rfl, not_mapsLinks fit has unmapped, aborted⟩
      have links := (followed.links steps row.len migrated nextBlock nextRow).1
      rw [if_neg live, if_pos migrated, nextBlock, nextRow, File.leftover_link next migrated nextBlock nextRow]
      refine (ih steps row followed.file followed.took.fit small (by omega)).mono ?_ fun _ _ unmodified =>
        followed.unmodified migrated nextBlock nextRow unmodified
      rintro _ after ⟨⟨path', modified⟩, maps, calls, blocks, took⟩
      refine ⟨⟨id :: path', ?_⟩, links.mp maps, _, _, followed.took.trans took⟩
      exact (followed.modified modified).behind has live migrated nextBlock nextRow later outside
  | @chained id content path live settled chained chain =>
    rintro file (_ | steps) row rfl fit small enough
    · have bound := chain.has.rank_lt fit.formed
      omega
    · rw [Inner.modifyRow]
      refine openRecord_fit fit chain.has (fun mid followed => ?_) fun after aborted unmapped =>
        .inl ⟨rfl, not_mapsLinks fit chain.has unmapped, aborted⟩
      have none : file.leftover (steps + 1) id row.len = 0 := by
        simp [File.leftover, File.settled_here settled, chained]
      have moved : ¬ file.InPlace (steps + 1) id row.len := by
        simp [File.InPlace, File.settled_here settled, chained]
      rw [if_neg live, if_neg settled, if_pos (.inl chained), none, List.replicate_zero, List.append_nil]
      refine (followed.migrates chain.has live settled row small moved).mono ?_ fun _ _ unmodified => unmodified
      rintro _ after ⟨⟨path', modified⟩, rest⟩
      exact ⟨⟨path', modified.widen (by simpa using chain.head_mem)⟩, rest⟩
  | @whole id content live settled whole chain =>
    rintro file (_ | steps) row rfl fit small enough
    · have bound := chain.has.rank_lt fit.formed
      omega
    · rw [Inner.modifyRow]
      refine openRecord_fit fit chain.has (fun mid followed => ?_) fun after aborted unmapped =>
        .inl ⟨rfl, not_mapsLinks fit chain.has unmapped, aborted⟩
      have length := chain.length
      have left : file.leftover (steps + 1) id row.len = content.length - row.len := by
        simp [File.leftover, File.settled_here settled, whole, length]
      rw [if_neg live, if_neg settled, left]
      by_cases longer : (row.len : Int) > (file.record id).len
      · have moved : ¬ file.InPlace (steps + 1) id row.len := by
          simp only [File.InPlace, File.settled_here settled]
          omega
        rw [if_pos (.inr longer), show content.length - row.len = 0 by omega, List.replicate_zero, List.append_nil]
        exact followed.migrates chain.has live settled row small moved
      · rw [if_neg (not_or.mpr ⟨whole, longer⟩)]
        have links := (followed.here steps row.len settled).1
        have record : mid.record id = file.record id := by rw [followed.file]
        rw [← record] at live settled whole
        obtain ⟨cleared, after, clear, copy, modified, took⟩ :=
          inPlace_fit followed.took.fit (followed.file ▸ chain) live settled whole row (by omega)
        rw [record] at clear copy
        exact wp_bind_ok clear (wp_of_ok copy ⟨⟨[id], followed.modified modified⟩, links, _, _, followed.took.trans took⟩)

/-- A deleted row is refused. -/
theorem modifyRow_fit_deleted (fit : file.Fit) (has : file.Has id) (deleted : rowDeleted (file.record id).flags = 1) (row : Buf) :
    wp (modifyRow id.blockId id.rowIdx row) (fun _ _ => False)
      (fun reason after => reason = .failed ∧ (Followed file after id ∨ ¬ file.Maps id.blockId 0)) file := by
  have bound : stepBound = (stepBound - 1) + 1 := by decide
  rw [modifyRow, bound, Inner.modifyRow]
  refine openRecord_fit fit has (fun mid followed => ?_) fun _ _ unmapped => ⟨rfl, .inr unmapped⟩
  rw [if_pos deleted]
  exact wp_of_error rfl ⟨rfl, .inl followed⟩

/-- `delete_row` marks the record of the row, if its block is mapped. -/
theorem deleteRow_fit (fit : file.Fit) (has : file.Has id) : wp (deleteRow id.blockId id.rowIdx)
    (fun _ after => Edited file.mend after.mend id ∧ rowDeleted (after.record id).flags = 1 ∧
      Took file after (if file.held id.blockId then 0 else 1) 0)
    (fun reason _ => reason = .failed ∧ ¬ file.Maps id.blockId 0) file := by
  unfold deleteRow
  refine openRecord_fit fit has (fun mid followed => ?_) fun _ _ unmapped => ⟨rfl, unmapped⟩
  have hasMid : mid.Has id := followed.file ▸ has
  obtain ⟨_, mark, edited, record, _⟩ := setRecord_run followed.took.fit.mend_ready hasMid
    (fun record => { record with flags := rowSetDeleted record.flags })
    ⟨(record_fits mid.toFile id).offset, (record_fits mid.toFile id).len,
      (record_fits mid.toFile id).nextBlockId, (record_fits mid.toFile id).nextRowIdx⟩ rfl
  have counts := (setRecord_counts _ _ _ _).ok mark
  obtain ⟨after, mark', through, rfl⟩ := run_mend (confines_setRecord _ _ _) mark
  have forward := edited.linked counts (by rw [record]) (by rw [record])
  have marked : Took mid after 0 0 :=
    ⟨through.fit followed.took.fit edited.ready, through.smooth, by rw [through.used]; exact (Int.add_zero _).symm, forward⟩
  have deleted : rowDeleted (after.mend.record id).flags = 1 := by rw [record, rowDeleted_setDeleted]
  have sameFile : mid.mend.toFile = file.mend.toFile := followed.file
  obtain ⟨ready, initOk, info, size, has, ceiling, kept⟩ := edited
  rw [sameFile] at info size ceiling kept
  exact wp_of_ok mark' ⟨⟨ready, initOk.trans followed.initOk, info, size, has, ceiling, kept⟩, deleted, followed.took.trans marked⟩

end DataFile

end Pingkv
