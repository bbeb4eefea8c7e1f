import Pingkv.DataFile.FitModify
import Pingkv.DataFile.HeadPointers
import Pingkv.DataFile.Unmapped

/-! The public methods with block ids and row indices of any origin. An id leads to a data
block, to no block at all, or to the file head; a call that changes no record of the head
keeps the blocks in order and all links leading forward. -/

namespace Pingkv

namespace DataFile

open Exec

variable {file after last : DataFile} {blockId idx : Int} {page : Nat} {id : RecordId}

/-- What all calls keep. -/
structure Intact (file : DataFile) : Prop where
  formed : file.toFile.Formed
  forward : file.toFile.Forward
  tame : file.Tame
  served : file.Served

/-- What holds behind a call that comes back. -/
def Sound (file : DataFile) : Prop := file.Intact ∨ file.toFile.Outgrown

namespace Intact

theorem ready (intact : file.Intact) : file.mend.Ready :=
  ⟨intact.formed, fun _ member => absurd member List.not_mem_nil, fun _ _ _ => rfl⟩

theorem twin (intact : file.Intact) : Twin file file.mend :=
  ⟨rfl, rfl, ⟨intact.tame, fun _ member => absurd member List.not_mem_nil⟩, intact.served, fun _ _ => rfl⟩

/-- Calls that the object does as its model does are judged by what the model does to the mended object. -/
theorem mirrored {α : Type} {call model : Exec DataFile α} (intact : file.Intact) (mirrors : Mirrors Twin call model)
    (holds : wp model (fun _ last => last.toFile.Formed ∧ last.toFile.Forward ∨ last.toFile.Outgrown)
      (fun reason last => reason ≠ .fault ∧ last.toFile.Outgrown) file.mend) :
    wp call (fun _ => Sound) (fun reason last => reason = .failed → last.Sound) file := by
  refine wp_of_returned fun after came => ?_
  obtain ⟨last, same, left⟩ := mirrors.returned intact.twin (holds.mono (fun _ _ left => left)
    fun _ _ halted => ⟨halted.1, fun _ => .inr halted.2⟩) came
  have disk := same.file
  rw [← disk] at left
  exact left.imp_left fun both => ⟨both.1, both.2, same.tame.1, same.served.1⟩

end Intact

/-- A block with free bytes is found where the used one has some or is not the last one that can be mapped. -/
theorem Found.hasRoom {block : BlockPtr} {fre : Int} (found : Found file after block fre) (formed : file.toFile.Formed) :
    file.toFile.HasRoom := by
  by_contra none
  obtain ⟨full, last⟩ := not_or.mp none
  have full : (file.block file.current).free = 0 := not_not.mp full
  have upper := found.ready.formed.used_mapped
  have current := found.ready.formed.current_eq
  have current' := formed.current_eq
  have used := found.opens.used
  have same : after.current = file.current := by omega
  have positive := found.positive
  rw [found.free, same, found.opens.kept _ formed.current_within, full] at positive
  exact absurd positive (lt_irrefl _)

/-- Reading through a pointer changes nothing. -/
theorem load_any (block : BlockPtr) (file : DataFile) : wp (@load anyPointers block) (fun _ after => after = file)
    (fun reason after => after = file ∧ reason = .fault) file := by
  cases block with
  | page page =>
    refine wp_bind_ok (read_run _ file) ?_
    split
    · exact wp_of_ok (read_run _ file) rfl
    · refine wp_bind_ok (read_run _ file) ?_
      split
      · exact wp_of_ok (read_run _ file) rfl
      · exact ⟨rfl, rfl⟩
  | null | mapFailed | dangling => exact ⟨rfl, rfl⟩

/-- The error exit of the row writers changes nothing and returns no row id. -/
theorem writeError_any {α : Type} (block : BlockPtr) (file : DataFile) : wp (@writeError anyPointers α block) (fun _ _ => False)
    (fun reason after => reason = .failed → after = file) file := by
  refine wp_bind ((load_any block file).mono (fun _ _ same => same) ?_) fun _ _ same _ => same
  rintro _ _ ⟨rfl, rfl⟩ _
  rfl

theorem Intact.writeRow (intact : file.Intact) (row : Buf) (small : row.len < 2 ^ 31) :
    wp (@writeRow anyPointers row) (fun _ => Sound) (fun reason last => reason = .failed → last.Sound) file := by
  by_cases room : file.toFile.HasRoom
  · refine intact.mirrored (mirrors_writeRow row) ?_
    refine ((writeRow_ready intact.ready row small).and (writeRow_fit intact.ready.fit row small)).mono ?_ ?_
    · rintro _ last ⟨⟨_, _, _, placed, _⟩, _, _, _, _, _, took⟩
      exact .inl ⟨placed.ready.formed, took.forward intact.forward⟩
    · rintro reason last ⟨⟨outgrown, failed⟩, _⟩
      exact ⟨by rw [failed room]; decide, outgrown⟩
  · obtain ⟨block, fre, mid, ran, ⟨⟨refused, outgrown⟩, _⟩ | found⟩ := findBlockWithin_ready intact.ready
    · obtain ⟨mid', ran', same⟩ := (mirrors_findBlockWithin stepBound).run intact.twin (ran (stepBound - 1)) (by simp)
      have disk := same.file
      refine wp_bind_ok ran' ?_
      dsimp only
      rw [if_pos refused]
      refine wp_bind ((writeError_any block mid').mono (fun _ _ never => never) ?_) fun _ _ never => never.elim
      intro _ after left failed
      rw [left failed]
      exact .inr (disk ▸ outgrown)
    · exact absurd (found.hasRoom intact.formed) room

theorem Intact.writeRowNewBlock (intact : file.Intact) (row : Buf) (small : row.len < 2 ^ 31) :
    wp (@writeRowNewBlock anyPointers row) (fun _ => Sound) (fun reason last => reason = .failed → last.Sound) file := by
  have ready := intact.ready
  by_cases more : file.info.usedBlockCount < 262144
  · refine intact.mirrored (mirrors_writeRowNewBlock row) ?_
    refine ((writeRowNewBlock_ready ready row small).and (writeRowNewBlock_fit ready.fit row small)).mono ?_ ?_
    · rintro _ last ⟨⟨_, _, _, _, _, placed⟩, _, _, _, _, _, _, took⟩
      exact .inl ⟨placed.ready.formed, took.forward intact.forward⟩
    · rintro reason last ⟨outgrown, halted⟩
      refine ⟨?_, outgrown⟩
      rcases halted with ⟨rfl, _⟩ | ⟨_, unmapped | short⟩
      · decide
      · have lower := intact.formed.used_lower
        have upward : 0 ≤ mapOffset (file.info.usedBlockCount + 1) := by
          rw [mapOffset_eq (by omega) (by omega)]
          omega
        exact absurd (.inr ⟨rfl, upward⟩) unmapped
      · exact absurd ((ready.fit.ample (fun _ => rfl) fun _ => rfl).grants _) short
  · obtain ⟨mid, extended, readyMid, _, _, used, room⟩ := extendWhenUsed_run ready
    obtain ⟨block, opened, next, ⟨⟨rfl, _⟩, _⟩ | ⟨_, low⟩⟩ := readNextBlock_run readyMid room
    · obtain ⟨mid', extended', same⟩ := mirrors_extendWhenUsed.run intact.twin extended (by simp)
      obtain ⟨opened', next', _⟩ := mirrors_readNextBlock.run same next (by simp)
      refine wp_bind_ok extended' (wp_bind_ok next' ?_)
      rw [if_pos rfl]
      exact wp_of_error rfl fun impossible => by cases impossible
    · rw [used] at low
      exact absurd low more

/-- The block ids that lead to the file head: `(block_id - 1) * 8192` is a multiple of `2 ^ 32`. -/
def AtHead (blockId : Int) : Prop := blockId % 2 ^ 19 = 1

instance (blockId : Int) : Decidable (AtHead blockId) := inferInstanceAs (Decidable (_ = _))

/-- A block id and a row index that name no record of the file head, taken as a data block. -/
def SparesHead (file : File) (blockId idx : Int) : Prop := AtHead blockId → idx < 1 ∨ idx > file.headBlock.recordCount

instance (file : File) (blockId idx : Int) : Decidable (SparesHead file blockId idx) :=
  inferInstanceAs (Decidable (_ → _ ∨ _))

theorem mapOffset_emod (blockId : Int) : mapOffset blockId % 2 ^ 32 = (blockId - 1) * 8192 % 2 ^ 32 := by
  rw [mapOffset, wrap_eq_bmod]
  exact Int.bmod_emod

/-- An id that has an address at all has that of the file head or of a data block. -/
theorem address_cases (upward : 0 ≤ mapOffset blockId) :
    AtHead blockId ∧ mapped blockId = .page 0 ∨ ∃ page, 0 < page ∧ mapped blockId = .page page := by
  have offset := mapOffset_emod blockId
  by_cases head : AtHead blockId
  · refine .inl ⟨head, congrArg BlockPtr.page ?_⟩
    simp only [AtHead, Pingkv.blockSize] at *
    have bounds := wrap_32_bounds ((blockId - 1) * 8192)
    simp only [mapOffset, Pingkv.blockSize] at *
    omega
  · refine .inr ⟨_, ?_, rfl⟩
    simp only [AtHead, Pingkv.blockSize] at *
    omega

/-- What is linked to a record of an intact file is a data block. -/
theorem Intact.link (intact : file.Intact) (has : file.Has id) : ¬ AtHead (file.record id).nextBlockId := by
  by_cases none : (file.record id).nextBlockId = 0
  · rw [none]
    decide
  · obtain ⟨next, hasNext, _, block, _⟩ := intact.forward id has (.inl none)
    have positive := hasNext.positive
    have mapped := hasNext.mapped intact.formed
    rw [block, AtHead, RecordId.blockId]
    omega

/-- The head of a file, through a pointer to it. -/
theorem load_head (present : 0 < file.size) : @load anyPointers (.page 0) file = (.ok file.headBlock, file) := by
  refine (bind_ok (read_run _ file)).trans ?_
  rw [if_neg (by simp)]
  refine (bind_ok (read_run _ file)).trans ?_
  exact congrFun (if_pos ⟨rfl, rfl, present⟩) file

theorem rowGetRecord_refused {content : Block} (range : idx < 1 ∨ idx > content.recordCount) (file : DataFile) :
    rowGetRecord content idx file = (.error .failed, file) := by
  rw [rowGetRecord, if_pos range]
  rfl

/-- What `_modify_row` and `_delete_row` begin with: an id that leads to no record makes them return -1 or crash. -/
theorem Intact.openRecord (intact : file.Intact) (spares : SparesHead file.toFile blockId idx) {α : Type}
    {next : BlockPtr → Block → RecordIndex → Exec DataFile α}
    (found : ∀ id opened, opened.Intact → opened.Has id → id.rowIdx = idx →
      wp (next (.page id.page) (opened.block id.page) (opened.record id)) (fun _ => Sound)
        (fun reason last => reason = .failed → last.Sound) opened) : wp (do
      let block ← readBlock blockId
      if block = BlockPtr.mapFailed then failed
      let content ← @load anyPointers block
      let record ← rowGetRecord content idx
      next block content record) (fun _ => Sound) (fun reason last => reason = .failed → last.Sound) file := by
  obtain ⟨opened, ran, disk, _, tame, served⟩ := readBlock_served intact.tame intact.served blockId
  have kept : opened.Intact := ⟨disk ▸ intact.formed, disk ▸ intact.forward, tame, served⟩
  refine wp_bind_ok ran ?_
  by_cases upward : 0 ≤ mapOffset blockId
  · rw [if_pos upward]
    obtain ⟨head, place⟩ | ⟨page, positive, place⟩ := address_cases upward
    · rw [place, if_neg (by simp)]
      have size := kept.formed.size_eq
      have used := kept.formed.used_lower
      have used' := kept.formed.used_upper
      have range : idx < 1 ∨ idx > opened.headBlock.recordCount := disk ▸ spares head
      refine wp_bind_ok (load_head (by omega)) ?_
      exact wp_of_error (bind_error (rowGetRecord_refused range opened)) fun _ => .inl kept
    rw [place, if_neg (by simp)]
    by_cases within : page < opened.size
    · refine wp_bind_ok (@load_page _ _ anyPointers positive within) ?_
      by_cases range : idx < 1 ∨ idx > (opened.block page).recordCount
      · exact wp_of_error (bind_error (rowGetRecord_refused range opened)) fun _ => .inl kept
      · have count := (kept.formed.block page positive within).count_eq
        have has : opened.Has ⟨page, (idx - 1).toNat⟩ := ⟨positive, within, by simp only; omega⟩
        have index : RecordId.rowIdx ⟨page, (idx - 1).toNat⟩ = idx := by simp only [RecordId.rowIdx]; omega
        have record := rowGetRecord_record opened kept.ready has
        rw [index] at record
        exact wp_bind_ok record (found _ opened kept has index)
    · refine wp_of_error (bind_error (show @load anyPointers (.page page) opened = (.error .fault, opened) from ?_))
        fun impossible => by cases impossible
      have offPage : ¬ page = 0 := by omega
      simp [load, loadHead, within, offPage]
  · rw [if_neg upward, if_pos rfl]
    exact wp_of_error rfl fun _ => .inl kept

theorem Intact.deleteRow (intact : file.Intact) (spares : SparesHead file.toFile blockId idx) :
    wp (@deleteRow anyPointers blockId idx) (fun _ => Sound) (fun reason last => reason = .failed → last.Sound) file := by
  refine intact.openRecord spares fun id opened kept has index => ?_
  refine kept.mirrored (mirrors_setRecord _ _ _) ?_
  obtain ⟨last, ran, edited, record, _⟩ := setRecord_run kept.ready has
    (fun record => { record with flags := rowSetDeleted record.flags })
    ⟨(record_fits opened.toFile id).offset, (record_fits opened.toFile id).len,
      (record_fits opened.toFile id).nextBlockId, (record_fits opened.toFile id).nextRowIdx⟩ rfl
  have counts := (setRecord_counts _ _ _ _).ok ran
  rw [← index]
  exact wp_of_ok ran (.inl ⟨edited.ready.formed, edited.linked counts (by rw [record]) (by rw [record]) kept.forward⟩)

/-- Bytes that are copied into a block above its index array leave the blocks laid out, whatever record they belong to. -/
theorem Intact.copyInto (intact : file.Intact) (positive : 0 < page) (within : page < file.size) {offset : Int}
    (above : 16 * (file.block page).recordCount ≤ offset) (src : Mem) (count : Int) :
    wp (@copyInto anyPointers (.page page) offset src count)
      (fun _ after => after.Intact ∧ after.size = file.size ∧ (after.block page).recordCount = (file.block page).recordCount)
      (fun reason _ => reason = .fault) file := by
  refine wp_bind_ok (@load_page _ _ anyPointers positive within) ?_
  split
  · have start : 16 * (file.block page).recordCount ≤ (offset.toNat : Int) := by omega
    have shape := intact.formed.block page positive within
    let copied := (file.block page).copyData offset.toNat src count.toNat
    have counts : file.toFile.Counts (file.toFile.put page copied) := by
      refine ⟨rfl, fun other => ?_⟩
      by_cases here : other = page
      · rw [here, File.put_block_same]
        rfl
      · rw [File.put_block_ne here]
    refine wp_of_ok (@store_put _ _ _ anyPointers positive within) ⟨⟨?_, fun id has => ?_, intact.tame, intact.served⟩, rfl, counts.count page⟩
    · exact intact.formed.put rfl (shape.copyData start) (.inr rfl)
    · have old := counts.has.mp has
      have same : (file.toFile.put page copied).record id = file.record id := by
        by_cases here : id.page = page
        · have placed := old.placed
          simp only [File.record, here, File.put_block_same] at placed ⊢
          exact Block.copyData_record shape start placed
        · simp only [File.record, File.put_block_ne here]
      change (file.toFile.put page copied).Linked id ((file.toFile.put page copied).record id)
      rw [same]
      exact (intact.forward id old).mono fun _ => counts.has.mpr
  · rfl

theorem Intact.innerModifyRow (steps : Nat) : ∀ {file : DataFile} {blockId : Int} (idx : Int) (row : Buf), file.Intact →
    SparesHead file.toFile blockId idx → row.len < 2 ^ 31 → wp (@Inner.modifyRow anyPointers steps blockId idx row) (fun _ => Sound)
      (fun reason last => reason = .failed → last.Sound) file := by
  induction steps with
  | zero => exact fun _ _ _ _ _ impossible => by cases impossible
  | succ steps ih =>
    intro file blockId idx row intact spares small
    refine intact.openRecord spares fun id opened kept has index => ?_
    split
    · exact wp_of_error rfl fun _ => .inl kept
    rename_i live
    split
    · exact ih _ row kept (fun head => absurd head (kept.link has)) small
    split
    · refine kept.mirrored (mirrors_migrateRow _ _ row) ?_
      have ready := kept.ready
      rw [← index]
      refine ((migrateRow_ready ready has live row small).and (migrateRow_fit ready.fit has live row small)).mono ?_ ?_
      · rintro _ last ⟨⟨_, modified⟩, _, took⟩
        exact .inl ⟨modified.ready.formed, took.forward kept.forward⟩
      · rintro _ last ⟨⟨rfl, outgrown⟩, _⟩
        exact ⟨by decide, outgrown⟩
    · -- The row may be a piece of another one, but both copies start at its record, above the index array.
      have bounds := has.bounds kept.formed
      have crash (after : DataFile) : Stop.fault = .failed → after.Sound := fun impossible => by cases impossible
      refine wp_bind ((kept.copyInto has.positive has.within (by omega) _ _).mono (fun _ _ copied => copied)
        fun _ after faulted => faulted ▸ crash after) ?_
      rintro _ mid ⟨kept', size, count⟩
      refine (kept'.copyInto has.positive (size ▸ has.within) (by rw [count]; omega) _ _).mono
        (fun _ _ copied => .inl copied.1) fun _ after faulted => faulted ▸ crash after

section Reading

theorem keeps_readBlock (blockId : Int) : Keeps Intact (readBlock blockId) := by
  intro file intact
  obtain ⟨after, ran, disk, _, tame, served⟩ := readBlock_served intact.tame intact.served blockId
  exact wp_of_ok ran ⟨disk ▸ intact.formed, disk ▸ intact.forward, tame, served⟩

theorem keeps_load (block : BlockPtr) : Keeps Intact (@load anyPointers block) := fun file intact =>
  (load_any block file).mono (fun _ _ same => same ▸ intact) fun _ _ same => same.1 ▸ intact

theorem keeps_rowGetRecord (content : Block) (idx : Int) : Keeps Intact (rowGetRecord content idx) :=
  keeps_ite (keeps_stop _) (keeps_ite (keeps_pure _) (keeps_stop _))

theorem keeps_rowGetLenInBlock (content : Block) (idx : Int) : Keeps Intact (rowGetLenInBlock content idx) := by
  refine (keeps_rowGetRecord content idx).bind fun record => ?_
  refine Keeps.bind (keeps_ite ((keeps_rowGetRecord content _).bind fun _ => keeps_pure _) (keeps_pure _)) fun _ => ?_
  exact keeps_ite (keeps_pure _) (keeps_pure _)

theorem keeps_copyOut (content : Block) (offset count : Int) (row : Buf) (place : Int) :
    Keeps Intact (copyOut content offset count row place) := keeps_ite (keeps_pure _) (keeps_stop _)

theorem keeps_readChain (steps : Nat) : ∀ (content : Block) (idx : Int) (record : RecordIndex) (remain : Int) (row : Buf)
    (place : Int), Keeps Intact (@readChain anyPointers steps content idx record remain row place) := by
  induction steps with
  | zero => exact fun _ _ _ _ _ _ => keeps_stop _
  | succ steps ih =>
    intro content idx record remain row place
    refine (keeps_rowGetLenInBlock content idx).bind fun readLen => ?_
    refine (keeps_copyOut content _ _ row place).bind fun row => keeps_ite ?_ (keeps_pure _)
    refine (keeps_readBlock _).bind fun block => keeps_ite (keeps_stop _) ((keeps_load block).bind fun content => ?_)
    exact (keeps_rowGetRecord content _).bind fun next => ih content _ next _ row _

theorem keeps_innerReadRow (steps : Nat) : ∀ blockId idx : Int, Keeps Intact (@Inner.readRow anyPointers steps blockId idx) := by
  induction steps with
  | zero => exact fun _ _ => keeps_stop _
  | succ steps ih =>
    intro blockId idx
    refine (keeps_readBlock blockId).bind fun block => keeps_ite (keeps_stop _) ((keeps_load block).bind fun content => ?_)
    refine (keeps_rowGetRecord content idx).bind fun record => ?_
    refine keeps_ite (keeps_pure _) (keeps_ite (ih _ _) (keeps_ite (keeps_stop _) ?_))
    have drawn : Keeps Intact uninitialised := fun _ intact => ⟨intact.formed, intact.forward, intact.tame, intact.served⟩
    refine drawn.bind fun _ => keeps_ite ?_ ?_
    · exact (keeps_readChain _ content idx record _ _ _).bind fun _ => keeps_pure _
    · exact (keeps_copyOut content _ _ _ _).bind fun _ => keeps_pure _

end Reading

private theorem flushOutBlock_any (key : Int) (block : BlockPtr) (served : file.Served) : wp (@flushOutBlock anyPointers key block)
    (fun _ after => after.toFile = file.toFile ∧ after.Served) (fun reason _ => reason = .fault) file := by
  unfold flushOutBlock
  split
  · exact ⟨rfl, served⟩
  · refine wp_bind ((load_any block file).mono (fun _ _ same => same) fun _ _ halted => halted.2) ?_
    rintro content _ rfl
    refine wp_bind_ok (osCall_eq _ .munmap) ?_
    rw [if_pos (served .munmap 0)]
    exact ⟨rfl, served.called .munmap⟩

/-- Where `flush_blocks` comes back every block was unmapped. -/
theorem Intact.flushBlocks (intact : file.Intact) :
    wp (@flushBlocks anyPointers) (fun _ => Intact) (fun reason _ => reason ≠ .failed) file := by
  have loop (steps : Nat) : ∀ mid : DataFile, mid.toFile = file.toFile → mid.Served →
      wp (@flushOutLoop anyPointers steps) (fun _ => Intact) (fun reason _ => reason ≠ .failed) mid := by
    induction steps with
    | zero => exact fun _ _ _ exhausted => by cases exhausted
    | succ steps ih =>
      intro mid disk served
      refine wp_bind_ok (read_run _ mid) ?_
      cases cache : mid.cache with
      | nil =>
        have tame : mid.Tame := fun entry member => absurd (cache ▸ member) List.not_mem_nil
        exact wp_pure ⟨disk ▸ intact.formed, disk ▸ intact.forward, tame, served⟩
      | cons entry rest =>
        refine wp_bind ((flushOutBlock_any entry.1 entry.2 served).mono (fun _ _ kept => kept) ?_) ?_
        · rintro _ _ rfl failed
          cases failed
        · rintro _ after ⟨same, served⟩
          exact ih after (same.trans disk) served
  exact loop stepBound file rfl intact.served

end DataFile

end Pingkv
