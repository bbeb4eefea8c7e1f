import Pingkv.DataFile.Basic
import Pingkv.Lib.Region

/-! Block pointers: what `_read_block` returns, and the calls that go through a pointer.
These touch the content of blocks and nothing else, whatever the cache holds and
whatever the operating system would answer. -/

namespace Pingkv

namespace DataFile

open Exec Region

variable {blockId : Int} {cache : List (Int × BlockPtr)}

theorem mem_cachePut {block : BlockPtr} {entry : Int × BlockPtr}
    (member : entry ∈ cachePut blockId block cache) : entry = (blockId, block) ∨ entry ∈ cache := by
  induction cache with
  | nil => simpa [cachePut] using member
  | cons head rest ih =>
    obtain ⟨key, other⟩ := head
    simp only [cachePut] at member
    split at member
    · rcases List.mem_cons.mp member with same | old
      · exact .inl same
      · exact .inr (List.mem_cons_of_mem _ old)
    · split at member
      · rcases List.mem_cons.mp member with same | old
        · exact .inl same
        · exact .inr old
      · rcases List.mem_cons.mp member with same | old
        · exact .inr (same ▸ List.mem_cons_self)
        · exact (ih old).imp_right (List.mem_cons_of_mem _)

theorem cachePut_cachePut (first second : BlockPtr) (cache : List (Int × BlockPtr)) :
    cachePut blockId second (cachePut blockId first cache) = cachePut blockId second cache := by
  induction cache with
  | nil => simp [cachePut]
  | cons head rest ih =>
    obtain ⟨key, other⟩ := head
    by_cases same : blockId = key
    · simp [cachePut, same]
    · by_cases less : blockId < key
      · simp [cachePut, same, less]
      · simp [cachePut, same, less, ih]

theorem mem_of_lookup {block : BlockPtr}
    (found : cache.lookup blockId = some block) : (blockId, block) ∈ cache := by
  induction cache with
  | nil => simp at found
  | cons head rest ih =>
    obtain ⟨key, other⟩ := head
    rw [List.lookup_cons] at found
    split at found
    · rename_i same
      have key_eq : blockId = key := by simpa using same
      have block_eq : other = block := by simpa using found
      simp [key_eq, block_eq]
    · exact List.mem_cons_of_mem _ (ih found)

/-- The block at the offset that `_read_block` passes to `mmap`. -/
def mapped (blockId : Int) : BlockPtr := .page (mapOffset blockId / Pingkv.blockSize).toNat

/-- The cache once `operator[]` was applied to it. -/
def looked (cache : List (Int × BlockPtr)) (blockId : Int) : List (Int × BlockPtr) :=
  if (cache.lookup blockId).isSome then cache else cachePut blockId .null cache

/-- The object after a call into the operating system. -/
def called (file : DataFile) (call : OsCall) : DataFile := (osCall call file).2

theorem osCall_eq (file : DataFile) (call : OsCall) : osCall call file = (.ok (file.os call 0), file.called call) := rfl

/-- What `_flush_file_head` returns is not looked at. -/
theorem syncHead_run (file : DataFile) :
    attempt flushFileHead file = (.ok (if file.os .msync 0 then some () else none), file.called .msync) := by
  unfold Exec.attempt flushFileHead
  rw [bind_ok (osCall_eq file .msync)]
  cases file.os .msync 0 <;> rfl

private theorem map_run (file : DataFile) (blockId : Int) : (do
      if (← osCall .mmap) && decide (0 ≤ mapOffset blockId) then
        update fun file => { file with cache := cachePut blockId (mapped blockId) file.cache }
        return mapped blockId
      else return .mapFailed : Exec DataFile BlockPtr) file =
    if file.os .mmap 0 = true ∧ 0 ≤ mapOffset blockId then
      (.ok (mapped blockId), { file.called .mmap with cache := cachePut blockId (mapped blockId) file.cache })
    else (.ok .mapFailed, file.called .mmap) := by
  rw [bind_ok (osCall_eq file .mmap)]
  by_cases served : file.os .mmap 0 = true ∧ 0 ≤ mapOffset blockId
  · rw [if_pos served, if_pos (by simp [served.1, served.2])]
    rfl
  · rw [if_neg served, if_neg (by simpa using served)]
    rfl

/-- `_read_block` maps a block that the cache does not hold, or holds as null. -/
theorem readBlock_run (file : DataFile) (blockId : Int) : readBlock blockId file =
    if (file.cache.lookup blockId).getD .null = .null then
      if file.os .mmap 0 = true ∧ 0 ≤ mapOffset blockId then
        (.ok (mapped blockId), { file.called .mmap with cache := cachePut blockId (mapped blockId) file.cache })
      else (.ok .mapFailed, { file.called .mmap with cache := looked file.cache blockId })
    else (.ok ((file.cache.lookup blockId).getD .null), file) := by
  cases found : file.cache.lookup blockId with
  | none =>
    have entered : cacheAt blockId file = (.ok .null, { file with cache := cachePut blockId .null file.cache }) := by
      rw [cacheAt, read_bind_run, found]
      rfl
    have looks : looked file.cache blockId = cachePut blockId .null file.cache := by
      rw [looked, found]
      rfl
    rw [readBlock, bind_ok entered, if_pos rfl, Option.getD_none, if_pos rfl, looks,
      ← cachePut_cachePut .null (mapped blockId) file.cache]
    exact map_run { file with cache := cachePut blockId .null file.cache } blockId
  | some block =>
    have entered : cacheAt blockId file = (.ok block, file) := by
      rw [cacheAt, read_bind_run, found]
      rfl
    have looks : looked file.cache blockId = file.cache := by
      rw [looked, found]
      rfl
    rw [readBlock, bind_ok entered, Option.getD_some, looks]
    by_cases null : block = .null
    · rw [if_pos null, if_pos null]
      exact map_run file blockId
    · rw [if_neg null, if_neg null]
      rfl

/-- What the blocks hold, next to their numbers and the size of the file. -/
def blocks : Region DataFile (Nat × (Nat → Int)) (Nat → Int × Mem) where
  look file := (file.size, fun page => (file.block page).blockId)
  view file := fun page => ((file.block page).recordCount, (file.block page).data)
  put contents file := { file with
    block := fun page => ⟨(file.block page).blockId, (contents page).1, (contents page).2⟩ }
  look_put _ _ := rfl
  view_put _ _ := rfl
  put_put _ _ _ := rfl
  put_view _ := rfl

theorem confines_load (block : BlockPtr) : blocks.Confines (load block) := by
  unfold load
  split
  · have size : blocks.Confines (read fun file : DataFile => file.size) :=
      confines_read (fun (look : Nat × (Nat → Int)) _ => look.1) fun _ => rfl
    refine size.bind fun size => confines_ite ?_ (confines_stop _)
    exact confines_read (fun (look : Nat × (Nat → Int)) contents => ⟨look.2 _, (contents _).1, (contents _).2⟩) fun _ => rfl
  · exact confines_stop _

/-- Only a block of the file can be read. -/
theorem wp_load (block : BlockPtr) (file : DataFile) : wp (load block)
    (fun content after => after = file ∧ ∃ page, block = .page page ∧ 0 < page ∧ page < file.size ∧ content = file.block page)
    (fun reason after => after = file ∧ reason = .fault) file := by
  cases block with
  | page page =>
    rw [load]
    refine wp_bind_ok (read_run _ file) ?_
    split
    · rename_i inside
      exact ⟨rfl, page, rfl, inside.1, inside.2, rfl⟩
    · exact ⟨rfl, rfl⟩
  | null | mapFailed | dangling => exact ⟨rfl, rfl⟩

theorem wp_rowGetRecord {σ : Type} (block : Block) (idx : Int) (state : σ) : wp (rowGetRecord block idx)
    (fun record after => after = state ∧ 1 ≤ idx ∧ record = recordAt block.data (idx - 1).toNat)
    (fun _ after => after = state) state := by
  unfold rowGetRecord
  split
  · exact wp_of_error rfl rfl
  · split
    · exact wp_pure ⟨rfl, by omega, rfl⟩
    · exact wp_of_error rfl rfl

/-- `_block_free_bytes` only looks, and only at a mapped block. -/
theorem blockFreeBytes_looks (block : BlockPtr) (file : DataFile) : wp (blockFreeBytes block)
    (fun _ after => after = file ∧ ∃ page, block = .page page ∧ 0 < page ∧ page < file.size) (fun _ after => after = file)
    file := by
  unfold blockFreeBytes
  refine wp_bind ((wp_load block file).mono (fun _ _ loaded => loaded) fun _ _ halted => halted.1) ?_
  rintro content after ⟨rfl, page, isPage, positive, within, _⟩
  have mapped : ∃ page, block = .page page ∧ 0 < page ∧ page < after.size := ⟨page, isPage, positive, within⟩
  refine wp.mono ?_ (fun _ _ same => ⟨same, same ▸ mapped⟩) fun _ _ same => same
  split
  · exact wp_pure rfl
  · have found : wp (rowGetRecord content content.recordCount) (fun _ left => left = after) (fun _ left => left = after) after :=
      (wp_rowGetRecord content _ after).mono (fun _ _ found => found.1) fun _ _ same => same
    have attempted : wp (attempt (rowGetRecord content content.recordCount)) (fun _ left => left = after)
        (fun _ left => left = after) after := wp_attempt found (fun _ _ same => same) fun _ same => same
    refine wp_bind attempted ?_
    rintro last _ rfl
    cases last with
    | none => exact wp_pure rfl
    | some last =>
      dsimp only
      split <;> exact wp_pure rfl

section Edit

variable {α : Type} (page : Nat) (fits : Block → Prop) [DecidablePred fits] (count : Block → Int) (data : Block → Mem)
  (value : Block → α)

private def seen (look : Nat × (Nat → Int)) (contents : Nat → Int × Mem) : Block :=
  ⟨look.2 page, (contents page).1, (contents page).2⟩

private def edit (look : Nat × (Nat → Int)) (contents : Nat → Int × Mem) : Except Stop α × (Nat → Int × Mem) :=
  if (0 < page ∧ page < look.1) ∧ fits (seen page look contents) then
    (.ok (value (seen page look contents)), fun other =>
      if other = page then (count (seen page look contents), data (seen page look contents)) else contents other)
  else (.error .fault, contents)

/-- A block that is read and written back, under its own number. -/
private theorem confines_edit (block : BlockPtr) : blocks.Confines (do
    let content ← load block
    if fits content then do
      store block { content with recordCount := count content, data := data content }
      return value content
    else fault : Exec DataFile α) := by
  cases block with
  | page page =>
    refine ⟨edit page fits count data value, fun file => ?_⟩
    have look : blocks.look file = (file.size, fun page => (file.block page).blockId) := rfl
    have block : seen page (blocks.look file) (blocks.view file) = file.block page := rfl
    by_cases inside : 0 < page ∧ page < file.size
    · have loaded : load (.page page) file = (.ok (file.block page), file) := by simp [load, inside]
      rw [bind_ok loaded]
      by_cases fit : fits (file.block page)
      · have stored (content : Block) : store (.page page) content file = (.ok (),
            { file with block := fun other => if other = page then content else file.block other }) := by simp [store, inside]
        rw [if_pos fit, bind_ok (stored _), edit, if_pos ⟨inside, fit⟩]
        refine Prod.ext rfl (congrArg (fun block => { file with block := block }) (funext fun other => ?_))
        dsimp only
        split
        · rename_i same
          subst same
          rfl
        · rfl
      · rw [if_neg fit, edit, if_neg fun both => fit both.2]
        rfl
    · have crashed : load (.page page) file = (.error .fault, file) := by simp [load, inside]
      rw [bind_error crashed, edit, if_neg fun both => inside both.1]
      rfl
  | null | mapFailed | dangling => exact confines_const fun _ => rfl

end Edit

theorem confines_rowGetRecord (block : Block) (idx : Int) : blocks.Confines (rowGetRecord block idx) :=
  confines_ite (confines_stop _) (confines_ite (confines_pure _) (confines_stop _))

theorem confines_setRecord (block : BlockPtr) (idx : Int) (change : RecordIndex → RecordIndex) :
    blocks.Confines (setRecord block idx change) := by
  have edits := confines_edit (fun _ => 1 ≤ idx ∧ recordIndexLen * idx ≤ dataLen) Block.recordCount
    (fun content => putRecord content.data (idx - 1).toNat (change (recordAt content.data (idx - 1).toNat))) (fun _ => ()) block
  simp only [bind_pure_unit] at edits
  exact edits

theorem confines_copyInto (block : BlockPtr) (offset : Int) (src : Mem) (count : Int) :
    blocks.Confines (copyInto block offset src count) := by
  have edits := confines_edit (fun _ => 0 ≤ offset ∧ 0 ≤ count ∧ offset + count ≤ dataLen) Block.recordCount
    (fun content => content.data.copy offset.toNat src count.toNat) (fun _ => ()) block
  simp only [bind_pure_unit] at edits
  exact edits

theorem confines_blockFreeBytes (block : BlockPtr) : blocks.Confines (blockFreeBytes block) := by
  refine (confines_load block).bind fun content => confines_ite (confines_pure _) ?_
  refine (confines_rowGetRecord content _).attempt.bind fun last => ?_
  split
  · exact confines_pure _
  · exact confines_ite (confines_pure _) (confines_pure _)

theorem confines_rowAddRecord (block : BlockPtr) (len : Int) (chained : Bool) :
    blocks.Confines (rowAddRecord block len chained) :=
  confines_edit (fun content => recordIndexLen * (content.recordCount + 1) ≤ dataLen ∧ 0 < content.recordCount + 1)
    (fun content => content.recordCount + 1) _ (fun content => content.recordCount + 1) block

theorem confines_rowGetLenInBlock (block : Block) (idx : Int) : blocks.Confines (rowGetLenInBlock block idx) := by
  refine (confines_rowGetRecord block idx).bind fun record => Confines.bind ?_ fun next => ?_
  · exact confines_ite ((confines_rowGetRecord block _).bind fun _ => confines_pure _) (confines_pure _)
  · exact confines_ite (confines_pure _) (confines_pure _)

theorem confines_copyOut (block : Block) (offset count : Int) (row : Buf) (place : Int) :
    blocks.Confines (copyOut block offset count row place) := confines_ite (confines_pure _) (confines_stop _)

theorem confines_writeError {α : Type} (block : BlockPtr) : blocks.Confines (writeError block : Exec DataFile α) :=
  (confines_load block).bind fun _ => confines_stop _

end DataFile

end Pingkv
