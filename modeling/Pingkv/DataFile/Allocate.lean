import Pingkv.DataFile.Invariant

/-! How a data file grows, and how the block to write to is found. -/

namespace Pingkv

/-- The page of the block that `used_block_count` names. -/
def File.current (file : File) : Nat := (file.info.usedBlockCount - 1).toNat

/-- A row has a block to go to: the used one has bytes free, or one more can be mapped. -/
def File.HasRoom (file : File) : Prop := (file.block file.current).free ≠ 0 ∨ file.info.usedBlockCount < 262144

namespace File.Formed

variable {file : File}

theorem current_eq (formed : file.Formed) : (file.current : Int) + 1 = file.info.usedBlockCount := by
  have lower := formed.used_lower
  unfold current
  omega

theorem current_positive (formed : file.Formed) : 0 < file.current := by
  have lower := formed.used_lower
  unfold current
  omega

theorem current_within (formed : file.Formed) : file.current < file.size := by
  have same := formed.current_eq
  have upper := formed.used_upper
  have size := formed.size_eq
  omega

theorem current_mapped (formed : file.Formed) : file.current < 262144 := by
  have same := formed.current_eq
  have mapped := formed.used_mapped
  omega

theorem current_block (formed : file.Formed) : (file.block file.current).Formed :=
  formed.block _ formed.current_positive formed.current_within

/-- Records stand in blocks up to the used one. -/
theorem page_le_current (formed : file.Formed) {page : Nat} (within : page < file.size)
    (some : (file.block page).recordCount ≠ 0) : page ≤ file.current := by
  have same := formed.current_eq
  by_contra above
  exact some (formed.unused page (by omega) within)

end File.Formed

namespace DataFile

open Exec

variable {file after : DataFile} {page : Nat}

theorem rowGetRecord_run {σ : Type} {block : Block} {idx : Int} (state : σ) (formed : block.Formed)
    (lower : 1 ≤ idx) (upper : idx ≤ block.recordCount) :
    rowGetRecord block idx state = (.ok (recordAt block.data (idx - 1).toNat), state) := by
  have bound := formed.count_le
  unfold rowGetRecord
  rw [if_neg (by omega), if_pos (by simp only [recordIndexLen, dataLen]; omega)]
  rfl

/-- `_block_free_bytes` reports the free bytes of a formed block. -/
theorem blockFreeBytes_page (positive : 0 < page) (within : page < file.size)
    (formed : (file.block page).Formed) :
    blockFreeBytes (.page page) file = (.ok (file.block page).free, file) := by
  have counted := formed.counted
  unfold blockFreeBytes
  rw [bind_ok (load_page positive within)]
  by_cases empty : (file.block page).recordCount = 0
  · simp only [empty, if_true, Block.free]
    rfl
  · have last := rowGetRecord_run file formed (by omega) (Int.le_refl _)
    have place : (file.block page).offset (file.block page).count =
        (recordAt (file.block page).data ((file.block page).recordCount - 1).toNat).offset := by
      have pred : (file.block page).count = ((file.block page).recordCount - 1).toNat + 1 := by
        unfold Block.count
        omega
      rw [pred]
      rfl
    simp only [empty, if_false]
    rw [bind_ok (attempt_ok last)]
    simp only [Block.free, empty, if_false, place]
    by_cases full : (recordAt (file.block page).data ((file.block page).recordCount - 1).toNat).offset ≤
        ((file.block page).recordCount + 1) * recordIndexLen
    · rw [if_pos full, if_pos (show _ ≤ _ * (16 : Int) from full)]
      rfl
    · rw [if_neg full, if_neg (show ¬ _ ≤ _ * (16 : Int) from full)]
      rfl

/-- `blocks` empty blocks with consecutive numbers from `first` were appended. -/
structure Appended (before after : DataFile) (blocks : Nat) (first : Int) : Prop where
  size : after.size = before.size + blocks
  info : after.info = { before.info with blockCount := before.info.blockCount + blocks }
  cache : after.cache = before.cache
  initOk : after.initOk = before.initOk
  serves : after.Serves
  kept : ∀ page < before.size, after.block page = before.block page
  added : ∀ k < blocks, (after.block (before.size + k)).blockId = first + k ∧
    (after.block (before.size + k)).recordCount = 0

private theorem extendLoop_run (data : Mem) (blockId : Int) (blocks : Nat) (next : Int)
    (serves : file.Serves) : ∃ after,
    extendLoop data blockId blocks next file = (.ok (), after) ∧
      Appended file after blocks (blockId + next) := by
  induction blocks generalizing file next with
  | zero =>
    exact ⟨file, rfl, rfl, by simp, rfl, rfl, serves, fun _ _ => rfl, fun _ below => by omega⟩
  | succ blocks ih =>
    obtain ⟨mid, called, quiet⟩ := osCall_serves serves .write (by decide)
    have cache : mid.cache = file.cache := (congrArg (fun result => result.2.cache) called).symm
    have same := quiet.file
    let grown : DataFile := { mid with
      size := mid.size + 1
      block := fun page => if page = mid.size then ⟨blockId + next, 0, data⟩ else mid.block page
      info := { mid.info with blockCount := mid.info.blockCount + 1 } }
    have served : grown.Serves := quiet.serves serves
    obtain ⟨after, ran, appended⟩ := ih (next + 1) served
    have size : grown.size = file.size + 1 := by
      change mid.size + 1 = _
      rw [congrArg File.size same]
    refine ⟨after, ?_, ?_⟩
    · simp only [extendLoop]
      rw [bind_ok called]
      simp only [if_true, update_bind_run]
      exact ran
    · refine ⟨by rw [appended.size, size]; omega, ?_, appended.cache.trans cache,
        appended.initOk.trans quiet.initOk, appended.serves, ?_, ?_⟩
      · have info := congrArg File.info same
        rw [appended.info]
        simp only [grown, info, FileInfo.mk.injEq, true_and, and_true]
        omega
      · intro page within
        rw [appended.kept page (by omega)]
        have block := congrArg File.block same
        have old : page ≠ mid.size := by rw [congrArg File.size same]; omega
        simp only [grown, old, if_false, block]
      · intro k below
        cases k with
        | zero =>
          have first := appended.kept file.size (by omega)
          have place : file.size = mid.size := (congrArg File.size same).symm
          simp only [Nat.add_zero, first]
          simp [grown, place]
        | succ k =>
          have later := appended.added k (by omega)
          rw [size] at later
          rw [show file.size + (k + 1) = file.size + 1 + k by omega]
          refine ⟨?_, later.2⟩
          rw [later.1]
          omega

/-- The object once one more block was written behind its file. -/
def append (file : DataFile) (content : Block) : DataFile :=
  { file with
    size := file.size + 1
    block := fun page => if page = file.size then content else file.block page
    info := { file.info with blockCount := file.info.blockCount + 1 } }

/-- What survives the calls of `_extend_file` into the operating system and each block it appends. -/
structure Extends (stays : DataFile → Prop) : Prop where
  sought : ∀ file, stays file → stays (file.called .lseek)
  wrote : ∀ file, stays file → stays (file.called .write)
  drawn : Keeps stays uninitialised
  append : ∀ file content, content.blockId = file.info.blockCount + 1 → content.recordCount = 0 → stays file →
    stays (file.append content)

theorem Extends.loop {stays : DataFile → Prop} (kept : Extends stays) (data : Mem) (blockId : Int) (blocks : Nat)
    (next : Int) (holds : stays file) (number : blockId + next = file.info.blockCount + 1) :
    wp (extendLoop data blockId blocks next) (fun _ => stays) (fun _ => stays) file := by
  induction blocks generalizing file next with
  | zero => exact wp_pure holds
  | succ blocks ih =>
    have wrote := kept.wrote file holds
    refine wp_bind_ok (osCall_eq file .write) ?_
    split
    · refine wp_bind_ok (update_run _ _) (ih (next + 1) (kept.append _ ⟨blockId + next, 0, data⟩ number rfl wrote) ?_)
      change blockId + (next + 1) = file.info.blockCount + 1 + 1
      omega
    · exact wrote

theorem Extends.extend {stays : DataFile → Prop} (kept : Extends stays) (blocks : Int) : Keeps stays (extendFile blocks) := by
  intro file holds
  refine wp_bind_ok (osCall_eq file .lseek) ?_
  have holds := kept.sought file holds
  split
  · refine wp_bind_ok (read_run _ _) (wp_bind_ok (show uninitialised _ = _ from rfl) ?_)
    exact wp_bind (kept.loop _ _ _ 1 (kept.drawn _ holds) rfl) fun _ _ holds => wp_pure holds
  · exact holds

theorem Extends.whenUsed {stays : DataFile → Prop} (kept : Extends stays) : Keeps stays extendWhenUsed :=
  (keeps_read _).bind fun _ => keeps_ite ((kept.extend 128).attempt.bind fun _ => keeps_pure _) (keeps_pure _)

/-- A served `_extend_file` appends the blocks it was asked for. -/
theorem extendFile_run (serves : file.Serves) : ∃ after, extendFile 128 file = (.ok 128, after) ∧
    Appended file after 128 (file.info.blockCount + 1) := by
  obtain ⟨mid, called, quiet⟩ := osCall_serves serves .lseek (by decide)
  have cache : mid.cache = file.cache := (congrArg (fun result => result.2.cache) called).symm
  let drawn : DataFile := { mid with junk := fun n => mid.junk (n + 1) }
  have served : drawn.Serves := quiet.serves serves
  obtain ⟨after, ran, appended⟩ := extendLoop_run (mid.junk 0) mid.info.blockCount 128 1 served
  have info : drawn.info = file.info := congrArg File.info quiet.file
  have size : drawn.size = file.size := congrArg File.size quiet.file
  have block : drawn.block = file.block := congrArg File.block quiet.file
  have count : mid.info.blockCount = file.info.blockCount := congrArg FileInfo.blockCount info
  refine ⟨after, ?_, ?_⟩
  · simp only [extendFile]
    rw [bind_ok called]
    simp only [if_true, read_bind_run, show ¬ (128 : Int) ≤ 0 by omega, if_false]
    rw [bind_ok (show uninitialised mid = (.ok (mid.junk 0), drawn) from rfl)]
    exact bind_ok ran
  · refine ⟨size ▸ appended.size, info ▸ appended.info, appended.cache.trans cache,
      appended.initOk.trans quiet.initOk, appended.serves, ?_, ?_⟩
    · intro page within
      rw [appended.kept page (by omega), block]
    · intro k below
      have fresh := appended.added k below
      rwa [size, count] at fresh

theorem Appended.opens {blocks : Nat} {first : Int} (appended : Appended file after blocks first) :
    file.toFile.Opens after.toFile := by
  refine ⟨by rw [appended.size]; omega, by rw [appended.info], appended.kept, ?_⟩
  intro page lower upper
  have place : page = file.size + (page - file.size) := by omega
  rw [place]
  exact (appended.added (page - file.size) (by rw [appended.size] at upper; omega)).2

/-- Appending blocks after the last one keeps a data file ready. -/
theorem Appended.ready {blocks : Nat} (appended : Appended file after blocks (file.info.blockCount + 1))
    (ready : file.Ready) : after.Ready := by
  have formed := ready.formed
  have size := formed.size_eq
  have upper := formed.used_upper
  have isNew {page : Nat} (old : ¬ page < file.size) (within : page < after.size) :
      (after.block page).blockId = page + 1 ∧ (after.block page).recordCount = 0 := by
    have place : page = file.size + (page - file.size) := by omega
    have fresh := appended.added (page - file.size) (by rw [appended.size] at within; omega)
    rw [← place] at fresh
    refine ⟨?_, fresh.2⟩
    rw [fresh.1]
    omega
  refine ⟨⟨?_, ?_, ?_, ?_, ?_, ?_, ?_⟩, ?_, appended.serves⟩
  · rw [appended.info]; exact formed.used_lower
  · rw [appended.info]; simp only; omega
  · rw [appended.info]; exact formed.used_mapped
  · rw [appended.info, appended.size]; simp only; omega
  · intro page positive within
    by_cases old : page < file.size
    · rw [appended.kept page old]; exact formed.blockId page positive old
    · exact (isNew old within).1
  · intro page positive within
    by_cases old : page < file.size
    · rw [appended.kept page old]; exact formed.block page positive old
    · exact Block.formed_of_empty (isNew old within).2
  · intro page above within
    rw [appended.info] at above
    by_cases old : page < file.size
    · rw [appended.kept page old]; exact formed.unused page above old
    · exact (isNew old within).2
  · intro entry member
    rw [appended.cache] at member
    obtain ⟨page, positive, within, mapped, same⟩ := ready.cached entry member
    exact ⟨page, positive, by rw [appended.size]; omega, mapped, same⟩

/-- The data file with `used_block_count` moved on by one. -/
def advance (file : DataFile) : DataFile :=
  { file with info := { file.info with usedBlockCount := file.info.usedBlockCount + 1 } }

theorem readNextBlock_eq (file : DataFile) :
    readNextBlock file = readBlock (file.info.usedBlockCount + 1) (file.advance.called .msync) := by
  rw [readNextBlock, update_bind_run]
  exact bind_ok (syncHead_run file.advance)

theorem advance_ready (ready : file.Ready) (room : file.info.usedBlockCount < file.info.blockCount)
    (mapped : file.info.usedBlockCount < 262144) : file.advance.Ready := by
  have formed := ready.formed
  have lower := formed.used_lower
  refine ⟨⟨?_, ?_, ?_, formed.size_eq, formed.blockId, formed.block, ?_⟩, ready.cached, ready.serves⟩
  · change 2 ≤ file.info.usedBlockCount + 1
    omega
  · change file.info.usedBlockCount + 1 ≤ file.info.blockCount
    omega
  · change file.info.usedBlockCount + 1 ≤ 262144
    omega
  · intro page above within
    change file.info.usedBlockCount + 1 ≤ page at above
    exact formed.unused page (by omega) within

theorem advance_opens (file : DataFile) : file.toFile.Opens file.advance.toFile :=
  ⟨Nat.le_refl _, Int.le_add_one (Int.le_refl _), fun _ _ => rfl,
    fun _ lower upper => absurd upper (Nat.not_lt.mpr lower)⟩

theorem Opens.trans {first second third : File} (left : first.Opens second) (right : second.Opens third) : first.Opens third := by
  refine ⟨Nat.le_trans left.size right.size, Int.le_trans left.used right.used, ?_, ?_⟩
  · intro page within
    rw [right.kept page (Nat.lt_of_lt_of_le within left.size), left.kept page within]
  · intro page lower upper
    by_cases inner : page < second.size
    · rw [right.kept page inner]
      exact left.fresh page lower inner
    · exact right.fresh page (by omega) upper

/-- Reading the used block, once it can be mapped. -/
theorem readBlock_current (ready : file.Ready) :
    ∃ after, readBlock file.info.usedBlockCount file = (.ok (.page file.current), after) ∧
      Quiet file after := by
  have formed := ready.formed
  rw [← formed.current_eq]
  exact readBlock_page ready.cached ready.serves formed.current_positive formed.current_within
    formed.current_mapped

/-- What `_find_block_can_write` returns when it does not return -1: the used
block, with some bytes free. -/
structure Found (before after : DataFile) (block : BlockPtr) (fre : Int) : Prop where
  ready : after.Ready
  initOk : after.initOk = before.initOk
  opens : before.toFile.Opens after.toFile
  place : block = .page after.current
  free : fre = (after.block after.current).free
  positive : 0 < fre
  stays : (before.block before.current).free ≠ 0 → after.current = before.current

/-- The block after the used one became the used block; it is empty. -/
structure Moved (before after : DataFile) : Prop where
  ready : after.Ready
  initOk : after.initOk = before.initOk
  opens : before.toFile.Opens after.toFile
  current : after.current = before.current + 1
  blockCount : after.info.blockCount = before.info.blockCount
  empty : (after.block after.current).recordCount = 0

/-- Moving on to the next block, unless that block lies past `2 ^ 31` bytes. -/
theorem readNextBlock_run (ready : file.Ready) (room : file.info.usedBlockCount < file.info.blockCount) :
    ∃ block after, readNextBlock file = (.ok block, after) ∧
      ((block = .mapFailed ∧ after.toFile.Outgrown) ∧ ¬ file.info.usedBlockCount < 262144 ∨
        (block = .page after.current ∧ Moved file after) ∧ file.info.usedBlockCount < 262144) := by
  have formed := ready.formed
  let synced := file.advance.called .msync
  have quietSync : Quiet file.advance synced := called_quiet _ _
  have used : synced.info.usedBlockCount = file.info.usedBlockCount + 1 := rfl
  rw [readNextBlock_eq, ← used]
  by_cases mapped : file.info.usedBlockCount < 262144
  · have readySync := quietSync.ready (advance_ready ready room mapped)
    obtain ⟨after, opened, quiet⟩ := readBlock_current readySync
    have current : after.current = synced.current := congrArg File.current quiet.file
    have place := readySync.formed.current_eq
    have old := formed.current_eq
    refine ⟨.page after.current, after, by rw [opened, current], .inr ⟨⟨rfl, quiet.ready readySync,
      quiet.initOk.trans quietSync.initOk, ?_, by omega, ?_, ?_⟩, mapped⟩⟩
    · rw [quiet.file, quietSync.file]
      exact advance_opens file
    · rw [quiet.file, quietSync.file]
      rfl
    · have block : after.block = file.advance.block := congrArg File.block (quiet.file.trans quietSync.file)
      have size : synced.size = file.advance.size := congrArg File.size quietSync.file
      have within := readySync.formed.current_within
      rw [block, current]
      exact formed.unused _ (by omega) (size ▸ within)
  · have mappedUsed := formed.used_mapped
    have cached : synced.Cached := quietSync.cached ready.cached
    obtain ⟨after, missed, same⟩ := readBlock_limit cached
    have past : synced.info.usedBlockCount = 262145 := by omega
    refine ⟨.mapFailed, after, by rw [past, missed], .inl ⟨⟨rfl, ?_⟩, mapped⟩⟩
    have size := formed.size_eq
    have disk : after.size = file.advance.size := congrArg File.size (same.trans quietSync.file)
    have grown : file.advance.size = file.size := rfl
    simp only [File.Outgrown, Pingkv.blockSize, disk, grown]
    omega

/-- The used block was full: the loop of `_find_block_can_write` takes the next one. -/
private theorem findLoop_next (ready : file.Ready) (room : file.info.usedBlockCount < file.info.blockCount)
    (nothing : (file.block file.current).free = 0) (full : BlockPtr) : ∃ block fre after,
      (∀ steps, findLoop (steps + 1) full 0 file = (.ok (block, fre), after)) ∧
        ((fre = -1 ∧ after.toFile.Outgrown) ∧ ¬ file.info.usedBlockCount < 262144 ∨ Found file after block fre) := by
  obtain ⟨block, after, ran, outcome⟩ := readNextBlock_run ready room
  have enter (steps : Nat) : findLoop (steps + 1) full 0 file = (do
      if block = .mapFailed then return (block, -1)
      let fre ← blockFreeBytes block
      if fre = -1 then return (block, -1)
      findLoop steps block fre : Exec DataFile (BlockPtr × Int)) after := by
    rw [findLoop]
    simp only [ne_eq, not_true_eq_false, if_false]
    exact bind_ok ran
  rcases outcome with ⟨⟨rfl, outgrown⟩, last⟩ | ⟨⟨rfl, moved⟩, _⟩
  · exact ⟨.mapFailed, -1, after, fun steps => enter steps, .inl ⟨⟨rfl, outgrown⟩, last⟩⟩
  · have formed := moved.ready.formed
    have free : (after.block after.current).free = 8152 := by simp [Block.free, moved.empty]
    have freeRun := blockFreeBytes_page formed.current_positive formed.current_within formed.current_block
    refine ⟨.page after.current, 8152, after, fun steps => ?_,
      .inr ⟨moved.ready, moved.initOk, moved.opens, rfl, free.symm, by omega, fun some => absurd nothing some⟩⟩
    rw [enter]
    simp only [reduceCtorEq, if_false]
    rw [bind_ok freeRun, free]
    cases steps <;> rfl

/-- After the extension there is a block after the used one. -/
theorem extendWhenUsed_run (ready : file.Ready) : ∃ after,
    extendWhenUsed file = (.ok (), after) ∧ after.Ready ∧ after.initOk = file.initOk ∧
      file.toFile.Opens after.toFile ∧ after.info.usedBlockCount = file.info.usedBlockCount ∧
      after.info.usedBlockCount < after.info.blockCount := by
  by_cases last : file.info.usedBlockCount = file.info.blockCount
  · obtain ⟨after, ran, appended⟩ := extendFile_run ready.serves
    refine ⟨after, ?_, appended.ready ready, appended.initOk, appended.opens, ?_, ?_⟩
    · simp only [extendWhenUsed, read_bind_run, last, if_true]
      rw [bind_ok (attempt_ok ran)]
      rfl
    · rw [appended.info]
    · rw [appended.info]
      simp only
      omega
  · have upper := ready.formed.used_upper
    refine ⟨file, ?_, ready, rfl, File.Opens.refl _, rfl, by omega⟩
    simp only [extendWhenUsed, read_bind_run, last, if_false, pure_run]

/-- A served extension appends whole batches. -/
theorem extendWhenUsed_batch (serves : file.Serves) (ran : extendWhenUsed file = (.ok (), after)) :
    after.info.blockCount % 128 = file.info.blockCount % 128 := by
  by_cases last : file.info.usedBlockCount = file.info.blockCount
  · obtain ⟨extended, extend, appended⟩ := extendFile_run serves
    have whole : extendWhenUsed file = (.ok (), extended) := by
      simp only [extendWhenUsed, read_bind_run, last, if_true]
      rw [bind_ok (attempt_ok extend)]
      rfl
    obtain ⟨_, rfl⟩ := Prod.mk.inj (whole.symm.trans ran)
    rw [appended.info]
    simp only
    omega
  · have none : extendWhenUsed file = (.ok (), file) := by
      simp only [extendWhenUsed, read_bind_run, last, if_false, pure_run]
    obtain ⟨_, rfl⟩ := Prod.mk.inj (none.symm.trans ran)
    rfl

/-- `_find_block_can_write` never takes more than one step of its loop: it hands
out the used block with some bytes free, or the file has outgrown `2 ^ 31` bytes. -/
theorem findBlockWithin_ready (ready : file.Ready) : ∃ block fre after,
    (∀ steps, findBlockWithin (steps + 1) file = (.ok (block, fre), after)) ∧
      ((fre = -1 ∧ after.toFile.Outgrown) ∧ ¬ file.HasRoom ∨ Found file after block fre) := by
  obtain ⟨mid, ran, readyMid, initOk, opens, used, room⟩ := extendWhenUsed_run ready
  obtain ⟨opened, mappedBlock, quiet⟩ := readBlock_current readyMid
  have readyOpened := quiet.ready readyMid
  have current : opened.current = mid.current := congrArg File.current quiet.file
  have freeRun := blockFreeBytes_page readyOpened.formed.current_positive
    readyOpened.formed.current_within readyOpened.formed.current_block
  rw [current] at freeRun
  have enter (steps : Nat) : findBlockWithin (steps + 1) file =
      findLoop (steps + 1) (.page mid.current) (opened.block mid.current).free opened := by
    have nonneg := (opened.block mid.current).free_nonneg
    rw [findBlockWithin, bind_ok ran, read_bind_run, bind_ok mappedBlock]
    simp only [reduceCtorEq, if_false]
    rw [bind_ok freeRun]
    simp only [show (opened.block mid.current).free ≠ -1 by omega, if_false]
  have opensOpened : file.toFile.Opens opened.toFile := quiet.file ▸ opens
  have unmoved : mid.current = file.current := by simp only [File.current, used]
  have old : opened.block file.current = file.block file.current :=
    opensOpened.kept _ ready.formed.current_within
  by_cases full : (opened.block mid.current).free = 0
  · have roomOpened : opened.info.usedBlockCount < opened.info.blockCount := by
      rw [quiet.file]; exact room
    obtain ⟨block, fre, after, next, outcome⟩ :=
      findLoop_next readyOpened roomOpened (by rw [current]; exact full) (.page mid.current)
    rw [unmoved, old] at full
    refine ⟨block, fre, after, fun steps => ?_, outcome.imp (fun failed => ⟨failed.1, ?_⟩) fun found => ?_⟩
    · rw [enter, unmoved, old, full, ← unmoved, next]
    · have same : opened.info.usedBlockCount = file.info.usedBlockCount := by
        rw [quiet.file]; exact used
      rintro (some | more)
      · exact some full
      · exact failed.2 (same ▸ more)
    · exact { found with
        initOk := found.initOk.trans (quiet.initOk.trans initOk)
        opens := Opens.trans opensOpened found.opens
        stays := fun some => absurd full some }
  · refine ⟨.page mid.current, _, opened, fun steps => ?_, .inr ⟨readyOpened, quiet.initOk.trans initOk,
      opensOpened, by rw [current], by rw [current], ?_, fun _ => current.trans unmoved⟩⟩
    · rw [enter, findLoop]
      simp only [ne_eq, full, not_false_eq_true, if_true]
      rfl
    · have nonneg := (opened.block mid.current).free_nonneg
      omega

end DataFile

end Pingkv
