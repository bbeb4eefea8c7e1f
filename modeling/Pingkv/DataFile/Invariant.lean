import Mathlib.Data.Int.Interval
import Pingkv.DataFile.Blocks
import Pingkv.DataFile.Layout

/-! What holds of a data file between two calls, and what the calls that find,
read and add blocks do to such a file when the operating system serves them. -/

namespace Pingkv

/-- The file is longer than `2 ^ 31` bytes. -/
def File.Outgrown (file : File) : Prop := 2 ^ 31 < blockSize * file.size

/-- Block numbers and counters of a data file and the layout of its blocks.
Block number `id` lies at page `id - 1`. -/
structure File.Formed (file : File) : Prop where
  used_lower : 2 ≤ file.info.usedBlockCount
  used_upper : file.info.usedBlockCount ≤ file.info.blockCount
  used_mapped : file.info.usedBlockCount ≤ 262144
  size_eq : (file.size : Int) = file.info.blockCount
  blockId : ∀ page, 0 < page → page < file.size → (file.block page).blockId = page + 1
  block : ∀ page, 0 < page → page < file.size → (file.block page).Formed
  unused : ∀ page : Nat, file.info.usedBlockCount ≤ page → page < file.size →
    (file.block page).recordCount = 0

/-- Blocks were allocated and nothing was written. -/
structure File.Opens (before after : File) : Prop where
  size : before.size ≤ after.size
  used : before.info.usedBlockCount ≤ after.info.usedBlockCount
  kept : ∀ page < before.size, after.block page = before.block page
  fresh : ∀ page, before.size ≤ page → page < after.size → (after.block page).recordCount = 0

theorem File.Opens.refl (file : File) : file.Opens file :=
  ⟨Nat.le_refl _, Int.le_refl _, fun _ _ => rfl, fun _ _ _ => by omega⟩

namespace DataFile

open Exec

/-- Every coming call into the operating system succeeds, save that a block may
refuse to be unmapped. -/
def Serves (file : DataFile) : Prop := ∀ call n, call ≠ .munmap → file.os call n = true

/-- Every coming `munmap` succeeds. -/
def Unmaps (file : DataFile) : Prop := ∀ n, file.os .munmap n = true

/-- Each cache entry is the mapping of the block it is stored under. -/
def Cached (file : DataFile) : Prop := ∀ entry ∈ file.cache,
  ∃ page, 0 < page ∧ page < file.size ∧ page < 262144 ∧ entry = ((page : Int) + 1, BlockPtr.page page)

structure Ready (file : DataFile) : Prop where
  formed : file.toFile.Formed
  cached : file.Cached
  serves : file.Serves

/-- A call that left the file as it was. -/
structure Quiet (before after : DataFile) : Prop where
  file : after.toFile = before.toFile
  initOk : after.initOk = before.initOk
  serves : before.Serves → after.Serves
  cached : before.Cached → after.Cached

variable {file after : DataFile} {page : Nat} {blockId : Int}

theorem Quiet.refl (file : DataFile) : Quiet file file := ⟨rfl, rfl, id, id⟩

theorem Quiet.trans {last : DataFile} (first : Quiet file after) (second : Quiet after last) :
    Quiet file last :=
  ⟨second.file.trans first.file, second.initOk.trans first.initOk,
    fun serves => second.serves (first.serves serves), fun cached => second.cached (first.cached cached)⟩

theorem Quiet.ready (quiet : Quiet file after) (ready : file.Ready) : after.Ready :=
  ⟨quiet.file ▸ ready.formed, quiet.cached ready.cached, quiet.serves ready.serves⟩

/-- A call into the operating system changes nothing else. -/
theorem osCall_run (file : DataFile) (call : OsCall) : ∃ after, osCall call file = (.ok (file.os call 0), after) ∧
    Quiet file after ∧ after.cache = file.cache ∧ (file.Unmaps → after.Unmaps) := by
  refine ⟨(osCall call file).2, rfl, ⟨rfl, rfl, ?_, id⟩, rfl, ?_⟩
  · intro serves kind n served
    change (if kind = call then file.os call (n + 1) else file.os kind n) = true
    split
    · exact serves call (n + 1) (by rwa [← ‹kind = call›])
    · exact serves kind n served
  · intro unmaps n
    change (if .munmap = call then file.os call (n + 1) else file.os .munmap n) = true
    split
    · rw [← ‹.munmap = call›]
      exact unmaps (n + 1)
    · exact unmaps n

theorem osCall_serves (serves : file.Serves) (call : OsCall) (served : call ≠ .munmap) :
    ∃ after, osCall call file = (.ok true, after) ∧ Quiet file after := by
  obtain ⟨after, called, quiet, _⟩ := osCall_run file call
  exact ⟨after, by rw [called, serves call 0 served], quiet⟩

theorem load_page [HeadPointers] (positive : 0 < page) (within : page < file.size) :
    load (.page page) file = (.ok (file.block page), file) := by
  simp [load, positive, within]

theorem store_page [HeadPointers] {content : Block} (positive : 0 < page) (within : page < file.size) :
    store (.page page) content file = (.ok (),
      { file with block := fun other => if other = page then content else file.block other }) := by
  simp [store, positive, within]

/-- Up to `2 ^ 31` bytes the offset computed in `int` is exact. -/
theorem mapOffset_eq (lower : 1 ≤ blockId) (upper : blockId ≤ 262144) :
    mapOffset blockId = (blockId - 1) * 8192 :=
  wrap_32_of_range (by simp only [Pingkv.blockSize]; omega) (by simp only [Pingkv.blockSize]; omega)

/-- The first block past `2 ^ 31` bytes gets a negative offset. -/
theorem mapOffset_limit : mapOffset 262145 = -2147483648 := by decide

theorem mapOffset_limit_neg : ¬ 0 ≤ mapOffset 262145 := by decide

theorem mapped_eq (lower : 1 ≤ blockId) (upper : blockId ≤ 262144) : mapped blockId = .page (blockId - 1).toNat := by
  rw [mapped, mapOffset_eq lower upper, Pingkv.blockSize, Int.mul_ediv_cancel _ (by decide)]

theorem called_quiet (file : DataFile) (call : OsCall) : Quiet file (file.called call) := by
  obtain ⟨after, called, quiet, _⟩ := osCall_run file call
  have same : file.called call = after := congrArg Prod.snd called
  rwa [same]

/-- `_read_block` maps a block of the file. -/
theorem readBlock_page (cached : file.Cached) (serves : file.Serves) (positive : 0 < page)
    (within : page < file.size) (low : page < 262144) :
    ∃ after, readBlock ((page : Int) + 1) file = (.ok (.page page), after) ∧ Quiet file after := by
  have ran := readBlock_run file ((page : Int) + 1)
  cases found : file.cache.lookup ((page : Int) + 1) with
  | some block =>
    obtain ⟨other, _, _, _, entry⟩ := cached _ (mem_of_lookup found)
    obtain ⟨number, isPage⟩ := Prod.mk.inj entry
    obtain rfl : other = page := by omega
    rw [found, Option.getD_some, isPage, if_neg (by simp)] at ran
    exact ⟨file, ran, Quiet.refl file⟩
  | none =>
    have quiet := called_quiet file .mmap
    have upward : 0 ≤ mapOffset ((page : Int) + 1) := by
      rw [mapOffset_eq (by omega) (by omega)]
      omega
    have place : mapped ((page : Int) + 1) = .page page := by
      rw [mapped_eq (by omega) (by omega)]
      simp
    rw [found, Option.getD_none, if_pos rfl, if_pos ⟨serves .mmap 0 (by decide), upward⟩, place] at ran
    refine ⟨_, ran, quiet.file, quiet.initOk, quiet.serves, fun _ entry member => ?_⟩
    rcases mem_cachePut member with same | old
    · exact ⟨page, positive, within, low, same⟩
    · exact cached entry old

/-- The first block past `2 ^ 31` bytes cannot be mapped. -/
theorem readBlock_limit (cached : file.Cached) :
    ∃ after, readBlock 262145 file = (.ok .mapFailed, after) ∧ after.toFile = file.toFile := by
  have ran := readBlock_run file 262145
  cases found : file.cache.lookup 262145 with
  | some block =>
    obtain ⟨other, _, _, low, entry⟩ := cached _ (mem_of_lookup found)
    have number := congrArg Prod.fst entry
    simp only at number
    omega
  | none =>
    rw [found, Option.getD_none, if_pos rfl, if_neg fun served => mapOffset_limit_neg served.2] at ran
    exact ⟨_, ran, rfl⟩

/-- Marking the entry of a key before the key is erased leaves no trace. -/
private theorem erase_marked (key : Int) (block : BlockPtr) (cache : List (Int × BlockPtr)) :
    ((cache.map fun entry => if entry.1 = key then (key, block) else entry).filter
      fun entry => decide (entry.1 ≠ key)) = cache.filter fun entry => decide (entry.1 ≠ key) := by
  induction cache with
  | nil => rfl
  | cons head rest ih =>
    rw [List.map_cons, List.filter_cons, List.filter_cons, ih]
    by_cases same : head.1 = key <;> simp [same]

private theorem flush_entry {key : Int} {rest : List (Int × BlockPtr)} (ready : file.Ready)
    (cache : file.cache = (key, .page page) :: rest) :
    ∃ outcome after, flushOutBlock key (.page page) file = (outcome, after) ∧ Quiet file after ∧
      (outcome = .error .failed ∧ ¬ file.Unmaps ∨
        outcome = .ok () ∧ (after.cache = rest.filter fun entry => decide (entry.1 ≠ key)) ∧
          (file.Unmaps → after.Unmaps)) := by
  obtain ⟨other, positive, within, _, entry⟩ := ready.cached (key, .page page) (by simp [cache])
  simp only [Prod.mk.injEq, BlockPtr.page.injEq] at entry
  obtain ⟨rfl, rfl⟩ := entry
  obtain ⟨mid, called, quiet, midCache, unmaps⟩ := osCall_run file .munmap
  have blockId := ready.formed.blockId page positive within
  simp only [flushOutBlock, reduceCtorEq, if_false]
  rw [bind_ok (load_page positive within), bind_ok called]
  cases unmapped : file.os .munmap 0 with
  | false => exact ⟨_, mid, rfl, quiet, .inl ⟨rfl, fun all => by simp [all 0] at unmapped⟩⟩
  | true =>
    have erased : ((mid.cache.map fun entry =>
        if entry.1 = (page : Int) + 1 then ((page : Int) + 1, BlockPtr.dangling) else entry).filter
          fun entry => decide (entry.1 ≠ (page : Int) + 1)) =
        rest.filter fun entry => decide (entry.1 ≠ (page : Int) + 1) := by
      rw [midCache, cache, erase_marked]
      simp
    refine ⟨.ok (), { mid with cache := rest.filter fun entry => decide (entry.1 ≠ (page : Int) + 1) }, ?_,
      ⟨quiet.file, quiet.initOk, quiet.serves, ?_⟩, .inr ⟨rfl, rfl, unmaps⟩⟩
    · simp only [if_true, update_run, blockId, erased]
    · intro cached entry member
      have old : entry ∈ file.cache := by
        rw [cache]
        exact List.mem_cons_of_mem _ (List.mem_filter.mp member).1
      have size : mid.size = file.size := congrArg File.size quiet.file
      simpa [size] using cached entry old

private theorem flush_loop (ready : file.Ready) (steps : Nat)
    (enough : (file.cache.map Prod.fst).toFinset.card < steps) :
    ∃ outcome after, flushOutLoop steps file = (outcome, after) ∧ Quiet file after ∧
      (outcome = .ok () ∨ outcome = .error .failed ∧ ¬ file.Unmaps) := by
  induction steps generalizing file with
  | zero => omega
  | succ steps ih =>
    cases cache : file.cache with
    | nil => exact ⟨.ok (), file, by simp [flushOutLoop, cache], Quiet.refl file, .inl rfl⟩
    | cons head rest =>
      obtain ⟨key, block⟩ := head
      obtain ⟨page, _, _, _, entry⟩ := ready.cached (key, block) (by simp [cache])
      simp only [Prod.mk.injEq] at entry
      rw [entry.2] at cache
      simp only [flushOutLoop, read_bind_run, cache]
      obtain ⟨outcome, mid, flushed, quiet, ⟨rfl, refused⟩ | ⟨rfl, left, unmaps⟩⟩ := flush_entry ready cache
      · exact ⟨_, mid, bind_error flushed, quiet, .inr ⟨rfl, refused⟩⟩
      have fewer : (mid.cache.map Prod.fst).toFinset.card < (file.cache.map Prod.fst).toFinset.card := by
        apply Finset.card_lt_card
        refine ⟨?_, ?_⟩
        · intro other member
          simp only [left, List.mem_toFinset, List.mem_map, List.mem_filter] at member
          obtain ⟨entry, ⟨old, _⟩, same⟩ := member
          simp only [cache, List.map_cons, List.mem_toFinset, List.mem_cons, List.mem_map]
          exact .inr ⟨entry, old, same⟩
        · intro all
          have gone := all (show key ∈ (file.cache.map Prod.fst).toFinset by simp [cache])
          simp only [left, List.mem_toFinset, List.mem_map, List.mem_filter] at gone
          obtain ⟨entry, ⟨_, kept⟩, same⟩ := gone
          simp [same] at kept
      obtain ⟨outcome, after, finished, rest, ended⟩ := ih (quiet.ready ready) (by omega)
      rw [bind_ok flushed]
      exact ⟨outcome, after, finished, quiet.trans rest, ended.imp_right fun ⟨failed, refused⟩ =>
        ⟨failed, fun all => refused (unmaps all)⟩⟩

/-- `flush_blocks` changes nothing on the disk, and returns 0 where the operating system unmaps the blocks. -/
theorem flushBlocks_ready (ready : file.Ready) :
    ∃ outcome after, flushBlocks file = (outcome, after) ∧ Quiet file after ∧
      (outcome = .ok () ∨ outcome = .error .failed ∧ ¬ file.Unmaps) := by
  apply flush_loop ready
  have inside : (file.cache.map Prod.fst).toFinset ⊆ Finset.Icc 2 262144 := by
    intro key member
    simp only [List.mem_toFinset, List.mem_map] at member
    obtain ⟨entry, present, same⟩ := member
    obtain ⟨page, positive, _, mapped, entryEq⟩ := ready.cached entry present
    rw [← same, entryEq, Finset.mem_Icc]
    omega
  have bound := Finset.card_le_card inside
  rw [Int.card_Icc] at bound
  exact Nat.lt_of_le_of_lt bound (by decide)

private theorem flushOutBlock_file (key : Int) (block : BlockPtr) (file : DataFile) :
    (flushOutBlock key block file).2.toFile = file.toFile := by
  unfold flushOutBlock
  split
  · rfl
  · cases block with
    | page page =>
      by_cases inside : 0 < page ∧ page < file.size
      · obtain ⟨mid, called, quiet, _⟩ := osCall_run file .munmap
        rw [bind_ok (load_page inside.1 inside.2), bind_ok called]
        cases file.os .munmap 0 with
        | true => exact quiet.file
        | false => exact quiet.file
      · rw [bind_error (show load (.page page) file = (.error .fault, file) by simp [load, inside])]
    | null | mapFailed | dangling => rfl

/-- `flush_blocks` changes nothing on the disk, whatever the state of the object. -/
theorem flushBlocks_file (file : DataFile) : (flushBlocks file).2.toFile = file.toFile := by
  unfold flushBlocks
  induction stepBound generalizing file with
  | zero => rfl
  | succ steps ih =>
    simp only [flushOutLoop, read_bind_run]
    cases file.cache with
    | nil => rfl
    | cons entry rest =>
      have kept := flushOutBlock_file entry.1 entry.2 file
      dsimp only
      cases flushed : flushOutBlock entry.1 entry.2 file with
      | mk outcome mid =>
        rw [flushed] at kept
        cases outcome with
        | ok => rw [bind_ok flushed, ih mid, kept]
        | error reason => rw [bind_error flushed, kept]

end DataFile

end Pingkv
