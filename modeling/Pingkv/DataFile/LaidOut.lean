import Pingkv.DataFile.AnyRow
import Pingkv.DataFile.Ends
import Pingkv.Lib.Transition

/-! Runs of the public methods with block ids and row indices of any origin: the layout of
the blocks, as long as no record of the file head is changed. -/

namespace Pingkv

/-- The index array of a block and the bytes of its records, `[offset k, offset (k - 1))`
for record `k`, are pairwise disjoint. -/
structure Block.Packed (block : Block) : Prop where
  counted : 0 ≤ block.recordCount
  falling : ∀ k, 1 ≤ k → k ≤ block.count → block.offset k ≤ block.offset (k - 1)
  below : ∀ k ≤ block.count, block.offset k ≤ 8168
  above : ∀ k ≤ block.count, 16 * block.recordCount ≤ block.offset k
  index : ∀ k byte, 1 ≤ k → k ≤ block.count → block.offset k ≤ byte → ¬ byte < 16 * block.recordCount
  disjoint : ∀ j k byte, 1 ≤ j → j < k → k ≤ block.count →
    ¬ (block.offset j ≤ byte ∧ byte < block.offset (j - 1) ∧
      block.offset k ≤ byte ∧ byte < block.offset (k - 1))

theorem Block.Formed.packed {block : Block} (formed : block.Formed) : block.Packed := by
  refine ⟨formed.counted, ?_, fun k within => (formed.bounds within).2,
    fun k within => (formed.bounds within).1, ?_, ?_⟩
  · intro k positive within
    exact formed.antitone (Nat.sub_le k 1) within
  · intro k byte _ within start
    have above := (formed.bounds within).1
    omega
  · rintro j k byte positive less within ⟨lower, _, _, upper⟩
    have order := formed.antitone (show j ≤ k - 1 by omega) (show k - 1 ≤ block.count by omega)
    omega

/-- Block number `id`, counted from 1, lies at page `id - 1`. -/
structure File.LaidOut (file : File) : Prop where
  used : 2 ≤ file.info.usedBlockCount ∧ file.info.usedBlockCount ≤ file.info.blockCount
  present : (file.size : Int) = file.info.blockCount
  blockId : ∀ id : Nat, 2 ≤ id → id ≤ file.info.blockCount → (file.block (id - 1)).blockId = id
  unused : ∀ id : Nat, file.info.usedBlockCount < id → id ≤ file.info.blockCount →
    (file.block (id - 1)).recordCount = 0
  packed : ∀ id : Nat, 2 ≤ id → id ≤ file.info.blockCount → (file.block (id - 1)).Packed

theorem File.Formed.blocks_laidOut {file : File} (formed : file.Formed) : file.LaidOut := by
  have size := formed.size_eq
  have used := formed.used_lower
  refine ⟨⟨formed.used_lower, formed.used_upper⟩, formed.size_eq, ?_, ?_, ?_⟩
  · intro id lower upper
    rw [formed.blockId (id - 1) (by omega) (by omega)]
    omega
  · intro id above upper
    exact formed.unused (id - 1) (by omega) (by omega)
  · intro id lower upper
    exact (formed.block (id - 1) (by omega) (by omega)).packed

/-- `_find_block_can_write` hands out a block of the file with free bytes, taking
at most one step of its loop. -/
def DataFile.FindsBlock [HeadPointers] (file : DataFile) : Prop := ∃ block fre after,
  findBlockCanWrite file = (.ok (block, fre), after) ∧ findBlockWithin 1 file = (.ok (block, fre), after) ∧
    (¬ after.toFile.Outgrown → ∃ page, block = .page page ∧ 0 < page ∧ page < after.size ∧ 0 < fre ∧
      fre = (after.block page).free)

namespace DataFile

open Exec

variable {file after : DataFile}

/-- More steps do not change what the loop hands out. -/
theorem findLoop_steps [HeadPointers] {block : BlockPtr} {fre : Int} {found : BlockPtr × Int}
    (ran : findLoop 1 block fre file = (.ok found, after)) (steps : Nat) :
    findLoop (steps + 1) block fre file = (.ok found, after) := by
  rw [findLoop.eq_def] at ran ⊢
  by_cases some : fre ≠ 0
  · rwa [if_pos some] at ran ⊢
  rw [if_neg some] at ran ⊢
  dsimp only at ran ⊢
  obtain ⟨next, mid, read, rest⟩ := bind_eq_ok ran
  rw [bind_ok read]
  by_cases failed : next = .mapFailed
  · rwa [if_pos failed] at rest ⊢
  rw [if_neg failed] at rest ⊢
  obtain ⟨free, mid', looked, rest⟩ := bind_eq_ok rest
  rw [bind_ok looked]
  by_cases refused : free = -1
  · rwa [if_pos refused] at rest ⊢
  rw [if_neg refused] at rest ⊢
  rw [findLoop.eq_def] at rest ⊢
  by_cases some : free ≠ 0
  · rwa [if_pos some] at rest ⊢
  · rw [if_neg some] at rest
    cases rest

theorem findBlockWithin_steps [HeadPointers] {found : BlockPtr × Int} (ran : findBlockWithin 1 file = (.ok found, after))
    (steps : Nat) : findBlockWithin (steps + 1) file = (.ok found, after) := by
  unfold findBlockWithin at ran ⊢
  obtain ⟨_, extended, extend, ran⟩ := bind_eq_ok ran
  obtain ⟨used, _, look, ran⟩ := bind_eq_ok ran
  obtain ⟨block, opened, read, ran⟩ := bind_eq_ok ran
  rw [bind_ok extend, bind_ok look, bind_ok read]
  by_cases failed : block = .mapFailed
  · rwa [if_pos failed] at ran ⊢
  rw [if_neg failed] at ran ⊢
  obtain ⟨free, mid, looked, ran⟩ := bind_eq_ok ran
  rw [bind_ok looked]
  by_cases refused : free = -1
  · rwa [if_pos refused] at ran ⊢
  rw [if_neg refused] at ran ⊢
  exact findLoop_steps ran steps

theorem Intact.findsBlock (intact : file.Intact) : @FindsBlock anyPointers file := by
  obtain ⟨block, fre, last, ran, outcome⟩ := findBlockWithin_ready intact.ready
  obtain ⟨after, ran', same⟩ := (mirrors_findBlockWithin 1).run intact.twin (ran 0) (by simp)
  have disk := same.file
  refine ⟨block, fre, after, @findBlockWithin_steps _ _ anyPointers _ ran' (stepBound - 1), ran', fun bounded => ?_⟩
  rw [disk] at bounded ⊢
  rcases outcome with ⟨⟨_, outgrown⟩, _⟩ | found
  · exact absurd outgrown bounded
  · have formed := found.ready.formed
    exact ⟨last.current, found.place, formed.current_positive, formed.current_within, found.positive, found.free⟩

end DataFile

namespace Call

open Exec DataFile

variable {start : History} {file after : DataFile} {call : Call} {calls : List Call}

/-- The row that a call is to change is no record of the file head. -/
def SparesHead (call : Call) (file : DataFile) : Prop := ∀ id ∈ call.changes, DataFile.SparesHead file.toFile id.1 id.2

instance (call : Call) (file : DataFile) : Decidable (call.SparesHead file) :=
  inferInstanceAs (Decidable (∀ id ∈ call.changes, _))

/-- The object behind a call with any block id and row index, where the call comes back and leaves at most `2 ^ 31` bytes. -/
def leads (call : Call) (file : DataFile) : Option DataFile :=
  (returned (@run anyPointers call) file).filter fun after => decide (call.rowLen < 2 ^ 31 ∧ ¬ after.toFile.Outgrown)

theorem created_intact (created : start.Created) : start.file.Intact := by
  have ready := created.sound.storing.ready
  have forward := created.forward
  obtain ⟨os, junk, dbName, fileId, pid, serves, ran, _⟩ := created
  have kept : Extends Served :=
    ⟨fun _ served => served.called .lseek, fun _ served => served.called .write, fun _ served => served, fun _ _ _ _ served => served⟩
  have first : (new os junk).Served := serves
  have served := (createFile_keeps kept (fun call _ served => served.called call) (fun _ served => served) (fun _ served => served)
    (show (headed os junk dbName fileId pid).Served from ((first.called .open).called .fchmod).called .write)).ok ran
  exact ⟨ready.formed, forward, ready.fit.tame, served.1⟩

theorem run_sound (call : Call) (intact : file.Intact) (spares : call.SparesHead file) (small : call.rowLen < 2 ^ 31) :
    wp (@run anyPointers call) (fun _ => Sound) (fun reason last => reason = .failed → last.Sound) file := by
  cases call with
  | writeRow row => exact wp_bind (intact.writeRow row small) fun _ _ left => left
  | writeRowNewBlock row => exact wp_bind (intact.writeRowNewBlock row small) fun _ _ left => left
  | modifyRow id row => exact wp_bind (Intact.innerModifyRow stepBound _ row intact (spares id rfl) small) fun _ _ left => left
  | deleteRow id => exact wp_bind (intact.deleteRow (spares id rfl)) fun _ _ left => left
  | readRow id =>
    refine wp_bind ((keeps_innerReadRow stepBound id.1 id.2 file intact).mono (fun _ _ kept => kept) ?_) fun _ _ kept => .inl kept
    exact fun _ _ kept _ => .inl kept
  | flushBlocks =>
    refine wp_bind (intact.flushBlocks.mono (fun _ _ kept => kept) ?_) fun _ _ kept => .inl kept
    exact fun _ _ halted failed => absurd failed halted

theorem leads_intact (intact : file.Intact) (spares : call.SparesHead file) (led : call.leads file = some after) : after.Intact := by
  obtain ⟨came, fits⟩ := Option.filter_eq_some_iff.mp led
  obtain ⟨small, bounded⟩ := of_decide_eq_true fits
  exact ((run_sound call intact spares small).returned came).resolve_right bounded

/-- In every run of calls of which none changes a record of the file head, the blocks stay laid out and there is always
one to write to. -/
theorem laidOut_of_spared (created : start.Created)
    (spares : Transition.Throughout leads (fun call file => call.SparesHead file) calls start.file)
    (ran : Transition.run leads calls start.file = some file) : file.toFile.LaidOut ∧ @FindsBlock anyPointers file := by
  have intact := Transition.run_throughout (fun _ _ _ intact spares led => leads_intact intact spares led)
    (created_intact created) spares ran
  exact ⟨intact.formed.blocks_laidOut, intact.findsBlock⟩

/-- The new file of a database that is called `testdb`. -/
def testdb : History := ⟨(createFile [116, 101, 115, 116, 100, 98] 1 1 (new (fun _ _ => true) fun _ _ => 0)).2, [], []⟩

theorem testdb_created : testdb.Created := by
  obtain ⟨file, ran, _⟩ := createFile_run (fun _ _ => true) (fun _ _ _ => rfl) (fun _ _ => 0) [116, 101, 115, 116, 100, 98] 1 1
  refine ⟨fun _ _ => true, fun _ _ => 0, [116, 101, 115, 116, 100, 98], 1, 1, fun _ _ => rfl, ?_, rfl, rfl⟩
  rw [testdb, ran]

/-- A chained row, of which one piece is modified as a row and one is deleted, ids that name no row, one of them in the
file head, and a look into the file head. -/
def strayCalls : List Call :=
  [.writeRow ⟨9000, fun _ => 7⟩, .modifyRow (3, 1) (Buf.ofList [1, 2]), .readRow (2, 99), .deleteRow (2, 1), .flushBlocks,
    .modifyRow (-5, 1) (Buf.ofList [3]), .modifyRow (1, 30000) (Buf.ofList [4]), .writeRowNewBlock ⟨20000, fun _ => 8⟩,
    .readRow (1, 1)]

theorem strayCalls_laidOut : ∃ file, Transition.run leads strayCalls testdb.file = some file ∧
    file.info.usedBlockCount = 6 ∧ file.toFile.LaidOut ∧ @FindsBlock anyPointers file := by
  have used : (Transition.run leads strayCalls testdb.file).map (fun file => file.info.usedBlockCount) = some 6 := by
    decide +kernel
  obtain ⟨file, ran, count⟩ := Option.map_eq_some_iff.mp used
  exact ⟨file, ran, count, laidOut_of_spared testdb_created (by decide +kernel) ran⟩

/-- The name of the database is taken for the number of records in the file head, and a row of it for one of no bytes. -/
theorem row_of_head : testdb.Created ∧ (@run anyPointers (.modifyRow (1, 1) (Buf.ofList [9])) testdb.file).1 = .ok none ∧
    ∃ file, Transition.run leads [.modifyRow (1, 1) (Buf.ofList [9])] testdb.file = some file ∧
      file.info.usedBlockCount = 2 ∧ file.info.blockCount = 1 ∧ ¬ (file.toFile.LaidOut ∧ @FindsBlock anyPointers file) := by
  have counts : (Transition.run leads [.modifyRow (1, 1) (Buf.ofList [9])] testdb.file).map
      (fun file => (file.info.usedBlockCount, file.info.blockCount)) = some (2, 1) := by decide +kernel
  obtain ⟨file, ran, same⟩ := Option.map_eq_some_iff.mp counts
  obtain ⟨used, count⟩ := Prod.mk.inj same
  refine ⟨testdb_created, by decide +kernel, file, ran, used, count, fun both => ?_⟩
  have order := both.1.used.2
  omega

end Call

end Pingkv
