import Pingkv.DataFile.History
import Pingkv.DataFile.Survive
import Pingkv.Lib.Transition

/-! Block numbers and the offsets that `_read_block` computes for them in `int`,
in files of any length. -/

namespace Pingkv

/-- `_read_block` maps each block from where `_extend_file` wrote it. -/
def File.AtOffsets (file : File) : Prop := ∀ id : Nat, 1 ≤ id → id ≤ file.info.blockCount →
  DataFile.mapOffset id = ((id : Int) - 1) * 8192 ∧ (2 ≤ id → (file.block (id - 1)).blockId = id)

namespace DataFile

open Exec

variable {file after : DataFile}

/-- The file is as long as its head says, and each block has its number. -/
structure Numbered (file : DataFile) : Prop where
  size : (file.size : Int) = file.info.blockCount
  number : ∀ page, 0 < page → page < file.size → (file.block page).blockId = page + 1

theorem Numbered.append (numbered : file.Numbered) {content : Block} (next : content.blockId = file.info.blockCount + 1) :
    (file.append content).Numbered := by
  have size := numbered.size
  refine ⟨?_, fun page positive within => ?_⟩
  · change ((file.size + 1 : Nat) : Int) = file.info.blockCount + 1
    omega
  · change (if page = file.size then content else file.block page).blockId = page + 1
    split
    · omega
    · exact numbered.number page positive (by change page < file.size + 1 at within; omega)

theorem blind_numbered : Blind Numbered where
  called _ _ numbered := ⟨numbered.size, numbered.number⟩
  drawn _ numbered := ⟨numbered.size, numbered.number⟩
  append _ _ next numbered := numbered.append next
  written _ _ numbered := ⟨numbered.size, numbered.number⟩
  cached _ _ numbered := ⟨numbered.size, numbered.number⟩
  advance _ numbered := ⟨numbered.size, numbered.number⟩

theorem Begun.numbered (begun : Begun file) : file.Numbered := by
  obtain ⟨os, junk, dbName, fileId, pid, created⟩ := begun
  have head : (headed os junk dbName fileId pid).Numbered := by
    refine ⟨rfl, fun page positive within => ?_⟩
    change page < 1 at within
    omega
  exact ((createFile_keeps blind_numbered.extends blind_numbered.called (fun _ numbered => ⟨numbered.size, numbered.number⟩)
    (fun _ numbered => ⟨numbered.size, numbered.number⟩) head).ok created).1

/-- Up to `2 ^ 31` bytes each block lies where it is mapped from, and no further. -/
theorem Numbered.offsets_iff (numbered : file.Numbered) : file.AtOffsets ↔ file.info.blockCount ≤ 262144 := by
  have size := numbered.size
  constructor
  · intro offsets
    by_contra past
    have limit := (offsets 262145 (by omega) (by omega)).1
    rw [show ((262145 : Nat) : Int) = 262145 from rfl, mapOffset_limit] at limit
    omega
  · intro low id lower upper
    refine ⟨mapOffset_eq (by omega) (by omega), fun second => ?_⟩
    rw [numbered.number (id - 1) (by omega) (by omega)]
    omega

end DataFile

namespace Call

open DataFile Exec

/-- The calls that put a new row into the file. -/
def Writes : Call → Prop
  | writeRow _ | writeRowNewBlock _ => True
  | _ => False

theorem run_blind {stays : DataFile → Prop} (kept : Blind stays) {call : Call} (writes : call.Writes) : Keeps stays call.run := by
  cases call with
  | writeRow row => exact (kept.survives.writeRow row).bind fun _ => keeps_pure _
  | writeRowNewBlock row => exact (kept.writeRowNewBlock row).bind fun _ => keeps_pure _
  | modifyRow | deleteRow | readRow | flushBlocks => exact writes.elim

/-- The object behind a call. -/
def perform (call : Call) : DataFile → Option DataFile := returned call.run

/-- The offset that `_read_block` passes to `mmap` is right for every block exactly as long as
the file has at most `2 ^ 31` bytes. -/
theorem atOffsets_iff {calls : List Call} {file after : DataFile} (begun : Begun file) (writers : ∀ call ∈ calls, call.Writes)
    (ran : Transition.run perform calls file = some after) : after.AtOffsets ↔ after.info.blockCount ≤ 262144 := by
  refine Numbered.offsets_iff (Transition.run_throughout (fun call file after numbered writes stepped => ?_)
    begun.numbered (Transition.throughout_labels calls writers file) ran)
  exact (run_blind blind_numbered writes).returned numbered stepped

/-- A row of one byte in a block of its own. -/
private def oneByte : Call := .writeRowNewBlock (Buf.ofList [7])

/-- Such calls use one block after the other, in batches of 128. -/
private theorem fill_run (count : Nat) : ∀ {file : DataFile}, file.Ready → file.info.usedBlockCount + count ≤ 262144 →
    ∃ after, Transition.run perform (List.replicate count oneByte) file = some after ∧ after.Ready ∧
      after.info.usedBlockCount = file.info.usedBlockCount + count ∧
      after.info.blockCount % 128 = file.info.blockCount % 128 := by
  induction count with
  | zero => exact fun ready _ => ⟨_, rfl, ready, by simp, rfl⟩
  | succ count ih =>
    intro file ready room
    rcases writeRowNewBlock_short ready (Buf.ofList [7]) (by simp) with
      ⟨id, mid, ran, _, _, placed, _, batch, used, _⟩ | ⟨_, _, _, full⟩
    · obtain ⟨after, rest, readyAfter, usedAfter, batchAfter⟩ := ih placed.ready (by omega)
      have stepped : perform oneByte file = some mid := returned_of_ok (bind_ok ran)
      refine ⟨after, ?_, readyAfter, by omega, by omega⟩
      rw [List.replicate_succ, Transition.run, stepped]
      exact rest
    · omega

private theorem start_begun : Begun History.start.file ∧ History.start.file.Ready ∧
    History.start.file.info.usedBlockCount = 2 ∧ History.start.file.info.blockCount = 129 := by
  obtain ⟨file, ran, storing, _, used, count, _⟩ := createFile_run (fun _ _ => true) (fun _ _ _ => rfl) (fun _ _ => 0) [] 1 1
  have same : History.start.file = file := by rw [History.start, ran]
  rw [same]
  exact ⟨⟨_, _, _, _, _, ran⟩, storing.ready, used, count⟩

theorem oneByte_atOffsets : ∃ after, Transition.run perform [oneByte] History.start.file = some after ∧ after.AtOffsets := by
  obtain ⟨begun, ready, used, _⟩ := start_begun
  obtain ⟨after, ran, _⟩ := fill_run 1 ready (by omega)
  have count : (Transition.run perform [oneByte] History.start.file).map (fun file => file.info.blockCount) = some 129 := by
    decide +kernel
  rw [show List.replicate 1 oneByte = [oneByte] from rfl] at ran
  rw [ran, Option.map_some, Option.some.injEq] at count
  have writers : ∀ call ∈ [oneByte], call.Writes := List.forall_mem_singleton.mpr (show oneByte.Writes from trivial)
  exact ⟨after, ran, (atOffsets_iff begun writers ran).mpr (by omega)⟩

/-- After 262142 such calls the file has a block that `_read_block` would map from a negative offset. -/
theorem filled_past_limit : Begun History.start.file ∧ ∃ after,
    Transition.run perform (List.replicate 262142 oneByte) History.start.file = some after ∧
      262145 ≤ after.info.blockCount ∧ mapOffset 262145 = -2147483648 ∧ ¬ after.AtOffsets := by
  obtain ⟨begun, ready, used, count⟩ := start_begun
  obtain ⟨after, ran, readyAfter, usedAfter, batch⟩ := fill_run 262142 ready (by omega)
  have upper := readyAfter.formed.used_upper
  have past : 262145 ≤ after.info.blockCount := by omega
  refine ⟨begun, after, ran, past, mapOffset_limit, fun offsets => ?_⟩
  have limit := (offsets 262145 (by omega) past).1
  rw [show ((262145 : Nat) : Int) = 262145 from rfl, mapOffset_limit] at limit
  omega

end Call

end Pingkv
