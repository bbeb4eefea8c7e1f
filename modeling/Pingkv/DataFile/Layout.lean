import Pingkv.DataFile.Basic

/-! The layout of one block: the index array grows up from the start of `data`,
the records grow down from its end, and the two never meet. -/

namespace Pingkv

private theorem all_flags (holds : UInt8 → Prop) (checked : ∀ n : Fin 256, holds (UInt8.ofFin n))
    (flags : UInt8) : holds flags := by
  simpa using checked flags.toFin

@[simp] theorem rowDeleted_setMigrated (flags : UInt8) :
    rowDeleted (rowSetMigrated flags) = rowDeleted flags :=
  all_flags (fun flags => rowDeleted (rowSetMigrated flags) = rowDeleted flags) (by decide +kernel) flags

@[simp] theorem rowMigrated_setMigrated (flags : UInt8) : rowMigrated (rowSetMigrated flags) = 1 :=
  all_flags (fun flags => rowMigrated (rowSetMigrated flags) = 1) (by decide +kernel) flags

@[simp] theorem rowDeleted_setDeleted (flags : UInt8) : rowDeleted (rowSetDeleted flags) = 1 :=
  all_flags (fun flags => rowDeleted (rowSetDeleted flags) = 1) (by decide +kernel) flags

section Records

variable {data data' : Mem} {place other start count : Nat} {record : RecordIndex}

/-- The fields of a record index hold values of their types. -/
structure RecordIndex.Fits (record : RecordIndex) : Prop where
  offset : -32768 ≤ record.offset ∧ record.offset < 32768
  len : -2147483648 ≤ record.len ∧ record.len < 2147483648
  nextBlockId : -2147483648 ≤ record.nextBlockId ∧ record.nextBlockId < 2147483648
  nextRowIdx : -32768 ≤ record.nextRowIdx ∧ record.nextRowIdx < 32768

theorem recordAt_fits (data : Mem) (place : Nat) : (recordAt data place).Fits :=
  ⟨by simpa only [recordAt] using Mem.short_bounds data (16 * place + 2),
    by simpa only [recordAt] using Mem.int_bounds data (16 * place + 4),
    by simpa only [recordAt] using Mem.int_bounds data (16 * place + 8),
    by simpa only [recordAt] using Mem.short_bounds data (16 * place + 12)⟩

/-- Writing one record index leaves the bytes outside it as they were. -/
theorem agree_putRecord (disjoint : start + count ≤ 16 * place ∨ 16 * place + 16 ≤ start) :
    Mem.Agree (putRecord data place record) data start count :=
  (Mem.agree_putShort (by omega)).trans <| (Mem.agree_putInt (by omega)).trans <|
    (Mem.agree_putInt (by omega)).trans <| (Mem.agree_putShort (by omega)).trans <|
    Mem.agree_putByte (by omega)

/-- The record indexes below a place depend on the bytes below it only. -/
theorem recordAt_congr (agree : Mem.Agree data data' (16 * place) 16) :
    recordAt data place = recordAt data' place := by
  have flags := (agree.mono (16 * place) 1 (by omega) (by omega)).byte_eq
  have offset := (agree.mono (16 * place + 2) 2 (by omega) (by omega)).short_eq
  have len := (agree.mono (16 * place + 4) 4 (by omega) (by omega)).int_eq
  have nextBlockId := (agree.mono (16 * place + 8) 4 (by omega) (by omega)).int_eq
  have nextRowIdx := (agree.mono (16 * place + 12) 2 (by omega) (by omega)).short_eq
  simp only [recordAt, flags, offset, len, nextBlockId, nextRowIdx]

theorem recordAt_putRecord_ne (different : other ≠ place) :
    recordAt (putRecord data place record) other = recordAt data other :=
  recordAt_congr (agree_putRecord (by omega))

theorem recordAt_putRecord_same (fits : record.Fits) :
    recordAt (putRecord data place record) place = record := by
  obtain ⟨flags, offset, len, nextBlockId, nextRowIdx⟩ := record
  let first := data.putByte (16 * place) flags
  let second := first.putShort (16 * place + 2) offset
  let third := second.putInt (16 * place + 4) len
  let fourth := third.putInt (16 * place + 8) nextBlockId
  let last := fourth.putShort (16 * place + 12) nextRowIdx
  have keepFirst : Mem.Agree last first (16 * place) 1 :=
    (Mem.agree_putShort (by omega)).trans <| (Mem.agree_putInt (by omega)).trans <|
      (Mem.agree_putInt (by omega)).trans (Mem.agree_putShort (by omega))
  have keepSecond : Mem.Agree last second (16 * place + 2) 2 :=
    (Mem.agree_putShort (by omega)).trans <| (Mem.agree_putInt (by omega)).trans
      (Mem.agree_putInt (by omega))
  have keepThird : Mem.Agree last third (16 * place + 4) 4 :=
    (Mem.agree_putShort (by omega)).trans (Mem.agree_putInt (by omega))
  have keepFourth : Mem.Agree last fourth (16 * place + 8) 4 := Mem.agree_putShort (by omega)
  change recordAt last place = _
  simp only [recordAt, RecordIndex.mk.injEq]
  refine ⟨?_, ?_, ?_, ?_, ?_⟩
  · exact keepFirst.byte_eq.trans (Mem.putByte_same data (16 * place) flags)
  · exact keepSecond.short_eq.trans (Mem.short_putShort_of_range fits.offset.1 fits.offset.2)
  · exact keepThird.int_eq.trans (Mem.int_putInt_of_range fits.len.1 fits.len.2)
  · exact keepFourth.int_eq.trans (Mem.int_putInt_of_range fits.nextBlockId.1 fits.nextBlockId.2)
  · exact Mem.short_putShort_of_range fits.nextRowIdx.1 fits.nextRowIdx.2

end Records

namespace Block

variable {block : Block}

/-- The start of record number `place`, from 1, and the end of `data` for 0. -/
def offset (block : Block) : Nat → Int
  | 0 => dataLen
  | place + 1 => (recordAt block.data place).offset

theorem offset_succ (block : Block) (place : Nat) :
    block.offset (place + 1) = (recordAt block.data place).offset := rfl

/-- The number of records. -/
def count (block : Block) : Nat := block.recordCount.toNat

/-- Record offsets never increase and stay above the index array. -/
structure Formed (block : Block) : Prop where
  counted : 0 ≤ block.recordCount
  falling : ∀ place < block.count, block.offset (place + 1) ≤ block.offset place
  above : recordIndexLen * block.recordCount ≤ block.offset block.count

theorem Formed.count_eq (formed : block.Formed) : (block.count : Int) = block.recordCount :=
  Int.toNat_of_nonneg formed.counted

theorem Formed.antitone (formed : block.Formed) {lower upper : Nat} (order : lower ≤ upper)
    (within : upper ≤ block.count) : block.offset upper ≤ block.offset lower := by
  induction order with
  | refl => exact Int.le_refl _
  | @step upper _ ih => exact Int.le_trans (formed.falling upper within) (ih (Nat.le_of_succ_le within))

/-- Every record starts inside `data`, above the whole index array. -/
theorem Formed.bounds (formed : block.Formed) {place : Nat} (within : place ≤ block.count) :
    16 * block.recordCount ≤ block.offset place ∧ block.offset place ≤ 8168 :=
  ⟨Int.le_trans formed.above (formed.antitone within (Nat.le_refl _)),
    formed.antitone (Nat.zero_le place) within⟩

theorem Formed.count_le (formed : block.Formed) : block.recordCount ≤ 510 := by
  have bounds := formed.bounds (Nat.zero_le _)
  omega

theorem formed_of_empty (empty : block.recordCount = 0) : block.Formed := by
  have none : block.count = 0 := by simp [count, empty]
  refine ⟨by omega, fun place below => by omega, ?_⟩
  simp [none, empty, offset, dataLen]

/-- The free bytes `_block_free_bytes` reports for a formed block. -/
def free (block : Block) : Int :=
  if block.recordCount = 0 then 8152
  else if block.offset block.count ≤ (block.recordCount + 1) * 16 then 0
  else block.offset block.count - (block.recordCount + 1) * 16

theorem free_nonneg (block : Block) : 0 ≤ block.free := by
  unfold free
  split
  · omega
  · split <;> omega

/-- A block with free bytes has room for one more record index below them. -/
theorem free_room (room : block.free ≠ 0) :
    block.offset block.count = 16 * (block.recordCount + 1) + block.free := by
  unfold free at room ⊢
  by_cases empty : block.recordCount = 0
  · simp [empty, count, offset, dataLen]
  · simp only [empty, if_false] at room ⊢
    split at room
    · exact absurd rfl room
    · rename_i more
      simp only [more, if_false]
      omega

/-- The block after `_row_add_record`. -/
def addRecord (block : Block) (record : RecordIndex) : Block where
  blockId := block.blockId
  recordCount := block.recordCount + 1
  data := putRecord block.data block.count record

/-- The block after a change of one record index. -/
def changeRecord (block : Block) (place : Nat) (record : RecordIndex) : Block :=
  { block with data := putRecord block.data place record }

/-- The block after a copy into its records. -/
def copyData (block : Block) (start : Nat) (src : Mem) (size : Nat) : Block :=
  { block with data := block.data.copy start src size }

theorem addRecord_count (formed : block.Formed) (record : RecordIndex) :
    (block.addRecord record).count = block.count + 1 := by
  have counted := formed.counted
  simp only [count, addRecord]
  omega

theorem addRecord_old {record : RecordIndex} {place : Nat} (old : place < block.count) :
    recordAt (block.addRecord record).data place = recordAt block.data place :=
  recordAt_putRecord_ne (Nat.ne_of_lt old)

theorem addRecord_offset_old {record : RecordIndex} {place : Nat} (old : place ≤ block.count) :
    (block.addRecord record).offset place = block.offset place := by
  cases place with
  | zero => rfl
  | succ place => exact congrArg RecordIndex.offset (addRecord_old (by omega))

/-- A record that starts between the grown index array and the last record
leaves the block formed. -/
theorem Formed.addRecord (formed : block.Formed) {record : RecordIndex} (fits : record.Fits)
    (above : 16 * (block.recordCount + 1) ≤ record.offset)
    (below : record.offset ≤ block.offset block.count) : (block.addRecord record).Formed := by
  have counted := formed.count_eq
  have grown := addRecord_count formed record
  have added : (block.addRecord record).offset (block.count + 1) = record.offset :=
    congrArg RecordIndex.offset (recordAt_putRecord_same fits)
  refine ⟨?_, ?_, ?_⟩
  · change 0 ≤ block.recordCount + 1
    omega
  · intro place within
    rw [grown] at within
    by_cases last : place = block.count
    · rw [last, added, addRecord_offset_old (Nat.le_refl _)]
      exact below
    · rw [addRecord_offset_old (by omega), addRecord_offset_old (by omega)]
      exact formed.falling place (by omega)
  · rw [grown, added]
    exact above

/-- The records of a changed block: one new index, the others as they were. -/
theorem changeRecord_ne {record : RecordIndex} {place other : Nat} (different : other ≠ place) :
    recordAt (block.changeRecord place record).data other = recordAt block.data other :=
  recordAt_putRecord_ne different

theorem changeRecord_offset {record : RecordIndex} {place : Nat} (fits : record.Fits)
    (same : record.offset = block.offset (place + 1)) (other : Nat) :
    (block.changeRecord place record).offset other = block.offset other := by
  cases other with
  | zero => rfl
  | succ other =>
    by_cases target : other = place
    · subst target
      rw [← same]
      exact congrArg RecordIndex.offset (recordAt_putRecord_same fits)
    · exact congrArg RecordIndex.offset (changeRecord_ne target)

theorem Formed.changeRecord (formed : block.Formed) {record : RecordIndex} {place : Nat}
    (fits : record.Fits) (same : record.offset = block.offset (place + 1)) :
    (block.changeRecord place record).Formed := by
  refine ⟨formed.counted, ?_, ?_⟩
  · intro other within
    rw [changeRecord_offset fits same, changeRecord_offset fits same]
    exact formed.falling other within
  · change recordIndexLen * block.recordCount ≤ (block.changeRecord place record).offset block.count
    rw [changeRecord_offset fits same]
    exact formed.above

/-- A copy above the index array changes no record index. -/
theorem copyData_record (formed : block.Formed) {start size : Nat} {src : Mem} {place : Nat}
    (above : 16 * block.recordCount ≤ start) (within : place < block.count) :
    recordAt (block.copyData start src size).data place = recordAt block.data place := by
  have counted := formed.count_eq
  exact recordAt_congr (Mem.agree_copy (by omega))

theorem copyData_offset (formed : block.Formed) {start size : Nat} {src : Mem} {place : Nat}
    (above : 16 * block.recordCount ≤ start) (within : place ≤ block.count) :
    (block.copyData start src size).offset place = block.offset place := by
  cases place with
  | zero => rfl
  | succ place => exact congrArg RecordIndex.offset (copyData_record formed above within)

theorem Formed.copyData (formed : block.Formed) {start size : Nat} {src : Mem}
    (above : 16 * block.recordCount ≤ start) : (block.copyData start src size).Formed := by
  refine ⟨formed.counted, ?_, ?_⟩
  · intro place within
    rw [copyData_offset formed above (Nat.le_of_lt within), copyData_offset formed above within]
    exact formed.falling place within
  · change recordIndexLen * block.recordCount ≤ (block.copyData start src size).offset block.count
    rw [copyData_offset formed above (Nat.le_refl _)]
    exact formed.above

end Block

end Pingkv
