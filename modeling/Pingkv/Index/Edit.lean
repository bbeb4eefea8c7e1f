import Pingkv.Index.Tree

/-! What the writes of `_set_key` and `_del_key` make of the bytes of a node. -/

namespace Pingkv

open SearchTree

variable {buf : Buf} {mem : Mem} {id off : Nat} {record : Record} {records before after : List Record}

/-- A record was written over another one of the same length. -/
theorem HasNode.replace (record' : Record) (node : HasNode buf id (before ++ record :: after))
    (len : recordLen record' = recordLen record)
    (laid : HasRecord mem (16 + span before) record') (kept : buf.byte.Agree mem 0 (16 + span before))
    (rest : buf.byte.Agree mem (16 + span before + recordLen record) (span after)) :
    HasNode ⟨8152, mem⟩ id (before ++ record' :: after) := by
  obtain ⟨first, _, last⟩ := hasRecords_split.mp node.laid
  have fits := node.fits
  constructor
  case len => rfl
  case blockId => exact (kept.mono 0 4 (by omega) (by omega)).int_eq.symm.trans node.blockId
  case count =>
    refine (kept.mono 4 2 (by omega) (by omega)).short_eq.symm.trans (node.count.trans ?_)
    simp
  case right => exact (kept.mono 12 4 (by omega) (by omega)).int_eq.symm.trans node.right
  case laid =>
    refine hasRecords_split.mpr ⟨first.agree (kept.mono 16 (span before) (by omega) (by omega)), laid, ?_⟩
    rw [len]
    exact last.agree rest
  case fits => simpa [len] using fits

/-- A record was written behind the last one and counted. -/
theorem HasNode.append (node : HasNode buf id records) (laid : HasRecord mem (16 + span records) record)
    (first : buf.byte.Agree mem 0 4) (kept : buf.byte.Agree mem 12 (4 + span records))
    (count : mem.short 4 = records.length + 1) (fits : 16 + span records + recordLen record ≤ 8152) :
    HasNode ⟨8152, mem⟩ id (records ++ [record]) := by
  constructor
  case len => rfl
  case blockId => exact first.int_eq.symm.trans node.blockId
  case count => simpa using count
  case right => exact (kept.mono 12 4 (by omega) (by omega)).int_eq.symm.trans node.right
  case laid =>
    exact hasRecords_append.mpr ⟨node.laid.agree (kept.mono 16 (span records) (by omega) (by omega)), laid, trivial⟩
  case fits => simpa [Nat.add_assoc] using fits

theorem HasNode.inside (node : HasNode buf id (before ++ record :: after)) :
    16 + span before + recordLen record + span after ≤ 8152 := by
  have fits := node.fits
  rw [span_append, span_cons] at fits
  omega

theorem HasNode.laid_record (node : HasNode buf id (before ++ record :: after)) :
    HasRecord buf.byte (16 + span before) record := (hasRecords_split.mp node.laid).2.1

/-- The link of a record was set. -/
theorem HasNode.link (node : HasNode buf id (before ++ record :: after)) {child : Nat} (small : child < 2147483648) :
    HasNode ⟨8152, buf.byte.putInt (16 + span before) child⟩ id (before ++ { record with left := child } :: after) := by
  have laid := node.laid_record
  apply HasNode.replace { record with left := child } node rfl
  · constructor
    · exact Mem.int_putInt_of_range (by omega) (by omega)
    · exact (Mem.agree_putInt (by omega)).int_eq.trans laid.block
    · exact (Mem.agree_putInt (by omega)).short_eq.trans laid.row
    · exact (Mem.agree_putInt (by omega)).short_eq.trans laid.keyLen
    · exact (Mem.agree_putInt (by omega)).slice_eq.trans laid.key
  · exact (Mem.agree_putInt (by omega)).symm
  · refine (Mem.agree_putInt ?_).symm
    unfold recordLen
    omega

/-- The row of a record was set to none. -/
theorem HasNode.erase (node : HasNode buf id (before ++ record :: after)) :
    HasNode ⟨8152, (buf.byte.putInt (16 + span before + 4) 0).putShort (16 + span before + 8) 0⟩ id
      (before ++ { record with value := none } :: after) := by
  have laid := node.laid_record
  apply HasNode.replace { record with value := none } node rfl
  · constructor
    · exact (Mem.agree_putShort (by omega)).int_eq.trans ((Mem.agree_putInt (by omega)).int_eq.trans laid.left)
    · exact (Mem.agree_putShort (by omega)).int_eq.trans (Mem.int_putInt_of_range (by omega) (by omega))
    · exact Mem.short_putShort_of_range (by omega) (by omega)
    · exact (Mem.agree_putShort (by omega)).short_eq.trans ((Mem.agree_putInt (by omega)).short_eq.trans laid.keyLen)
    · exact (Mem.agree_putShort (by omega)).slice_eq.trans ((Mem.agree_putInt (by omega)).slice_eq.trans laid.key)
  · exact ((Mem.agree_putShort (by omega)).trans (Mem.agree_putInt (by omega))).symm
  · refine ((Mem.agree_putShort ?_).trans (Mem.agree_putInt ?_)).symm
    all_goals unfold recordLen; omega

/-- The writes of `_set_key` into a new record. -/
def newRecord (mem : Mem) (off : Nat) (row : RecordId) (key : Buf) : Mem :=
  ((((mem.putInt (off + 4) row.blockId).putShort (off + 8) row.rowIdx).putShort (off + 10) key.len).putInt off 0).copy
    (off + 12) key.byte key.len

theorem newRecord_laid (row : RecordId) (key : Buf) (page : row.page < 262144) (place : row.place < 510)
    (short : key.len ≤ 8124) : HasRecord (newRecord mem off row key) off ⟨key.toList, 0, some row⟩ := by
  unfold newRecord
  constructor
  · exact (Mem.agree_copy (by omega)).int_eq.trans (Mem.int_putInt_of_range (by omega) (by omega))
  · refine (Mem.agree_copy (by omega)).int_eq.trans ((Mem.agree_putInt (by omega)).int_eq.trans
      ((Mem.agree_putShort (by omega)).int_eq.trans ((Mem.agree_putShort (by omega)).int_eq.trans
        (Mem.int_putInt_of_range ?_ ?_)))) <;> simp only [RecordId.blockId] <;> omega
  · refine (Mem.agree_copy (by omega)).short_eq.trans ((Mem.agree_putInt (by omega)).short_eq.trans
      ((Mem.agree_putShort (by omega)).short_eq.trans (Mem.short_putShort_of_range ?_ ?_))) <;>
      simp only [RecordId.rowIdx] <;> omega
  · simp only [Buf.toList_length]
    exact (Mem.agree_copy (by omega)).short_eq.trans ((Mem.agree_putInt (by omega)).short_eq.trans
      (Mem.short_putShort_of_range (by omega) (by omega)))
  · simp only [Buf.toList_length]
    exact Mem.slice_copy _ _ _ _

theorem newRecord_agree (row : RecordId) (key : Buf) : mem.Agree (newRecord mem off row key) 0 off := by
  unfold newRecord
  exact ((Mem.agree_copy (by omega)).trans ((Mem.agree_putInt (by omega)).trans ((Mem.agree_putShort (by omega)).trans
    ((Mem.agree_putShort (by omega)).trans (Mem.agree_putInt (by omega)))))).symm

/-- A new record behind the last one. -/
theorem HasNode.add (node : HasNode buf id records) (row : RecordId) (key : Buf) (page : row.page < 262144)
    (place : row.place < 510) (agree : buf.byte.Agree mem 0 (16 + span records))
    (fits : 16 + span records + 12 + key.len ≤ 8152) :
    HasNode ⟨8152, (newRecord mem (16 + span records) row key).putShort 4 (records.length + 1)⟩ id
      (records ++ [⟨key.toList, 0, some row⟩]) := by
  have kept := agree.trans (newRecord_agree row key)
  have many := length_le_span records
  have laid : HasRecord (newRecord mem (16 + span records) row key) (16 + span records) ⟨key.toList, 0, some row⟩ :=
    newRecord_laid row key page place (by omega)
  apply node.append
  case laid => exact laid.agree (Mem.agree_putShort (by omega)).symm
  case first => exact (kept.mono 0 4 (by omega) (by omega)).trans (Mem.agree_putShort (by omega)).symm
  case kept => exact (kept.mono 12 (4 + span records) (by omega) (by omega)).trans (Mem.agree_putShort (by omega)).symm
  case count => exact Mem.short_putShort_of_range (by omega) (by omega)
  case fits =>
    simp only [recordLen, Buf.toList_length]
    omega

end Pingkv
