import Pingkv.DataFile.Reread
import Pingkv.DataFile.FitRows

/-! Pointers to any page of the file, the head included: what the methods of a data file
do with them where the pointers that they follow happen to lead to data blocks. -/

namespace Pingkv

namespace DataFile

open Exec

variable {file after : DataFile} {blockId : Int}

/-- Every coming call into the operating system succeeds. -/
def Served (file : DataFile) : Prop := ∀ call n, file.os call n = true

theorem Served.called (served : file.Served) (call : OsCall) : (file.called call).Served := by
  intro kind n
  change (if kind = call then file.os call (n + 1) else file.os kind n) = true
  split
  · exact served call (n + 1)
  · exact served kind n

theorem Served.maps (served : file.Served) (n : Nat) : file.ServesMaps n := fun k _ => served .mmap k

/-- Two objects over one disk whose caches lead to the right pages. -/
structure Twin (left right : DataFile) : Prop where
  file : left.toFile = right.toFile
  junk : left.junk = right.junk
  tame : left.Tame ∧ right.Tame
  served : left.Served ∧ right.Served

/-- A change of the disk alone. -/
theorem Twin.disk {left right : DataFile} (same : Twin left right) (change : File → File) :
    Twin { left with toFile := change left.toFile } { right with toFile := change right.toFile } :=
  ⟨congrArg change same.file, same.junk, same.tame, same.served⟩

/-- `_read_block` returns the address of the block and changes nothing else. -/
theorem readBlock_served (tame : file.Tame) (served : file.Served) (blockId : Int) : ∃ after,
    readBlock blockId file = (.ok (if 0 ≤ mapOffset blockId then mapped blockId else .mapFailed), after) ∧
      after.toFile = file.toFile ∧ after.junk = file.junk ∧ after.Tame ∧ after.Served := by
  obtain ⟨after, ran, same, junk, tame, _⟩ := readBlock_tame tame served.maps blockId
  refine ⟨after, ran, same, junk, tame, ?_⟩
  have opened : after = _ := congrArg Prod.snd (ran.symm.trans (readBlock_run file blockId))
  rw [opened]
  split
  · split
    · exact served.called .mmap
    · exact served.called .mmap
  · exact served

section Alike

theorem alike_twin_readBlock (blockId : Int) : Alike Twin (readBlock blockId) := by
  intro left right same
  obtain ⟨after, ran, file, junk, tame, served⟩ := readBlock_served same.tame.1 same.served.1 blockId
  obtain ⟨after', ran', file', junk', tame', served'⟩ := readBlock_served same.tame.2 same.served.2 blockId
  rw [ran, ran']
  exact ⟨rfl, by rw [file, file', same.file], by rw [junk, junk', same.junk], ⟨tame, tame'⟩, served, served'⟩

theorem alike_twin_read {α : Type} (view : File → α) : Alike Twin (read fun file => view file.toFile) :=
  fun _ _ same => ⟨by rw [read_run, read_run, same.file], same⟩

theorem alike_twin_update (change : File → File) : Alike Twin (update fun file => { file with toFile := change file.toFile }) :=
  fun _ _ same => ⟨rfl, same.disk change⟩

theorem alike_twin_osCall (call : OsCall) : Alike Twin (osCall call) := by
  intro left right same
  rw [osCall_eq, osCall_eq, same.served.1, same.served.2]
  exact ⟨rfl, same.file, same.junk, same.tame, same.served.1.called call, same.served.2.called call⟩

theorem alike_twin_uninitialised : Alike Twin uninitialised := by
  intro left right same
  refine ⟨congrArg (fun junk : Nat → Mem => Except.ok (junk 0)) same.junk, same.file, ?_, same.tame, same.served⟩
  exact congrArg (fun (junk : Nat → Mem) n => junk (n + 1)) same.junk

theorem alike_rowGetRecord (content : Block) (idx : Int) : Alike Twin (rowGetRecord content idx) :=
  alike_ite (alike_stop _) (alike_ite (alike_pure _) (alike_stop _))

theorem alike_extendLoop (data : Mem) (number : Int) (count : Nat) : ∀ next, Alike Twin (extendLoop data number count next) := by
  induction count with
  | zero => exact fun _ => alike_pure _
  | succ count ih =>
    intro next
    refine (alike_twin_osCall .write).bind fun written => alike_ite ?_ (alike_stop _)
    refine Alike.bind (alike_twin_update fun file => { file with
      size := file.size + 1
      block := fun page => if page = file.size then ⟨number + next, 0, data⟩ else file.block page
      info := { file.info with blockCount := file.info.blockCount + 1 } }) fun _ => ih (next + 1)

theorem alike_extendFile (count : Int) : Alike Twin (extendFile count) := by
  refine (alike_twin_osCall .lseek).bind fun sought => alike_ite ?_ (alike_stop _)
  refine (alike_twin_read fun file => file.info.blockCount).bind fun number => ?_
  exact alike_twin_uninitialised.bind fun data => (alike_extendLoop data number _ 1).bind fun _ => alike_pure _

end Alike

theorem mirrors_extendWhenUsed : Mirrors Twin extendWhenUsed extendWhenUsed := by
  refine (alike_twin_read fun file => file.info).mirrors.bind fun info => mirrors_ite ?_ (alike_pure _).mirrors
  exact (alike_extendFile 128).mirrors.attempt.bind fun _ => (alike_pure _).mirrors

theorem mirrors_readNextBlock : Mirrors Twin readNextBlock readNextBlock := by
  refine (alike_twin_update fun file => { file with
    info := { file.info with usedBlockCount := file.info.usedBlockCount + 1 } }).mirrors.bind fun _ => ?_
  have synced : Mirrors Twin flushFileHead flushFileHead :=
    ((alike_twin_osCall .msync).bind fun _ => alike_ite (alike_pure _) (alike_stop _)).mirrors
  refine synced.attempt.bind fun _ => ?_
  exact ((alike_twin_read fun file => file.info.usedBlockCount).bind fun _ => alike_twin_readBlock _).mirrors

/-- A pointer to a data block is followed alike; the model does not follow one to the head. -/
theorem mirrors_load (block : BlockPtr) : Mirrors Twin (@load anyPointers block) (load block) := by
  cases block with
  | page page =>
    refine (alike_twin_read File.size).mirrors.bind fun size => mirrors_ite ?_ ?_
    · exact (alike_twin_read fun file => file.block page).mirrors
    · rw [loadHead_data]
      exact mirrors_fault _
  | null | mapFailed | dangling => exact mirrors_fault _

theorem mirrors_store (block : BlockPtr) (content : Block) : Mirrors Twin (@store anyPointers block content) (store block content) := by
  cases block with
  | page page =>
    refine (alike_twin_read File.size).mirrors.bind fun size => mirrors_ite ?_ ?_
    · exact (alike_twin_update fun file => file.put page content).mirrors
    · rw [storeHead_data]
      exact mirrors_fault _
  | null | mapFailed | dangling => exact mirrors_fault _

theorem mirrors_setRecord (block : BlockPtr) (idx : Int) (change : RecordIndex → RecordIndex) :
    Mirrors Twin (@setRecord anyPointers block idx change) (setRecord block idx change) :=
  (mirrors_load block).bind fun _ => mirrors_ite (mirrors_store block _) (mirrors_fault _)

theorem mirrors_copyInto (block : BlockPtr) (offset : Int) (src : Mem) (count : Int) :
    Mirrors Twin (@copyInto anyPointers block offset src count) (copyInto block offset src count) :=
  (mirrors_load block).bind fun _ => mirrors_ite (mirrors_store block _) (mirrors_fault _)

theorem mirrors_blockFreeBytes (block : BlockPtr) : Mirrors Twin (@blockFreeBytes anyPointers block) (blockFreeBytes block) := by
  refine (mirrors_load block).bind fun content => mirrors_ite (alike_pure _).mirrors ?_
  refine (alike_rowGetRecord content _).mirrors.attempt.bind fun last => ?_
  cases last with
  | none => exact (alike_pure _).mirrors
  | some last => exact mirrors_ite (alike_pure _).mirrors (alike_pure _).mirrors

theorem mirrors_rowAddRecord (block : BlockPtr) (len : Int) (chained : Bool) :
    Mirrors Twin (@rowAddRecord anyPointers block len chained) (rowAddRecord block len chained) :=
  (mirrors_load block).bind fun _ =>
    mirrors_ite ((mirrors_store block _).bind fun _ => (alike_pure _).mirrors) (mirrors_fault _)

theorem mirrors_findLoop (steps : Nat) : ∀ (block : BlockPtr) (fre : Int),
    Mirrors Twin (@findLoop anyPointers steps block fre) (findLoop steps block fre) := by
  induction steps with
  | zero =>
    intro block fre
    rw [@findLoop.eq_def anyPointers, findLoop.eq_def]
    exact mirrors_ite (alike_pure _).mirrors (alike_stop _).mirrors
  | succ steps ih =>
    intro block fre
    rw [@findLoop.eq_def anyPointers, findLoop.eq_def]
    refine mirrors_ite (alike_pure _).mirrors (mirrors_readNextBlock.bind fun block => ?_)
    refine mirrors_ite (alike_pure _).mirrors ((mirrors_blockFreeBytes block).bind fun fre => ?_)
    exact mirrors_ite (alike_pure _).mirrors (ih block fre)

theorem mirrors_findBlockWithin (steps : Nat) :
    Mirrors Twin (@findBlockWithin anyPointers steps) (findBlockWithin steps) := by
  refine mirrors_extendWhenUsed.bind fun _ => ?_
  refine (alike_twin_read fun file => file.info.usedBlockCount).mirrors.bind fun _ => ?_
  refine (alike_twin_readBlock _).mirrors.bind fun block => mirrors_ite (alike_pure _).mirrors ?_
  refine (mirrors_blockFreeBytes block).bind fun fre => ?_
  exact mirrors_ite (alike_pure _).mirrors (mirrors_findLoop steps block fre)

theorem mirrors_innerWriteRow (steps : Nat) : ∀ (block : BlockPtr) (row : Buf),
    Mirrors Twin (@Inner.writeRow anyPointers steps block row) (Inner.writeRow steps block row) := by
  induction steps with
  | zero => exact fun _ _ => (alike_stop _).mirrors
  | succ steps ih =>
    intro block row
    refine (mirrors_blockFreeBytes block).bind fun fre => ?_
    refine (mirrors_rowAddRecord block _ _).bind fun idx => ?_
    refine (mirrors_load block).bind fun content => (alike_rowGetRecord content idx).mirrors.bind fun record => ?_
    have indexed : Mirrors Twin (pure idx) (pure idx) := (alike_pure idx).mirrors
    have copied := (mirrors_copyInto block record.offset row.byte (if fre ≥ row.len then row.len else fre)).bind fun _ => indexed
    refine mirrors_ite ?_ copied
    refine (mirrors_findBlockWithin stepBound).bind fun found => mirrors_ite (alike_stop _).mirrors ?_
    refine (ih found.1 _).bind fun _ => (mirrors_load found.1).bind fun _ => ?_
    exact (mirrors_setRecord block idx _).bind fun _ => copied

theorem mirrors_migrateRow (block : BlockPtr) (idx : Int) (row : Buf) :
    Mirrors Twin (@Inner.migrateRow anyPointers block idx row) (Inner.migrateRow block idx row) := by
  refine (mirrors_setRecord block idx _).bind fun _ => ?_
  refine (mirrors_findBlockWithin stepBound).bind fun found => mirrors_ite (alike_stop _).mirrors ?_
  refine (mirrors_innerWriteRow _ found.1 row).bind fun _ => (mirrors_load found.1).bind fun _ => ?_
  exact mirrors_setRecord block idx _

theorem mirrors_writeError {α : Type} (block : BlockPtr) :
    Mirrors Twin (@writeError anyPointers α block) (writeError block) :=
  (mirrors_load block).bind fun _ => (alike_stop _).mirrors

/-- How the two row writers go on once they have a block. -/
theorem mirrors_writeInto {α : Type} (block : BlockPtr) (row : Buf) (value : Block → Int → α) : Mirrors Twin
    (do
      let content ← @load anyPointers block
      match ← attempt (@Inner.writeRow anyPointers stepBound block row) with
      | some idx => return value content idx
      | none => @writeError anyPointers α block)
    (do
      let content ← load block
      match ← attempt (Inner.writeRow stepBound block row) with
      | some idx => return value content idx
      | none => writeError block) := by
  refine (mirrors_load block).bind fun content => ?_
  refine (mirrors_innerWriteRow stepBound block row).attempt.bind fun written => ?_
  cases written with
  | none => exact mirrors_writeError block
  | some idx => exact (alike_pure _).mirrors

theorem mirrors_writeRow (row : Buf) : Mirrors Twin (@writeRow anyPointers row) (writeRow row) := by
  refine (mirrors_findBlockWithin stepBound).bind fun found => ?_
  have written := mirrors_writeInto found.1 row fun content idx => (content.blockId, idx)
  exact mirrors_ite ((mirrors_writeError found.1).bind fun _ => written) written

theorem mirrors_writeRowNewBlock (row : Buf) :
    Mirrors Twin (@writeRowNewBlock anyPointers row) (writeRowNewBlock row) := by
  refine mirrors_extendWhenUsed.bind fun _ => mirrors_readNextBlock.bind fun block => ?_
  have written := mirrors_writeInto block row fun content _ => content.blockId
  exact mirrors_ite ((mirrors_writeError block).bind fun _ => written) written

end DataFile

end Pingkv
