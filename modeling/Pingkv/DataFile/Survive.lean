import Pingkv.DataFile.Allocate

/-! What the methods of a data file keep, whatever the operating system answers: a
property survives them all once it survives writes to blocks, `_read_block` and the
search for a block to write to. -/

namespace Pingkv

/-- The values of an `int`. -/
def IsInt (value : Int) : Prop := -2 ^ 31 ≤ value ∧ value < 2 ^ 31

namespace DataFile

open Exec

variable {file : DataFile} {blockId : Int} {stays : DataFile → Prop}

/-- What survives the parts that the methods are made of. -/
structure Survives (stays : DataFile → Prop) : Prop where
  written : ∀ contents file, stays file → stays (blocks.put contents file)
  drawn : Keeps stays uninitialised
  opened : ∀ {blockId}, IsInt blockId → Keeps stays (readBlock blockId)
  found : Keeps stays findBlockCanWrite

theorem Survives.confined {α : Type} {call : Exec DataFile α} (kept : Survives stays) (confined : blocks.Confines call) :
    Keeps stays call := confined.keeps kept.written

/-- The links in a record index are `int`s. -/
theorem rowGetRecord_bind {α : Type} {stays : DataFile → Prop} {next : RecordIndex → Exec DataFile α} (content : Block)
    (idx : Int) (kept : ∀ record : RecordIndex, IsInt record.nextBlockId → Keeps stays (next record)) :
    Keeps stays (rowGetRecord content idx >>= next) := by
  intro file holds
  refine wp_bind ((wp_rowGetRecord content idx file).mono (fun _ _ found => found) fun _ _ same => same ▸ holds) ?_
  rintro _ _ ⟨rfl, _, rfl⟩
  exact kept _ (recordAt_fits _ _).nextBlockId _ holds

theorem Survives.innerWriteRow (kept : Survives stays) (steps : Nat) : ∀ (block : BlockPtr) (row : Buf),
    Keeps stays (Inner.writeRow steps block row) := by
  induction steps with
  | zero => exact fun _ _ => keeps_stop _
  | succ steps ih =>
    intro block row
    refine (kept.confined (confines_blockFreeBytes block)).bind fun fre => ?_
    refine (kept.confined (confines_rowAddRecord block _ _)).bind fun idx => ?_
    refine (kept.confined (confines_load block)).bind fun content => rowGetRecord_bind content idx fun record _ => ?_
    have copied := (kept.confined (confines_copyInto block record.offset row.byte
      (if fre ≥ row.len then row.len else fre))).bind fun _ => keeps_pure idx
    refine keeps_ite ?_ copied
    refine kept.found.bind fun found => keeps_ite (keeps_stop _) ?_
    refine (ih found.1 _).bind fun _ => (kept.confined (confines_load found.1)).bind fun _ => ?_
    exact (kept.confined (confines_setRecord block idx _)).bind fun _ => copied

theorem Survives.readChain (kept : Survives stays) (steps : Nat) : ∀ (content : Block) (idx : Int) (record : RecordIndex)
    (remain : Int) (row : Buf) (place : Int), IsInt record.nextBlockId →
    Keeps stays (readChain steps content idx record remain row place) := by
  induction steps with
  | zero => exact fun _ _ _ _ _ _ _ => keeps_stop _
  | succ steps ih =>
    intro content idx record remain row place int
    refine (kept.confined (confines_rowGetLenInBlock content idx)).bind fun readLen => ?_
    refine (kept.confined (confines_copyOut content record.offset readLen row place)).bind fun row => ?_
    refine keeps_ite ((kept.opened int).bind fun block => keeps_ite (keeps_stop _) ?_) (keeps_pure _)
    refine (kept.confined (confines_load block)).bind fun content => ?_
    exact rowGetRecord_bind content _ fun next int => ih content _ next _ row _ int

theorem Survives.innerReadRow (kept : Survives stays) (steps : Nat) : ∀ (blockId idx : Int), IsInt blockId →
    Keeps stays (Inner.readRow steps blockId idx) := by
  induction steps with
  | zero => exact fun _ _ _ => keeps_stop _
  | succ steps ih =>
    intro blockId idx int
    refine (kept.opened int).bind fun block => keeps_ite (keeps_stop _) ?_
    refine (kept.confined (confines_load block)).bind fun content => rowGetRecord_bind content idx fun record int => ?_
    refine keeps_ite (keeps_pure _) (keeps_ite (ih _ _ int) (keeps_ite (keeps_stop _) ?_))
    refine kept.drawn.bind fun _ => keeps_ite ?_ ?_
    · exact (kept.readChain _ content idx record _ _ _ int).bind fun _ => keeps_pure _
    · exact (kept.confined (confines_copyOut content _ _ _ _)).bind fun _ => keeps_pure _

theorem Survives.migrateRow (kept : Survives stays) (block : BlockPtr) (idx : Int) (row : Buf) :
    Keeps stays (Inner.migrateRow block idx row) := by
  refine (kept.confined (confines_setRecord block idx _)).bind fun _ => ?_
  refine kept.found.bind fun found => keeps_ite (keeps_stop _) ?_
  refine (kept.innerWriteRow _ found.1 row).bind fun _ => (kept.confined (confines_load found.1)).bind fun _ => ?_
  exact kept.confined (confines_setRecord block idx _)

theorem Survives.innerModifyRow (kept : Survives stays) (steps : Nat) : ∀ (blockId idx : Int) (row : Buf), IsInt blockId →
    Keeps stays (Inner.modifyRow steps blockId idx row) := by
  induction steps with
  | zero => exact fun _ _ _ _ => keeps_stop _
  | succ steps ih =>
    intro blockId idx row int
    refine (kept.opened int).bind fun block => keeps_ite (keeps_stop _) ?_
    refine (kept.confined (confines_load block)).bind fun content => rowGetRecord_bind content idx fun record int => ?_
    refine keeps_ite (keeps_stop _) (keeps_ite (ih _ _ row int) (keeps_ite (kept.migrateRow block idx row) ?_))
    exact (kept.confined (confines_copyInto block _ _ _)).bind fun _ => kept.confined (confines_copyInto block _ _ _)

theorem Survives.deleteRow (kept : Survives stays) (idx : Int) (int : IsInt blockId) :
    Keeps stays (deleteRow blockId idx) := by
  refine (kept.opened int).bind fun block => keeps_ite (keeps_stop _) ?_
  refine (kept.confined (confines_load block)).bind fun content => ?_
  exact (kept.confined (confines_rowGetRecord content idx)).bind fun _ => kept.confined (confines_setRecord block idx _)

/-- How the two row writers go on once they have a block. -/
theorem Survives.writeInto (kept : Survives stays) {α : Type} (block : BlockPtr) (row : Buf)
    (value : Block → Int → α) : Keeps stays (do
    let content ← load block
    match ← attempt (Inner.writeRow stepBound block row) with
    | some idx => return value content idx
    | none => writeError block) := by
  refine (kept.confined (confines_load block)).bind fun content => ?_
  refine (kept.innerWriteRow stepBound block row).attempt.bind fun written => ?_
  cases written with
  | none => exact kept.confined (confines_writeError block)
  | some idx => exact keeps_pure _

theorem Survives.writeRow (kept : Survives stays) (row : Buf) : Keeps stays (writeRow row) := by
  refine kept.found.bind fun found => ?_
  have written := kept.writeInto found.1 row fun content idx => (content.blockId, idx)
  exact keeps_ite ((kept.confined (confines_writeError found.1)).bind fun _ => written) written

/-- What depends on no content of a block, no cache entry and no number of the used block. -/
structure Blind (stays : DataFile → Prop) : Prop where
  called : ∀ call file, stays file → stays (file.called call)
  drawn : Keeps stays uninitialised
  append : ∀ file content, content.blockId = file.info.blockCount + 1 → stays file → stays (file.append content)
  written : ∀ contents file, stays file → stays (blocks.put contents file)
  cached : ∀ cache file, stays file → stays { file with cache := cache }
  advance : ∀ file, stays file → stays file.advance

theorem Blind.extends (kept : Blind stays) : Extends stays :=
  ⟨kept.called .lseek, kept.called .write, kept.drawn, fun file content next _ => kept.append file content next⟩

theorem Blind.readBlock (kept : Blind stays) (blockId : Int) : Keeps stays (readBlock blockId) := by
  intro file holds
  have ran := readBlock_run file blockId
  split at ran
  · split at ran
    · exact wp_of_ok ran (kept.cached _ _ (kept.called .mmap file holds))
    · exact wp_of_ok ran (kept.cached _ _ (kept.called .mmap file holds))
  · exact wp_of_ok ran holds

theorem Blind.readNextBlock (kept : Blind stays) : Keeps stays readNextBlock := fun file holds =>
  (kept.readBlock _ _ (kept.called .msync _ (kept.advance file holds))).congr (readNextBlock_eq file)

theorem Blind.blockFreeBytes (kept : Blind stays) (block : BlockPtr) : Keeps stays (blockFreeBytes block) :=
  (confines_blockFreeBytes block).keeps kept.written

theorem Blind.findLoop (kept : Blind stays) (steps : Nat) : ∀ (block : BlockPtr) (fre : Int),
    Keeps stays (findLoop steps block fre) := by
  induction steps with
  | zero =>
    intro block fre
    unfold DataFile.findLoop
    exact keeps_ite (keeps_pure _) (keeps_stop _)
  | succ steps ih =>
    intro block fre
    unfold DataFile.findLoop
    refine keeps_ite (keeps_pure _) (kept.readNextBlock.bind fun block => keeps_ite (keeps_pure _) ?_)
    exact (kept.blockFreeBytes block).bind fun fre => keeps_ite (keeps_pure _) (ih block fre)

theorem Blind.survives (kept : Blind stays) : Survives stays where
  written := kept.written
  drawn := kept.drawn
  opened _ := kept.readBlock _
  found := kept.extends.whenUsed.bind fun _ => (keeps_read _).bind fun _ => (kept.readBlock _).bind fun block =>
    keeps_ite (keeps_pure _) ((kept.blockFreeBytes block).bind fun _ => keeps_ite (keeps_pure _) (kept.findLoop _ _ _))

theorem Blind.writeRowNewBlock (kept : Blind stays) (row : Buf) : Keeps stays (writeRowNewBlock row) := by
  refine kept.extends.whenUsed.bind fun _ => kept.readNextBlock.bind fun block => ?_
  have written := kept.survives.writeInto block row fun content _ => content.blockId
  exact keeps_ite ((kept.survives.confined (confines_writeError block)).bind fun _ => written) written

/-- The object once `create_file` has written the file head. -/
def headed (os : OsCall → Nat → Bool) (junk : Nat → Mem) (dbName : List UInt8) (fileId pid : Int) : DataFile :=
  { (((new os junk).called .open).called .fchmod).called .write with
    size := 1
    info := ⟨pid, fileId, dbName.take 15, Pingkv.blockSize, 1, 1⟩ }

/-- What `create_file` keeps from there on, in a file whose used block is the first one behind the head. -/
theorem createFile_keeps {os : OsCall → Nat → Bool} {junk : Nat → Mem} {dbName : List UInt8} {fileId pid : Int}
    (kept : Extends stays) (called : ∀ call file, stays file → stays (file.called call)) (used : ∀ file, stays file → stays { file with info := { file.info with usedBlockCount := 2 } })
    (opened : ∀ file, stays file → stays { file with initOk := true }) (head : stays (headed os junk dbName fileId pid)) :
    wp (createFile dbName fileId pid) (fun _ after => stays after ∧ after.info.usedBlockCount = 2) (fun _ _ => True)
      (new os junk) := by
  have synced : Keeps (fun file => stays file ∧ file.info.usedBlockCount = 2) flushFileHead :=
    Keeps.bind (fun file both => wp_of_ok (osCall_eq file .msync) ⟨called .msync file both.1, both.2⟩)
      fun _ => keeps_ite (keeps_pure _) (keeps_stop _)
  refine wp_bind_ok (osCall_eq _ .open) ?_
  split
  · trivial
  refine wp_bind_ok (osCall_eq _ .fchmod) ?_
  split
  · trivial
  refine wp_bind_ok (osCall_eq _ .write) ?_
  split
  · trivial
  refine wp_bind_ok (update_run _ _) ?_
  have mapped : Keeps stays readFileHead :=
    Keeps.bind (fun file holds => wp_of_ok (osCall_eq file .mmap) (called .mmap file holds))
      fun _ => keeps_ite (keeps_pure _) (keeps_stop _)
  refine wp_bind ((mapped _ head).mono (fun _ _ kept => kept) fun _ _ _ => trivial) fun _ mapped holds => ?_
  refine wp_bind ((kept.extend 128 mapped holds).mono (fun _ _ kept => kept) fun _ _ _ => trivial) fun _ extended holds => ?_
  refine wp_bind_ok (update_run _ extended) (wp_bind ((synced _ ⟨used extended holds, rfl⟩).mono
    (fun _ _ kept => kept) fun _ _ _ => trivial) fun _ after both => ?_)
  exact ⟨opened after both.1, both.2⟩

/-- What `create_file` leaves where it returns 0, whatever the operating system answers then or later. -/
def Begun (file : DataFile) : Prop := ∃ os junk dbName fileId pid,
  createFile dbName fileId pid (new os junk) = (.ok (), file)

theorem called_unmaps (call : OsCall) (file : DataFile) (unmaps : file.Unmaps) : (file.called call).Unmaps := by
  obtain ⟨after, ran, _, _, kept⟩ := osCall_run file call
  have same : file.called call = after := congrArg Prod.snd ran
  exact same ▸ kept unmaps

theorem extends_unmaps : Extends Unmaps :=
  ⟨called_unmaps .lseek, called_unmaps .write, fun _ unmaps => unmaps, fun _ _ _ _ unmaps => unmaps⟩

end DataFile

end Pingkv
