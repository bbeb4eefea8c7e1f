import Pingkv.Lib.Bytes
import Pingkv.Lib.Exec

/-! The `data_file` class. A method whose name starts with an underscore in the
source and that has a public twin of the same name stands in `Inner`. -/

namespace Pingkv

/-- More steps than any loop of the code can take without coming back to a
state it was in: a run that uses them up is one that never ends. -/
def stepBound : Nat := 2 ^ 80

/-- `PINGKV_DBF_BLOCKSIZE`. -/
def blockSize : Int := 8192

/-- `sizeof(data_block::data)`. -/
def dataLen : Int := 8168

/-- `sizeof(record_index)`. -/
def recordIndexLen : Int := 16

/-- The calls into the operating system whose failure the code can see. -/
inductive OsCall where
  | open | fchmod | write | lseek | mmap | munmap | msync
  deriving DecidableEq, Repr

/-- A `data_block*`: null, `MAP_FAILED`, the mapped block at byte
`blockSize * page` of the file, or an address that was unmapped. -/
inductive BlockPtr where
  | null
  | mapFailed
  | page (page : Nat)
  | dangling
  deriving DecidableEq, Repr

structure RecordIndex where
  flags : UInt8
  offset : Int
  len : Int
  nextBlockId : Int
  nextRowIdx : Int
  deriving DecidableEq, Repr

/-- `PINGKV_DBF_ROW_DELETED`. -/
def rowDeleted (flags : UInt8) : UInt8 := flags &&& 1

/-- `PINGKV_DBF_ROW_CHAINED`. -/
def rowChained (flags : UInt8) : UInt8 := (flags &&& 2) >>> 1

/-- `PINGKV_DBF_ROW_MIGRATED`. -/
def rowMigrated (flags : UInt8) : UInt8 := (flags &&& 4) >>> 2

def rowSetDeleted (flags : UInt8) : UInt8 := flags ||| 1

def rowSetChained (flags : UInt8) : UInt8 := flags ||| 2

def rowSetMigrated (flags : UInt8) : UInt8 := flags ||| 4

/-- A `data_block`. The checksums are written but never compared. -/
structure Block where
  blockId : Int
  recordCount : Int
  data : Mem

/-- The record index number `place`, from 0, laid out at the start of `data`. -/
def recordAt (data : Mem) (place : Nat) : RecordIndex where
  flags := data (16 * place)
  offset := data.short (16 * place + 2)
  len := data.int (16 * place + 4)
  nextBlockId := data.int (16 * place + 8)
  nextRowIdx := data.short (16 * place + 12)

def putRecord (data : Mem) (place : Nat) (record : RecordIndex) : Mem :=
  ((((data.putByte (16 * place) record.flags).putShort (16 * place + 2) record.offset).putInt
    (16 * place + 4) record.len).putInt (16 * place + 8) record.nextBlockId).putShort
    (16 * place + 12) record.nextRowIdx

structure FileInfo where
  currPid : Int
  fileId : Int
  dbName : List UInt8
  blockSize : Int
  blockCount : Int
  usedBlockCount : Int
  deriving DecidableEq, Repr

/-- What the disk holds: the file head, which is block 1, and the data blocks
after it. `block page` starts at byte `blockSize * page`. Of block 1 the `data` of
`block 0` has the bytes behind the fields of `info`. -/
structure File where
  info : FileInfo
  size : Nat
  block : Nat → Block

/-- Whether a block pointer may lead to the file head. No method checks a block id, so with
ids of any origin it may; with those that the row writers hand out it never does. -/
class HeadPointers where
  followed : Bool

@[reducible] instance dataPointers : HeadPointers := ⟨false⟩

/-- Pointers to any page of the file. -/
@[reducible] def anyPointers : HeadPointers := ⟨true⟩

namespace File

/-- The bytes of `db_name`, which `strncpy` has filled up to 15. -/
def nameBytes (name : List UInt8) : List UInt8 := name ++ List.replicate (15 - name.length) 0

/-- The bytes of the file head. -/
def headBytes (file : File) : Mem :=
  let named := ((file.block 0).data.putInt 0 file.info.currPid).putInt 4 file.info.fileId
  let name := Buf.ofList (nameBytes file.info.dbName)
  (((named.copy 8 name.byte name.len).putInt 24 file.info.blockSize).putInt 28 file.info.blockCount).putInt
    32 file.info.usedBlockCount

/-- The file head as a `data_block`. -/
def headBlock (file : File) : Block :=
  ⟨file.headBytes.int 8, file.headBytes.int 12, fun place => file.headBytes (16 + place)⟩

/-- The file with a `data_block` in the place of its head. -/
def putHead (file : File) (content : Block) : File :=
  let bytes := ((file.headBytes.putInt 8 content.blockId).putInt 12 content.recordCount).copy 16 content.data dataLen.toNat
  { file with
    info := ⟨bytes.int 0, bytes.int 4, bytes.slice 8 16, bytes.int 24, bytes.int 28, bytes.int 32⟩
    block := fun page => if page = 0 then { file.block 0 with data := bytes } else file.block page }

end File

/-- `ENOENT`, which `exists` compares with as the number 2. -/
def enoent : Int := 2

/-- What a process meets outside its own code. `os call n` tells whether the `n`-th
coming call of a kind succeeds, `code n` is the `errno` the `n`-th coming failure
sets, which is not `ENOENT` where the file is there, and `junk n` is what the `n`-th
coming piece of uninitialised memory holds. -/
structure Host where
  errno : Int
  os : OsCall → Nat → Bool
  code : Nat → { code : Int // code ≠ enoent }
  junk : Nat → Mem

/-- The code of a process in which no call has failed. -/
def noCode : { code : Int // code ≠ enoent } := ⟨0, by decide⟩

/-- A `data_file` object over its file. -/
structure DataFile extends File, Host where
  cache : List (Int × BlockPtr)
  initOk : Bool

namespace DataFile

open Exec

/-- A successful call leaves `errno`. -/
def osCall (call : OsCall) : Exec DataFile Bool := fun file =>
  (.ok (file.os call 0),
    { file with
      errno := if file.os call 0 then file.errno else file.code 0
      os := fun kind n => if kind = call then file.os call (n + 1) else file.os kind n
      code := fun n => if file.os call 0 then file.code n else file.code (n + 1) })

def uninitialised : Exec DataFile Mem := fun file =>
  (.ok (file.junk 0), { file with junk := fun n => file.junk (n + 1) })

/-- Read the file head through a pointer to its page. -/
def loadHead [HeadPointers] (page : Nat) : Exec DataFile Block := do
  if HeadPointers.followed ∧ page = 0 ∧ 0 < (← read fun file => file.size) then read fun file => file.headBlock else fault

def storeHead [HeadPointers] (page : Nat) (content : Block) : Exec DataFile Unit := do
  if HeadPointers.followed ∧ page = 0 ∧ 0 < (← read fun file => file.size) then
    update fun file => { file with toFile := file.putHead content }
  else fault

@[simp] theorem loadHead_data (page : Nat) : loadHead page = fault := rfl

@[simp] theorem storeHead_data (page : Nat) (content : Block) : storeHead page content = fault := rfl

/-- Read through a block pointer. A page past the end of the file cannot be touched. -/
def load [HeadPointers] : BlockPtr → Exec DataFile Block
  | .page page => do
    if 0 < page ∧ page < (← read fun file => file.size) then read fun file => file.block page else loadHead page
  | _ => fault

def store [HeadPointers] (block : BlockPtr) (content : Block) : Exec DataFile Unit :=
  match block with
  | .page page => do
    if 0 < page ∧ page < (← read fun file => file.size) then
      update fun file => { file with block := fun other => if other = page then content else file.block other }
    else storeHead page content
  | _ => fault

/-- `std::map<int, data_block*>`, kept in key order. -/
def cachePut (blockId : Int) (block : BlockPtr) : List (Int × BlockPtr) → List (Int × BlockPtr)
  | [] => [(blockId, block)]
  | (key, other) :: rest =>
    if blockId = key then (blockId, block) :: rest
    else if blockId < key then (blockId, block) :: (key, other) :: rest
    else (key, other) :: cachePut blockId block rest

/-- `_cache[block_id]`, which adds a null entry for a key the map does not hold. -/
def cacheAt (blockId : Int) : Exec DataFile BlockPtr := do
  match (← read fun file => file.cache).lookup blockId with
  | some block => return block
  | none =>
    update fun file => { file with cache := cachePut blockId .null file.cache }
    return .null

/-- The file offset `_read_block` passes to `mmap`, computed in `int`. -/
def mapOffset (blockId : Int) : Int := wrap 32 ((blockId - 1) * Pingkv.blockSize)

/-- `data_file::_read_block`; it returns -1 exactly when the pointer is `MAP_FAILED`. -/
def readBlock (blockId : Int) : Exec DataFile BlockPtr := do
  let block ← cacheAt blockId
  if block = .null then
    if (← osCall .mmap) && decide (0 ≤ mapOffset blockId) then
      let mapped := BlockPtr.page (mapOffset blockId / Pingkv.blockSize).toNat
      update fun file => { file with cache := cachePut blockId mapped file.cache }
      return mapped
    else return .mapFailed
  else return block

/-- `data_file::_flush_out_block(data_block*)` on the cache entry of `key`. -/
def flushOutBlock [HeadPointers] (key : Int) (block : BlockPtr) : Exec DataFile Unit :=
  if block = .null then pure ()
  else do
    let content ← load block
    if ← osCall .munmap then
      update fun file => { file with
        cache := (file.cache.map fun entry => if entry.1 = key then (key, .dangling) else entry).filter
          fun entry => decide (entry.1 ≠ content.blockId) }
    else failed

def flushOutLoop [HeadPointers] : Nat → Exec DataFile Unit
  | 0 => exhausted
  | steps + 1 => do
    match ← read fun file => file.cache with
    | [] => pure ()
    | (key, block) :: _ => do
      flushOutBlock key block
      flushOutLoop steps

/-- `data_file::flush_blocks` and the `_flush_out_cache` it calls. -/
def flushBlocks [HeadPointers] : Exec DataFile Unit := flushOutLoop stepBound

def flushFileHead : Exec DataFile Unit := do
  if ← osCall .msync then pure () else failed

/-- The loop of `_extend_file`, from block number `next` on: format a block and
append it to the file. -/
def extendLoop (data : Mem) (blockId : Int) : Nat → Int → Exec DataFile Unit
  | 0, _ => pure ()
  | blocks + 1, next => do
    if ← osCall .write then
      update fun file => { file with
        size := file.size + 1
        block := fun page => if page = file.size then ⟨blockId + next, 0, data⟩ else file.block page
        info := { file.info with blockCount := file.info.blockCount + 1 } }
      extendLoop data blockId blocks (next + 1)
    else failed

def extendFile (blocks : Int) : Exec DataFile Int := do
  if ← osCall .lseek then
    let blocks := if blocks ≤ 0 then 128 else blocks
    let blockId ← read fun file => file.info.blockCount
    let data ← uninitialised
    extendLoop data blockId blocks.toNat 1
    return blocks
  else failed

/-- `if(used_block_count == block_count) _extend_file(...)`, as the two places that
take a new block do it. What `_extend_file` returns is not looked at. -/
def extendWhenUsed : Exec DataFile Unit := do
  let info ← read fun file => file.info
  if info.usedBlockCount = info.blockCount then do
    let _ ← attempt (extendFile 128)
    pure ()
  else pure ()

/-- `data_file::_row_get_record`. -/
def rowGetRecord {σ : Type} (block : Block) (idx : Int) : Exec σ RecordIndex :=
  if idx < 1 ∨ idx > block.recordCount then failed
  else if recordIndexLen * idx ≤ dataLen then pure (recordAt block.data (idx - 1).toNat)
  else fault

/-- Change fields of record `idx` through a `record_index*` into a block. -/
def setRecord [HeadPointers] (block : BlockPtr) (idx : Int) (change : RecordIndex → RecordIndex) : Exec DataFile Unit := do
  let content ← load block
  if 1 ≤ idx ∧ recordIndexLen * idx ≤ dataLen then
    store block { content with
      data := putRecord content.data (idx - 1).toNat (change (recordAt content.data (idx - 1).toNat)) }
  else fault

/-- `memcpy(block->data + offset, src, count)`. -/
def copyInto [HeadPointers] (block : BlockPtr) (offset : Int) (src : Mem) (count : Int) : Exec DataFile Unit := do
  let content ← load block
  if 0 ≤ offset ∧ 0 ≤ count ∧ offset + count ≤ dataLen then
    store block { content with data := content.data.copy offset.toNat src count.toNat }
  else fault

def blockFreeBytes [HeadPointers] (block : BlockPtr) : Exec DataFile Int := do
  let content ← load block
  if content.recordCount = 0 then return dataLen - recordIndexLen
  else
    match ← attempt (rowGetRecord content content.recordCount) with
    | none => return -1
    | some last =>
      let recordSize := (content.recordCount + 1) * recordIndexLen
      if last.offset ≤ recordSize then return 0 else return last.offset - recordSize

/-- `used_block_count += 1; _flush_file_head(); _read_block(...)`, as the two places
that take a new block do it. -/
def readNextBlock : Exec DataFile BlockPtr := do
  update fun file => { file with
    info := { file.info with usedBlockCount := file.info.usedBlockCount + 1 } }
  let _ ← attempt flushFileHead
  readBlock (← read fun file => file.info.usedBlockCount)

/-- The loop of `_find_block_can_write`, given a number of steps it may take. -/
def findLoop [HeadPointers] (steps : Nat) (block : BlockPtr) (fre : Int) : Exec DataFile (BlockPtr × Int) :=
  if fre ≠ 0 then pure (block, fre)
  else match steps with
    | 0 => exhausted
    | steps + 1 => do
      let block ← readNextBlock
      if block = .mapFailed then return (block, -1)
      let fre ← blockFreeBytes block
      if fre = -1 then return (block, -1)
      findLoop steps block fre

/-- `_find_block_can_write` with a bound on the steps of its loop: the block and
its free bytes, or -1. -/
def findBlockWithin [HeadPointers] (steps : Nat) : Exec DataFile (BlockPtr × Int) := do
  extendWhenUsed
  let block ← readBlock (← read fun file => file.info.usedBlockCount)
  if block = .mapFailed then return (block, -1)
  let fre ← blockFreeBytes block
  if fre = -1 then return (block, -1)
  findLoop steps block fre

def findBlockCanWrite [HeadPointers] : Exec DataFile (BlockPtr × Int) := findBlockWithin stepBound

/-- `data_file::_row_add_record`. -/
def rowAddRecord [HeadPointers] (block : BlockPtr) (len : Int) (chained : Bool) : Exec DataFile Int := do
  let content ← load block
  let lastOffset :=
    if content.recordCount > 0 then (recordAt content.data (content.recordCount - 1).toNat).offset else dataLen
  let count := content.recordCount + 1
  if recordIndexLen * count ≤ dataLen ∧ 0 < count then
    store block { content with
      recordCount := count
      data := putRecord content.data (count - 1).toNat {
        flags := if chained then rowSetChained 0 else 0
        offset := if chained then count * recordIndexLen else lastOffset - len
        len := len
        nextBlockId := 0
        nextRowIdx := 0 } }
    return count
  else fault

/-- The `next_offset` of `_row_get_len_in_block`: where the bytes of a record end. -/
def rowNextOffset {σ : Type} (block : Block) (idx : Int) : Exec σ Int :=
  if idx > 1 then do
    let next ← rowGetRecord block (idx - 1)
    return next.offset
  else pure dataLen

/-- `data_file::_row_get_len_in_block`. -/
def rowGetLenInBlock {σ : Type} (block : Block) (idx : Int) : Exec σ Int := do
  let curr ← rowGetRecord block idx
  let nextOffset ← rowNextOffset block idx
  if nextOffset - curr.offset > curr.len then return curr.len
  else return nextOffset - curr.offset

/-- Copy `count` bytes from `block->data + offset` to place `at` of a row buffer. -/
def copyOut {σ : Type} (block : Block) (offset count : Int) (row : Buf) (place : Int) : Exec σ Buf :=
  if 0 ≤ offset ∧ 0 ≤ count ∧ offset + count ≤ dataLen ∧ 0 ≤ place ∧ place + count ≤ row.len then
    pure { row with byte := row.byte.copy place.toNat (fun i => block.data (offset.toNat + i)) count.toNat }
  else fault

/-- The loop of `_read_row` over the pieces of a chained row. -/
def readChain [HeadPointers] : Nat → Block → Int → RecordIndex → Int → Buf → Int → Exec DataFile Buf
  | 0, _, _, _, _, _, _ => exhausted
  | steps + 1, content, idx, record, remain, row, place => do
    let readLen ← rowGetLenInBlock content idx
    let row ← copyOut content record.offset readLen row place
    if remain - readLen > 0 then do
      let block ← readBlock record.nextBlockId
      if block = .mapFailed then failed
      let content ← load block
      let next ← rowGetRecord content record.nextRowIdx
      readChain steps content record.nextRowIdx next (remain - readLen) row (place + readLen)
    else return row

namespace Inner

/-- `data_file::_read_row`: nothing for a deleted row, else its bytes. -/
def readRow [HeadPointers] : Nat → Int → Int → Exec DataFile (Option Buf)
  | 0, _, _ => exhausted
  | steps + 1, blockId, idx => do
    let block ← readBlock blockId
    if block = .mapFailed then failed
    let content ← load block
    let record ← rowGetRecord content idx
    if rowDeleted record.flags = 1 then return none
    else if rowMigrated record.flags = 1 then readRow steps record.nextBlockId record.nextRowIdx
    else if record.len < 0 then fault
    else do
      let row := Buf.mk record.len.toNat (← uninitialised)
      if rowChained record.flags = 1 then
        return some (← readChain stepBound content idx record record.len row 0)
      else
        return some (← copyOut content record.offset record.len row 0)

/-- `data_file::_write_row`: the index of the record it added. -/
def writeRow [HeadPointers] : Nat → BlockPtr → Buf → Exec DataFile Int
  | 0, _, _ => exhausted
  | steps + 1, block, row => do
    let fre ← blockFreeBytes block
    let writeLen : Int := if fre ≥ row.len then row.len else fre
    let chainedLen : Int := if fre ≥ row.len then 0 else row.len - fre
    let idx ← rowAddRecord block row.len (decide (fre < row.len))
    let record ← rowGetRecord (← load block) idx
    if chainedLen > 0 then do
      let (chainedBlock, free) ← findBlockCanWrite
      if free = -1 then failed
      let chainedRowIdx ← writeRow steps chainedBlock (row.drop writeLen.toNat)
      let chained ← load chainedBlock
      setRecord block idx fun record =>
        { record with nextBlockId := chained.blockId, nextRowIdx := chainedRowIdx }
    copyInto block record.offset row.byte writeLen
    return idx

/-- The branch of `_modify_row` that writes the row anew and links its record to it. -/
def migrateRow [HeadPointers] (block : BlockPtr) (idx : Int) (row : Buf) : Exec DataFile Unit := do
  setRecord block idx fun record => { record with flags := rowSetMigrated record.flags }
  let (newBlock, free) ← findBlockCanWrite
  if free = -1 then failed
  let newRowIdx ← writeRow stepBound newBlock row
  let new ← load newBlock
  setRecord block idx fun record => { record with nextBlockId := new.blockId, nextRowIdx := newRowIdx }

/-- `data_file::_modify_row`. -/
def modifyRow [HeadPointers] : Nat → Int → Int → Buf → Exec DataFile Unit
  | 0, _, _, _ => exhausted
  | steps + 1, blockId, idx, row => do
    let block ← readBlock blockId
    if block = .mapFailed then failed
    let record ← rowGetRecord (← load block) idx
    if rowDeleted record.flags = 1 then failed
    else if rowMigrated record.flags = 1 then modifyRow steps record.nextBlockId record.nextRowIdx row
    else if rowChained record.flags = 1 ∨ row.len > record.len then migrateRow block idx row
    else do
      copyInto block record.offset (fun _ => 0) record.len
      copyInto block record.offset row.byte row.len

end Inner

def readRow [HeadPointers] (blockId idx : Int) : Exec DataFile (Option Buf) := Inner.readRow stepBound blockId idx

def modifyRow [HeadPointers] (blockId idx : Int) (row : Buf) : Exec DataFile Unit :=
  Inner.modifyRow stepBound blockId idx row

/-- `data_file::delete_row` and `_delete_row`. -/
def deleteRow [HeadPointers] (blockId idx : Int) : Exec DataFile Unit := do
  let block ← readBlock blockId
  if block = .mapFailed then failed
  let _ ← rowGetRecord (← load block) idx
  setRecord block idx fun record => { record with flags := rowSetDeleted record.flags }

/-- The error exit of the two row writers: the message it prints reads the
block id behind the pointer before -1 is returned. -/
def writeError [HeadPointers] {α : Type} (block : BlockPtr) : Exec DataFile α := do
  let _ ← load block
  failed

def writeRow [HeadPointers] (row : Buf) : Exec DataFile (Int × Int) := do
  let (block, fre) ← findBlockCanWrite
  if fre = -1 then writeError block
  let content ← load block
  match ← attempt (Inner.writeRow stepBound block row) with
  | some idx => return (content.blockId, idx)
  | none => writeError block

def writeRowNewBlock [HeadPointers] (row : Buf) : Exec DataFile Int := do
  extendWhenUsed
  let block ← readNextBlock
  if block = .mapFailed then writeError block
  let content ← load block
  match ← attempt (Inner.writeRow stepBound block row) with
  | some _ => return content.blockId
  | none => writeError block

def readFileHead : Exec DataFile Unit := do
  if ← osCall .mmap then pure () else failed

/-- `data_file::create_file` over whatever file the path names. -/
def createFile (dbName : List UInt8) (fileId pid : Int) : Exec DataFile Unit := do
  if !(← osCall .open) then failed
  if !(← osCall .fchmod) then failed
  if !(← osCall .write) then failed
  update fun file => { file with
    size := max 1 file.size
    info := {
      currPid := pid
      fileId := fileId
      dbName := dbName.take 15
      blockSize := Pingkv.blockSize
      blockCount := 1
      usedBlockCount := 1 } }
  readFileHead
  let _ ← extendFile 128
  update fun file => { file with info := { file.info with usedBlockCount := 2 } }
  flushFileHead
  update fun file => { file with initOk := true }

/-- `data_file::open_file` on a file that is there. A file without a head cannot be read. -/
def openFile (pid : Int) (pidExists : Int → Bool) : Exec DataFile Unit := do
  if !(← osCall .open) then failed
  readFileHead
  let file ← read DataFile.toFile
  if file.size = 0 then fault
  else if file.info.currPid ≠ pid ∧ pidExists file.info.currPid then failed
  else do
    update fun file => { file with info := { file.info with currPid := pid } }
    let _ ← attempt flushFileHead
    update fun file => { file with initOk := true }

/-- `data_file::block_count`. -/
def blockCount (file : DataFile) : Int := if file.initOk then file.info.blockCount else -1

/-- `data_file::used_block_count`. -/
def usedBlockCount (file : DataFile) : Int := if file.initOk then file.info.usedBlockCount else -1

/-- `data_file::block_free_bytes`. -/
def freeBytes [HeadPointers] (blockId : Int) : Exec DataFile Int := do
  let block ← readBlock blockId
  if block = .mapFailed then return -1 else blockFreeBytes block

/-- A file without a byte. -/
def noFile : File where
  info := ⟨0, 0, [], 0, 0, 0⟩
  size := 0
  block := fun _ => ⟨0, 0, fun _ => 0⟩

/-- A `data_file` object before any file was opened, over a path that names no file. -/
def new (os : OsCall → Nat → Bool) (junk : Nat → Mem) : DataFile where
  toFile := noFile
  errno := 0
  os := os
  code := fun _ => noCode
  junk := junk
  cache := []
  initOk := false

end DataFile

end Pingkv
