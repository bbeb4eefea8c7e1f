import Pingkv.DataFile.Basic

/-! The on-disk part of the `kv_index` class: search-tree nodes kept as rows of
a data file. A node is handled as the heap buffer `read_row` returns, and every
access to it is checked against the length of that buffer. -/

namespace Pingkv

/-- `KV_INDEX_NODE_LEN`. -/
def nodeLen : Int := 8152

/-- `sizeof(k_info)`. -/
def kInfoLen : Int := 12

/-- `sizeof(node_head)`. -/
def nodeHeadLen : Int := 16

end Pingkv

namespace Buf

open Exec

variable {σ : Type}

/-- An `int` field of the structure laid out at `place`. -/
def getInt (buf : Buf) (place : Int) : Exec σ Int :=
  if 0 ≤ place ∧ place + 4 ≤ buf.len then pure (buf.byte.int place.toNat) else fault

/-- A `short` field. -/
def getShort (buf : Buf) (place : Int) : Exec σ Int :=
  if 0 ≤ place ∧ place + 2 ≤ buf.len then pure (buf.byte.short place.toNat) else fault

def setInt (buf : Buf) (place value : Int) : Exec σ Buf :=
  if 0 ≤ place ∧ place + 4 ≤ buf.len then
    pure { buf with byte := buf.byte.putInt place.toNat value }
  else fault

def setShort (buf : Buf) (place value : Int) : Exec σ Buf :=
  if 0 ≤ place ∧ place + 2 ≤ buf.len then
    pure { buf with byte := buf.byte.putShort place.toNat value }
  else fault

/-- `memcpy(buf + place, src, src.len)`. -/
def write (buf : Buf) (place : Int) (src : Buf) : Exec σ Buf :=
  if 0 ≤ place ∧ place + src.len ≤ buf.len then
    pure { buf with byte := buf.byte.copy place.toNat src.byte src.len }
  else fault

end Buf

namespace Pingkv

/-- `memcmp`: the difference of the first two bytes that differ. -/
def memcmp (first second : Mem) : Nat → Nat → Int
  | _, 0 => 0
  | place, count + 1 =>
    if first place = second place then memcmp first second (place + 1) count
    else (first place).toNat - (second place).toNat

namespace KvIndex

open Exec DataFile

variable {σ : Type}

/-- `kv_index::_cmp_key` on the keys at two places of two buffers. -/
def cmpKey (k1 : Buf) (place1 len1 : Int) (k2 : Buf) (place2 len2 : Int) : Exec σ Int :=
  let len := if len1 < len2 then len1 else len2
  if 0 ≤ len ∧ 0 ≤ place1 ∧ place1 + len ≤ k1.len ∧ 0 ≤ place2 ∧ place2 + len ≤ k2.len then
    let ret := memcmp (fun i => k1.byte (place1.toNat + i)) (fun i => k2.byte (place2.toNat + i)) 0 len.toNat
    if ret = 0 then
      if len1 = len2 then pure 0 else pure (if len1 > len2 then 1 else -1)
    else pure ret
  else fault

/-- `kv_index::_get_key_from_record`: where the key starts, and its length. -/
def getKeyFromRecord (node : Buf) (record : Int) : Exec σ (Int × Int) := do
  let len ← node.getShort (record + 10)
  return (record + kInfoLen, len)

/-- The loop of `_node_free_space`. -/
def freeSpaceLoop (node : Buf) : Nat → Int → Int → Exec σ Int
  | 0, _, ret => pure ret
  | records + 1, record, ret => do
    let (key, len) ← getKeyFromRecord node record
    freeSpaceLoop node records (key + len) (ret - kInfoLen - len)

/-- `kv_index::_node_free_space`. -/
def nodeFreeSpace (node : Buf) : Exec σ Int := do
  let count ← node.getShort 4
  let ret ← freeSpaceLoop node count.toNat nodeHeadLen (nodeLen - nodeHeadLen)
  return ret - kInfoLen

/-- A record of a node: its place, and the place and length of its key. -/
structure KeyPos where
  info : Int
  key : Int
  keyLen : Int

/-- How the loop of `_find_pos` ends: at a record with the key looked for, or
after the last record. -/
inductive Scan where
  | found (info : Int)
  | passed (next : Int) (found : Option KeyPos) (space : Int)

/-- The test of `_find_pos` for a greater key that comes before the one found so far. -/
def isCloser (node : Buf) (found : Option KeyPos) (currKey currKeyLen : Int) : Exec σ Bool :=
  match found with
  | none => pure true
  | some last => do
    let order ← cmpKey node last.key last.keyLen node currKey currKeyLen
    return decide (order > 0)

/-- The loop of `_find_pos`. The record it looks at starts at `next`; `space`
is reduced by `sizeof(curr_k_info)`, the size of a pointer. -/
def findPosLoop (node key : Buf) : Nat → Int → Option KeyPos → Int → Exec σ Scan
  | 0, next, found, space => pure (.passed next found space)
  | records + 1, next, found, space => do
    let (currKey, currKeyLen) ← getKeyFromRecord node next
    let cmp ← cmpKey node currKey currKeyLen key 0 key.len
    if cmp = 0 then return .found next
    else if cmp < 0 then findPosLoop node key records (currKey + currKeyLen) found space
    else do
      let closer ← isCloser node found currKey currKeyLen
      let found := if closer then some ⟨next, currKey, currKeyLen⟩ else found
      findPosLoop node key records (currKey + currKeyLen) found (space - 8 - currKeyLen)

/-- `kv_index::_find_pos`: the place found and the node, in which a place after
the last record gets a zeroed `k_info`. The test of the space is unsigned. -/
def findPos (node key : Buf) : Exec σ (Option Int × Buf) := do
  let count ← node.getShort 4
  match ← findPosLoop node key count.toNat nodeHeadLen none (nodeLen - nodeHeadLen) with
  | .found info => return (some info, node)
  | .passed _ (some found) _ => return (some found.info, node)
  | .passed next none space =>
    if space % 2 ^ 64 ≥ (kInfoLen + key.len) % 2 ^ 64 then
      let node ← node.setInt (next + 4) 0
      let node ← node.setShort (next + 10) 0
      let node ← node.setInt next 0
      let node ← node.setShort (next + 8) 0
      return (some next, node)
    else return (none, node)

/-- The buffer behind the pointer `read_row` hands out: null for a deleted row. -/
def rowBuf : Option Buf → Buf
  | some buf => buf
  | none => ⟨0, fun _ => 0⟩

/-- `kv_index::_get_node`. -/
def getNode (blockId : Int) : Exec DataFile Buf := return rowBuf (← readRow blockId 1)

/-- `kv_index::_get_root`. -/
def getRoot : Exec DataFile Buf := return rowBuf (← readRow 2 1)

/-- `kv_index::_save_node`. -/
def saveNode (node : Buf) : Exec DataFile Unit := do
  let blockId ← node.getInt 0
  if nodeLen ≤ node.len then modifyRow blockId 1 ⟨nodeLen.toNat, node.byte⟩ else fault

/-- `kv_index::_add_node`. -/
def addNode (parentBlockId : Int) : Exec DataFile Int := do
  let node := Buf.mk nodeLen.toNat (← uninitialised)
  let node ← node.setInt 0 0
  let node ← node.setInt 8 parentBlockId
  let node ← node.setInt 12 0
  let node ← node.setShort 4 0
  let blockId ← writeRowNewBlock node
  let node ← node.setInt 0 blockId
  saveNode node
  return blockId

/-- `kv_index::_find_key`: the block id and the row index of the value, 0 for none. -/
def findKey : Nat → Buf → Buf → Exec DataFile (Int × Int)
  | 0, _, _ => exhausted
  | steps + 1, node, key => do
    match ← findPos node key with
    | (some pos, node) =>
      let keyLen ← node.getShort (pos + 10)
      if (← cmpKey node (pos + kInfoLen) keyLen key 0 key.len) = 0 then
        let blockId ← node.getInt (pos + 4)
        let rowIdx ← node.getShort (pos + 8)
        return (blockId, rowIdx)
      else
        let left ← node.getInt pos
        if left ≠ 0 then findKey steps (← getNode left) key else return (0, 0)
    | (none, node) =>
      let right ← node.getInt 12
      if right ≠ 0 then findKey steps (← getNode right) key else return (0, 0)

/-- The node linked to at a place of a node, as `_set_key` takes it: with no link
there it adds a node and links to that one. -/
def childAt (node : Buf) (place : Int) : Exec DataFile Int := do
  let child ← node.getInt place
  if child = 0 then do
    let child ← addNode (← node.getInt 0)
    saveNode (← node.setInt place child)
    return child
  else return child

/-- The branch of `_set_key` for a record without a value: it is counted as a new one. -/
def setRecord (node : Buf) (pos : Int) (key value : Buf) : Exec DataFile Unit := do
  let (valBlockId, valRowIdx) ← writeRow value
  let node ← node.setInt (pos + 4) valBlockId
  let node ← node.setShort (pos + 8) valRowIdx
  let node ← node.setShort (pos + 10) key.len
  let node ← node.setInt pos 0
  let node ← node.write (pos + kInfoLen) key
  let count ← node.getShort 4
  saveNode (← node.setShort 4 (count + 1))

/-- `kv_index::_set_key`. -/
def setKey : Nat → Buf → Buf → Buf → Exec DataFile Unit
  | 0, _, _, _ => exhausted
  | steps + 1, node, key, value => do
    match ← findPos node key with
    | (none, node) =>
      let childId ← childAt node 12
      setKey steps (← getNode childId) key value
    | (some pos, node) =>
      let blockId ← node.getInt (pos + 4)
      if blockId = 0 then setRecord node pos key value
      else
        let keyLen ← node.getShort (pos + 10)
        if (← cmpKey node (pos + kInfoLen) keyLen key 0 key.len) = 0 then
          modifyRow blockId (← node.getShort (pos + 8)) value
        else
          let childId ← childAt node pos
          setKey steps (← getNode childId) key value

/-- `kv_index::_del_key`. What `_save_node` returns is not looked at. -/
def delKey (node key : Buf) : Exec DataFile Unit := do
  match ← findPos node key with
  | (none, _) => pure ()
  | (some pos, node) =>
    let blockId ← node.getInt (pos + 4)
    if blockId = 0 then pure ()
    else
      let keyLen ← node.getShort (pos + 10)
      if (← cmpKey node (pos + kInfoLen) keyLen key 0 key.len) = 0 then
        deleteRow blockId (← node.getShort (pos + 8))
        let node ← node.setInt (pos + 4) 0
        let node ← node.setShort (pos + 8) 0
        let _ ← attempt (saveNode node)
      else pure ()

namespace Inner

/-- `kv_index::_get`: the value, or nothing when it returns 0 with a null pointer. -/
def get (key : Buf) : Exec DataFile (Option Buf) := do
  let root ← getRoot
  let (blockId, rowIdx) ← findKey stepBound root key
  if blockId = 0 then return none else readRow blockId rowIdx

/-- `kv_index::_set`. -/
def set (key value : Buf) : Exec DataFile Unit := do
  let root ← getRoot
  setKey stepBound root key value

/-- `kv_index::_del`. -/
def del (key : Buf) : Exec DataFile Unit := do
  let root ← getRoot
  delKey root key

end Inner

/-- The number `_get` returns: the length of the value, 0 for none. -/
def valueLen : Option Buf → Nat
  | some value => value.len
  | none => 0

/-- `kv_index::_create`. -/
def create : Exec DataFile Unit := do
  let head := Buf.mk nodeLen.toNat fun _ => 0
  let head ← head.setInt 0 2
  let head ← head.setInt 8 0
  let head ← head.setShort 4 0
  let head ← head.setInt 12 0
  let (blockId, rowIdx) ← writeRow head
  if blockId ≠ 2 ∨ rowIdx ≠ 1 then failed

/-! The length of a key of a request is converted to a `short` and may turn
negative. In `Narrow` it stands as a number of its own. -/

namespace Narrow

/-- The loop of `_find_pos`. -/
def findPosLoop (node key : Buf) (keyLen : Int) : Nat → Int → Option KeyPos → Int → Exec σ Scan
  | 0, next, found, space => pure (.passed next found space)
  | records + 1, next, found, space => do
    let (currKey, currKeyLen) ← getKeyFromRecord node next
    let cmp ← cmpKey node currKey currKeyLen key 0 keyLen
    if cmp = 0 then return .found next
    else if cmp < 0 then findPosLoop node key keyLen records (currKey + currKeyLen) found space
    else do
      let closer ← isCloser node found currKey currKeyLen
      let found := if closer then some ⟨next, currKey, currKeyLen⟩ else found
      findPosLoop node key keyLen records (currKey + currKeyLen) found (space - 8 - currKeyLen)

/-- `_find_pos`. The sum with the length is unsigned: it wraps for a negative one. -/
def findPos (node key : Buf) (keyLen : Int) : Exec σ (Option Int × Buf) := do
  let count ← node.getShort 4
  match ← findPosLoop node key keyLen count.toNat nodeHeadLen none (nodeLen - nodeHeadLen) with
  | .found info => return (some info, node)
  | .passed _ (some found) _ => return (some found.info, node)
  | .passed next none space =>
    if space % 2 ^ 64 ≥ (kInfoLen + keyLen) % 2 ^ 64 then
      let node ← node.setInt (next + 4) 0
      let node ← node.setShort (next + 10) 0
      let node ← node.setInt next 0
      let node ← node.setShort (next + 8) 0
      return (some next, node)
    else return (none, node)

/-- `memcpy(pos + sizeof(k_info), key, key_len)`. A negative length is a huge `size_t`. -/
def writeKey (node : Buf) (place : Int) (key : Buf) (keyLen : Int) : Exec σ Buf :=
  if 0 ≤ keyLen ∧ keyLen ≤ key.len then node.write place ⟨keyLen.toNat, key.byte⟩ else fault

/-- The branch of `_set_key` for a record without a value. -/
def setRecord (node : Buf) (pos : Int) (key : Buf) (keyLen : Int) (value : Buf) : Exec DataFile Unit := do
  let (valBlockId, valRowIdx) ← writeRow value
  let node ← node.setInt (pos + 4) valBlockId
  let node ← node.setShort (pos + 8) valRowIdx
  let node ← node.setShort (pos + 10) keyLen
  let node ← node.setInt pos 0
  let node ← writeKey node (pos + kInfoLen) key keyLen
  let count ← node.getShort 4
  saveNode (← node.setShort 4 (count + 1))

/-- `_set_key`, with a bound on the depth of its recursion. -/
def setKey : Nat → Buf → Buf → Int → Buf → Exec DataFile Unit
  | 0, _, _, _, _ => exhausted
  | steps + 1, node, key, keyLen, value => do
    match ← findPos node key keyLen with
    | (none, node) =>
      let childId ← childAt node 12
      setKey steps (← getNode childId) key keyLen value
    | (some pos, node) =>
      let blockId ← node.getInt (pos + 4)
      if blockId = 0 then setRecord node pos key keyLen value
      else
        let infoLen ← node.getShort (pos + 10)
        if (← cmpKey node (pos + kInfoLen) infoLen key 0 keyLen) = 0 then
          modifyRow blockId (← node.getShort (pos + 8)) value
        else
          let childId ← childAt node pos
          setKey steps (← getNode childId) key keyLen value

end Narrow

/-- The length of a key as `key_len_t` has it. -/
def keyLenT (key : Buf) : Int := wrap 16 key.len

/-- `_set` for the key of a request, with a bound on the depth of its recursion. -/
def setWithin (steps : Nat) (key value : Buf) : Exec DataFile Unit := do
  Narrow.setKey steps (← getRoot) key (keyLenT key) value

end KvIndex

end Pingkv
