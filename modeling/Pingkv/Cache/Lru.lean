import Mathlib.Logic.Function.Basic
import Pingkv.Lib.Exec
import Pingkv.Route

/-! `kv_lru`: the nodes of the cache in buckets by the hash of their keys, and
linked from the one used last to the one used longest ago. -/

namespace Pingkv

open Exec

namespace Cache

/-- `lru_node`. -/
structure LruNode where
  k : Buf
  kLen : Int
  v : Buf
  vLen : Int
  refCount : Int
  prev : Option Nat
  next : Option Nat

structure KvLru where
  /-- The nodes by their addresses. -/
  heap : Nat → Option LruNode
  /-- The address of the next node. -/
  fresh : Nat
  /-- What a fresh array holds, by the number of its allocation. -/
  junk : Nat → Mem
  allocs : Nat
  /-- `_tab`: the nodes of each bucket. -/
  tab : Int → List Nat
  bucketCount : Int
  size : Int
  maxSize : Int
  maxElemSize : Int
  nodeCount : Int
  hot : Option Nat
  cold : Option Nat

namespace KvLru

/-- `kv_lru::init`. -/
def init (bucketCount maxSize maxElemSize : Int) (junk : Nat → Mem) : KvLru :=
  { heap := fun _ => none, fresh := 0, junk := junk, allocs := 0, tab := fun _ => [], bucketCount := bucketCount
    size := 0, maxSize := maxSize, maxElemSize := maxElemSize, nodeCount := 0, hot := none, cold := none }

/-- `kv_lru::_lru_hash`. -/
def lruHash (data : List UInt8) (mod : Int) : Int :=
  let h := hashData data
  wrap 32 (if h > 0 then h.tmod mod else (wrap 64 (-h)).tmod mod)

/-- The node behind a pointer. -/
def node (n : Nat) : Exec KvLru LruNode := do
  match (← read KvLru.heap) n with
  | some node => pure node
  | none => fault

def modify (n : Nat) (change : LruNode → LruNode) : Exec KvLru Unit := do
  let node ← node n
  update fun lru => { lru with heap := Function.update lru.heap n (some (change node)) }

/-- `if(n)` before a change to the node. -/
def modifyIf (n : Option Nat) (change : LruNode → LruNode) : Exec KvLru Unit :=
  match n with
  | some n => modify n change
  | none => pure ()

/-- The place of a key in `_tab`. -/
def place (data : List UInt8) : Exec KvLru Int := do
  let bucketCount ← read KvLru.bucketCount
  let index := lruHash data bucketCount
  if 0 ≤ index ∧ index < bucketCount then pure index else fault

/-- `new char[len]`. -/
def newArray (len : Nat) : Exec KvLru Buf := do
  let lru ← read id
  update fun lru => { lru with allocs := lru.allocs + 1 }
  pure ⟨len, lru.junk lru.allocs⟩

/-- `memcmp(bytes, buf, bytes.length) == 0`, which reads on while both agree. -/
def memcmp (bytes : List UInt8) (buf : Buf) : Exec KvLru Bool :=
  let common := min bytes.length buf.len
  if bytes.take common ≠ buf.byte.slice 0 common then pure false
  else if buf.len < bytes.length then fault
  else pure true

/-- `kv_lru::_init_lru_node`, which gives a node the lengths of its key and
value and memory for them. -/
def initLruNode (k v : List UInt8) : Exec KvLru Nat := do
  let key ← newArray k.length
  let value ← newArray v.length
  let n ← read KvLru.fresh
  update fun lru => { lru with
    fresh := n + 1
    heap := Function.update lru.heap n (some ⟨key, k.length, value, v.length, 0, none, none⟩) }
  pure n

/-- `kv_lru::_lru_insert`. -/
def lruInsert (n : Nat) : Exec KvLru Unit := do
  let hot ← read KvLru.hot
  modifyIf hot fun node => { node with prev := some n }
  modify n fun node => { node with next := hot }
  let inserted ← node n
  update fun lru => { lru with
    hot := some n
    cold := if lru.cold = none then some n else lru.cold
    nodeCount := wrap 32 (lru.nodeCount + 1)
    size := wrap 32 (wrap 32 (lru.size + inserted.kLen) + inserted.vLen) }

/-- `kv_lru::_lru_del`. -/
def lruDel (n : Nat) : Exec KvLru Unit := do
  let gone ← node n
  update fun lru => { lru with
    hot := if lru.hot = some n then gone.next else lru.hot
    cold := if lru.cold = some n then gone.prev else lru.cold }
  modifyIf gone.prev fun node => { node with next := gone.next }
  modifyIf gone.next fun node => { node with prev := gone.prev }
  modify n fun node => { node with prev := none, next := none }
  update fun lru => { lru with
    nodeCount := wrap 32 (lru.nodeCount - 1)
    size := wrap 32 (wrap 32 (lru.size - gone.kLen) - gone.vLen) }

/-- `ln->k_len && memcmp(bytes, ln->k, bytes.length) == 0`. -/
def matchKey (bytes : List UInt8) (ln : LruNode) : Exec KvLru Bool :=
  if ln.kLen ≠ 0 then memcmp bytes ln.k else pure false

/-- The loop of `kv_lru::_get`. Its test assigns to `k_len` whether the node
matches, so that behind a node that does not match no byte is compared. -/
def find (k : List UInt8) : Int → List Nat → Exec KvLru (Option Nat)
  | _, [] => pure none
  | kLen, n :: rest => do
    let ln ← node n
    let kLen := if ← matchKey (k.take kLen.toNat) ln then 1 else 0
    if kLen ≠ 0 then
      lruDel n
      lruInsert n
      pure (some n)
    else find k kLen rest

/-- `kv_lru::_get` of a node. -/
def getNode (k : List UInt8) : Exec KvLru (Option Nat) := do
  let index ← place k
  find k k.length ((← read KvLru.tab) index)

/-- `kv_lru::_set`. -/
def setElem (k v : List UInt8) : Exec KvLru Unit := do
  match ← getNode k with
  | some n =>
    let value ← newArray v.length
    modify n fun node => { node with
      vLen := v.length, v := ⟨value.len, value.byte.copy 0 (Buf.ofList v).byte v.length⟩ }
  | none =>
    let n ← initLruNode k v
    lruInsert n
    let index ← place k
    update fun lru => { lru with tab := Function.update lru.tab index (lru.tab index ++ [n]) }

/-- `kv_lru::_get` of a value: the array `*v` and `*v_len`, or `NULL`. -/
def getElem (k : List UInt8) : Exec KvLru (Option (Buf × Int)) := do
  match ← getNode k with
  | none => pure none
  | some n =>
    let node ← node n
    let v ← newArray node.vLen.toNat
    if node.v.len < node.vLen.toNat then fault
    else pure (some (⟨v.len, v.byte.copy 0 node.v.byte node.vLen.toNat⟩, node.vLen))

/-- `kv_lru::_del`. -/
def del : Option Nat → Exec KvLru Unit
  | none => fault
  | some n => do
    lruDel n
    let gone ← node n
    let index ← place (gone.k.byte.slice 0 gone.kLen.toNat)
    if n ∈ (← read KvLru.tab) index then
      update fun lru => { lru with
        heap := Function.update lru.heap n none
        tab := Function.update lru.tab index ((lru.tab index).erase n) }

/-- The loop of `kv_lru::_ageout`. -/
def ageout : Nat → Exec KvLru Unit
  | 0 => exhausted
  | fuel + 1 => do
    let lru ← read id
    if lru.size > lru.maxSize.tdiv 2 then
      del lru.cold
      ageout fuel

/-- `kv_lru::set`. A turn of `_ageout` unlinks a node, so there are no more
turns than nodes. -/
def set (k v : List UInt8) : Exec KvLru Unit := do
  let lru ← read id
  if wrap 32 (k.length + v.length) ≤ lru.maxElemSize then
    if lru.size > lru.maxSize then ageout (lru.fresh + 1)
    setElem k v

/-- `kv_lru::get`. -/
def get (k : List UInt8) : Exec KvLru (Option (Buf × Int)) := getElem k

end KvLru

inductive Call where
  | set (k v : List UInt8)
  | get (k : List UInt8)

/-- A call, with what it hands out. -/
def Call.perform : Call → Exec KvLru (Option (Buf × Int))
  | .set k v => do
    KvLru.set k v
    pure none
  | .get k => KvLru.get k

/-- Calls one after the other. -/
def run : List Call → Exec KvLru Unit
  | [] => pure ()
  | call :: rest => do
    let _ ← call.perform
    run rest

end Cache

end Pingkv
