import Pingkv.Lib.Bytes
import Pingkv.Tool.LinkList

/-! `hash_table`: elements in buckets by the hash of their keys, each bucket a
`linklist` of pointers to them. -/

namespace Pingkv

open Exec

namespace Tool

/-- `hash_table::element`; the constructor from a key alone leaves `v` unset. -/
structure Element (K V : Type) where
  k : K
  v : Option V

/-- The list of a `hash_table::bucket`, without the memory its nodes lie in. -/
structure Bucket where
  size : Nat
  firstNode : Option Nat
  lastNode : Option Nat

structure HashTable (K V : Type) where
  hashFunc : K → Int64
  compFunc : K → K → Int
  size : Int
  bucketCount : Int64
  defaultValue : V
  buckets : Int → Bucket
  elems : Heap (Element K V)
  nodes : Heap (Node (Option Nat))

namespace HashTable

variable {K V α : Type}

/-- The loop of `hash_table::_make_bucket_count`, over `int`; `none` if it takes
more turns than are given. -/
def doubleUp (bucketCount : Int) : Nat → Int → Option Int
  | 0, _ => none
  | fuel + 1, i => if i < bucketCount then doubleUp bucketCount fuel (wrap 32 (i * 2)) else some i

/-- `hash_table::_make_bucket_count`. Behind 32 turns `i` is 0 for good. -/
def makeBucketCount (bucketCount : Int) : Option Int := doubleUp bucketCount 32 128

/-- `hash_table::init`, if it returns. -/
def init (bucketCount : Int) (defaultValue : V) (hashFunc : K → Int64) (compFunc : K → K → Int) :
    Option (HashTable K V) :=
  (makeBucketCount bucketCount).map fun count =>
    { hashFunc := hashFunc, compFunc := compFunc, size := 0, bucketCount := Int64.ofInt count
      defaultValue := defaultValue, buckets := fun _ => ⟨0, none, none⟩, elems := .empty, nodes := .empty }

def inElems (call : Exec (Heap (Element K V)) α) : Exec (HashTable K V) α :=
  within HashTable.elems (fun elems table => { table with elems := elems }) call

def inNodes (call : Exec (Heap (Node (Option Nat))) α) : Exec (HashTable K V) α :=
  within HashTable.nodes (fun nodes table => { table with nodes := nodes }) call

/-- `data_list` of a bucket. -/
def dataList (table : HashTable K V) (bkt : Int) : LinkList (Option Nat) :=
  let bucket := table.buckets bkt
  ⟨table.nodes, bucket.size, bucket.firstNode, bucket.lastNode⟩

def putDataList (bkt : Int) (list : LinkList (Option Nat)) (table : HashTable K V) : HashTable K V :=
  { table with
    nodes := list.nodes
    buckets := Function.update table.buckets bkt ⟨list.size, list.firstNode, list.lastNode⟩ }

def inDataList (bkt : Int) (call : Exec (LinkList (Option Nat)) α) : Exec (HashTable K V) α :=
  within (fun table => table.dataList bkt) (putDataList bkt) call

/-- The element a pointer leads to. -/
def deref : Option Nat → Exec (HashTable K V) (Element K V)
  | some p => inElems (Heap.load p)
  | none => fault

/-- `_free_func` of an element, which may be `NULL`. -/
def freeElem : Option Nat → Exec (HashTable K V) Unit
  | some p => inElems (Heap.free p)
  | none => pure ()

/-- `hash_table::comp_elem`; `none` where a pointer leads nowhere. -/
def compElem (table : HashTable K V) (data1 data2 : Option Nat) : Option Int :=
  if data1 = data2 then some 0
  else match data1, data2 with
  | some _, none => some 1
  | none, some _ => some (-1)
  | none, none => some 0
  | some p, some q => do
    let first ← table.elems.cell p
    let second ← table.elems.cell q
    some (table.compFunc first.k second.k)

/-- `_hash_func(k) & (_bucket_count - 1)`. -/
def bucketIndex (table : HashTable K V) (k : K) : Int := (table.hashFunc k &&& (table.bucketCount - 1)).toInt

/-- The bucket of a key, if it is one of the table's. -/
def bucket (k : K) : Exec (HashTable K V) Int := do
  let table ← read id
  let bkt := table.bucketIndex k
  if 0 ≤ bkt ∧ bkt < table.bucketCount.toInt then pure bkt else fault

/-- `bkt->data_list.contains(&ele)`. -/
def contains (bkt : Int) (ele : Nat) : Exec (HashTable K V) (Option Nat) := do
  let table ← read id
  inDataList bkt (LinkList.contains table.compElem (some ele))

/-- `n->data->v`, or `_default_value`. -/
def valueOf : Option Nat → Exec (HashTable K V) V
  | some n => do
    let node ← inNodes (Heap.load n)
    match (← deref node.data).v with
    | some v => pure v
    | none => fault
  | none => read HashTable.defaultValue

/-- `hash_table::find`. Its `ele` lives as long as the call. -/
def find (k : K) : Exec (HashTable K V) V := do
  let bkt ← bucket k
  let ele ← inElems (Heap.alloc ⟨k, none⟩)
  let n ← contains bkt ele
  let v ← valueOf n
  freeElem (some ele)
  pure v

/-- `hash_table::_add_elem`. -/
def addElem (bkt : Int) (k : K) (v : V) : Exec (HashTable K V) Int := do
  let ele ← inElems (Heap.alloc ⟨k, some v⟩)
  match ← contains bkt ele with
  | some n =>
    freeElem (some ele)
    let node ← inNodes (Heap.load n)
    match node.data with
    | some p => inElems (Heap.modify p fun _ => ⟨k, some v⟩)
    | none => fault
    pure 0
  | none =>
    inDataList bkt (LinkList.append (some ele))
    pure 1

/-- `hash_table::add_or_replace`. -/
def addOrReplace (k : K) (v : V) : Exec (HashTable K V) Bool := do
  let bkt ← bucket k
  let r ← addElem bkt k v
  update fun table => { table with size := table.size + r }
  pure (r ≠ 0)

/-- `hash_table::del`. -/
def del (k : K) : Exec (HashTable K V) Bool := do
  let bkt ← bucket k
  let ele ← inElems (Heap.alloc ⟨k, none⟩)
  match ← contains bkt ele with
  | none =>
    freeElem (some ele)
    pure false
  | some n =>
    freeElem (← inNodes (Heap.load n)).data
    inDataList bkt (LinkList.del n)
    update fun table => { table with size := table.size - 1 }
    freeElem (some ele)
    pure true

inductive Call (K V : Type) where
  | find (k : K)
  | addOrReplace (k : K) (v : V)
  | del (k : K)
  | size

/-- What a call hands out. -/
inductive Answer (V : Type) where
  | value (v : V)
  | flag (flag : Bool)
  | count (count : Int)
  deriving DecidableEq

def Call.perform : Call K V → Exec (HashTable K V) (Answer V)
  | .find k => do pure (.value (← HashTable.find k))
  | .addOrReplace k v => do pure (.flag (← HashTable.addOrReplace k v))
  | .del k => do pure (.flag (← HashTable.del k))
  | .size => do pure (.count (← read HashTable.size))

/-- Calls one after the other. -/
def run : List (Call K V) → Exec (HashTable K V) Unit
  | [] => pure ()
  | call :: rest => do
    let _ ← call.perform
    run rest

end HashTable

end Tool

end Pingkv
