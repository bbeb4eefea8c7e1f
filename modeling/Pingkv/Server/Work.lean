import Pingkv.Lib.Bytes

/-! The works that clients, workers and the sender pass on: a head of three
16-bit numbers, and two fields whose lengths it gives. -/

namespace Pingkv

namespace WorkFlag

def req : UInt16 := 0x1000

def suc : UInt16 := 0x2000

def err : UInt16 := 0x4000

def get : UInt16 := 0x100

def set : UInt16 := 0x200

def del : UInt16 := 0x400

/-- `(flag & mask) == mask`. -/
def Has (flag mask : UInt16) : Prop := flag &&& mask = mask

instance (flag mask : UInt16) : Decidable (Has flag mask) := inferInstanceAs (Decidable (_ = _))

end WorkFlag

structure KvWorkHead where
  flag : UInt16
  field1Len : UInt16
  field2Len : UInt16
  deriving DecidableEq, Repr

/-- `sizeof(kv_work_head)`. -/
def headSize : Nat := 6

/-- A 16-bit number as it lies in memory, low byte first. -/
def shortBytes (value : UInt16) : List UInt8 := [UInt8.ofNat value.toNat, UInt8.ofNat (value.toNat / 256)]

def shortOfBytes (low high : UInt8) : UInt16 := UInt16.ofNat (low.toNat + 256 * high.toNat)

@[simp] theorem shortOfBytes_shortBytes (value : UInt16) :
    shortOfBytes (UInt8.ofNat value.toNat) (UInt8.ofNat (value.toNat / 256)) = value := by
  have below := value.toNat_lt
  apply UInt16.toNat_inj.mp
  simp only [shortOfBytes, UInt8.toNat_ofNat', UInt16.toNat_ofNat']
  omega

namespace KvWorkHead

def bytes (head : KvWorkHead) : List UInt8 :=
  shortBytes head.flag ++ shortBytes head.field1Len ++ shortBytes head.field2Len

def ofBytes : List UInt8 → KvWorkHead
  | [flag, flag', len1, len1', len2, len2'] =>
    ⟨shortOfBytes flag flag', shortOfBytes len1 len1', shortOfBytes len2 len2'⟩
  | _ => ⟨0, 0, 0⟩

@[simp] theorem bytes_length (head : KvWorkHead) : head.bytes.length = headSize := rfl

@[simp] theorem ofBytes_bytes (head : KvWorkHead) : ofBytes head.bytes = head := by
  simp only [bytes, shortBytes, List.cons_append, List.nil_append, ofBytes, shortOfBytes_shortBytes]

end KvWorkHead

structure KvWork where
  head : KvWorkHead
  field1 : Option Buf
  field2 : Option Buf
  headOffset : UInt16
  field1Offset : UInt16
  field2Offset : UInt16

def newKvWork : KvWork :=
  { head := ⟨0, 0, 0⟩, field1 := none, field2 := none, headOffset := 0, field1Offset := 0, field2Offset := 0 }

inductive Field where
  | field1
  | field2
  deriving DecidableEq, Repr

def KvWorkHead.len (head : KvWorkHead) : Field → Nat
  | .field1 => head.field1Len.toNat
  | .field2 => head.field2Len.toNat

theorem KvWorkHead.len_lt (head : KvWorkHead) (field : Field) : head.len field < 65536 := by
  cases field
  · exact head.field1Len.toNat_lt
  · exact head.field2Len.toNat_lt

namespace KvWork

def buf (work : KvWork) : Field → Option Buf
  | .field1 => work.field1
  | .field2 => work.field2

def withBuf (work : KvWork) (field : Field) (buf : Buf) : KvWork :=
  match field with
  | .field1 => { work with field1 := some buf }
  | .field2 => { work with field2 := some buf }

@[simp] theorem withBuf_head (work : KvWork) (field : Field) (buf : Buf) :
    (work.withBuf field buf).head = work.head := by
  cases field <;> rfl

@[simp] theorem withBuf_buf (work : KvWork) (field : Field) (buf : Buf) :
    (work.withBuf field buf).buf field = some buf := by
  cases field <;> rfl

theorem withBuf_other {field other : Field} (different : other ≠ field) (work : KvWork) (buf : Buf) :
    (work.withBuf field buf).buf other = work.buf other := by
  cases field <;> cases other <;> first | rfl | exact absurd rfl different

end KvWork

/-- The first `count` bytes behind a field pointer. -/
def fieldBytes : Option Buf → Nat → List UInt8
  | none, _ => []
  | some buf, count => buf.byte.slice 0 count

/-- What is sent for a work. -/
def KvWork.bytes (work : KvWork) : List UInt8 :=
  work.head.bytes ++ (fieldBytes work.field1 work.head.field1Len.toNat ++
    fieldBytes work.field2 work.head.field2Len.toNat)

/-- `kv_work_queue::get_work`: what it hands out, and the queue behind it. -/
def getWork : List (Int × KvWork) → (Int × Option KvWork) × List (Int × KvWork)
  | [] => ((0, none), [])
  | (fd, work) :: rest => ((fd, some work), rest)

/-- A message as it is meant: a flag and two fields with lengths a head can give. -/
structure Message where
  flag : UInt16
  field1 : List UInt8
  field2 : List UInt8
  short1 : field1.length < 65536
  short2 : field2.length < 65536
  deriving DecidableEq

namespace Message

def head (message : Message) : KvWorkHead :=
  ⟨message.flag, UInt16.ofNat message.field1.length, UInt16.ofNat message.field2.length⟩

def text (message : Message) : Field → List UInt8
  | .field1 => message.field1
  | .field2 => message.field2

/-- What is sent for a message. -/
def bytes (message : Message) : List UInt8 := message.head.bytes ++ (message.field1 ++ message.field2)

/-- What a field of so many bytes is asked for. -/
def fieldPart (len : Nat) : List Nat := if len = 0 then [] else [len]

/-- The parts a message is received in: its head, and each field that is not empty. -/
def parts (message : Message) : List Nat :=
  headSize :: (fieldPart message.field1.length ++ fieldPart message.field2.length)

/-- A message that `_cb_read_sock` puts on a request queue. -/
def IsRequest (message : Message) : Prop := WorkFlag.Has message.flag WorkFlag.req

instance (message : Message) : Decidable message.IsRequest := inferInstanceAs (Decidable (WorkFlag.Has _ _))

@[simp] theorem head_len (message : Message) (field : Field) :
    message.head.len field = (message.text field).length := by
  cases field
  · exact (UInt16.toNat_ofNat' ..).trans (Nat.mod_eq_of_lt message.short1)
  · exact (UInt16.toNat_ofNat' ..).trans (Nat.mod_eq_of_lt message.short2)

end Message

/-- A work that holds a message. -/
structure KvWork.Holds (work : KvWork) (message : Message) : Prop where
  head : work.head = message.head
  fields : ∀ field, fieldBytes (work.buf field) (message.text field).length = message.text field

end Pingkv
