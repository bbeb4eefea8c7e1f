import Mathlib.Data.List.Lex
import Mathlib.Data.List.Basic
import Pingkv.DataFile.History
import Pingkv.Index.Basic
import Pingkv.Lib.SearchTree

/-! The bytes of a search-tree node, and the order of the keys in it. -/

/-- Bytes in the order `memcmp` compares them in. -/
instance byteOrder : LinearOrder UInt8 where
  le_refl _ := UInt8.le_refl _
  le_trans _ _ _ := UInt8.le_trans
  lt_iff_le_not_ge first second := by
    rw [UInt8.lt_iff_toNat_lt, UInt8.le_iff_toNat_le, UInt8.le_iff_toNat_le]
    omega
  le_antisymm _ _ := UInt8.le_antisymm
  le_total := UInt8.le_total
  toDecidableLE := inferInstance

namespace Pingkv

abbrev Key : Type := List UInt8

/-- The row of a value, none for a record whose value was deleted. -/
abbrev Slot : Type := Option RecordId

def Slot.number : Slot → Int × Int
  | some id => id.number
  | none => (0, 0)

abbrev Record : Type := SearchTree.Entry Key Slot

abbrev Tree : Type := SearchTree.Forest Key Slot

/-- The bytes a record takes up in a node. -/
def recordLen (record : Record) : Nat := 12 + record.key.length

def span (records : List Record) : Nat := (records.map recordLen).sum

@[simp] theorem span_nil : span [] = 0 := rfl

@[simp] theorem span_cons (record : Record) (rest : List Record) :
    span (record :: rest) = recordLen record + span rest := by simp [span]

@[simp] theorem span_append (first second : List Record) : span (first ++ second) = span first + span second := by
  simp [span]

theorem length_le_span (records : List Record) : 12 * records.length ≤ span records := by
  induction records with
  | nil => simp
  | cons record rest ih =>
    simp only [span_cons, recordLen, List.length_cons]
    omega

/-- The records of a node have these keys, links and rows. -/
structure HasRecord (mem : Mem) (place : Nat) (record : Record) : Prop where
  left : mem.int place = record.left
  block : mem.int (place + 4) = record.value.number.1
  row : mem.short (place + 8) = record.value.number.2
  keyLen : mem.short (place + 10) = record.key.length
  key : mem.slice (place + 12) record.key.length = record.key

def HasRecords (mem : Mem) : Nat → List Record → Prop
  | _, [] => True
  | place, record :: rest => HasRecord mem place record ∧ HasRecords mem (place + recordLen record) rest

/-- The buffer of a node: `record_count` records lie one after another behind its head. -/
structure HasNode (buf : Buf) (id : Nat) (records : List Record) : Prop where
  len : buf.len = 8152
  blockId : buf.byte.int 0 = id
  count : buf.byte.short 4 = records.length
  right : buf.byte.int 12 = 0
  laid : HasRecords buf.byte 16 records
  fits : 16 + span records ≤ 8152

section Bytes

variable {mem mem' : Mem} {place : Nat} {record : Record} {records first second : List Record}

theorem HasRecord.agree (holds : HasRecord mem place record) (agree : mem.Agree mem' place (recordLen record)) :
    HasRecord mem' place record := by
  unfold recordLen at agree
  constructor
  · rw [← (agree.mono place 4 (by omega) (by omega)).int_eq, holds.left]
  · rw [← (agree.mono (place + 4) 4 (by omega) (by omega)).int_eq, holds.block]
  · rw [← (agree.mono (place + 8) 2 (by omega) (by omega)).short_eq, holds.row]
  · rw [← (agree.mono (place + 10) 2 (by omega) (by omega)).short_eq, holds.keyLen]
  · rw [← (agree.mono (place + 12) record.key.length (by omega) (by omega)).slice_eq, holds.key]

theorem HasRecords.agree : ∀ {place : Nat} {records : List Record}, HasRecords mem place records →
    mem.Agree mem' place (span records) → HasRecords mem' place records
  | _, [], _, _ => trivial
  | place, record :: rest, ⟨head, tail⟩, agree => by
    rw [span_cons] at agree
    exact ⟨head.agree (agree.mono place (recordLen record) (by omega) (by omega)),
      tail.agree (agree.mono (place + recordLen record) (span rest) (by omega) (by omega))⟩

theorem hasRecords_append : ∀ {place : Nat} {first : List Record}, HasRecords mem place (first ++ second) ↔
    HasRecords mem place first ∧ HasRecords mem (place + span first) second
  | _, [] => by simp [HasRecords]
  | place, record :: rest => by
    simp only [List.cons_append, HasRecords, span_cons, hasRecords_append, and_assoc, Nat.add_assoc]

/-- The record after some others of a node, with the bytes before and behind it. -/
theorem hasRecords_split {before after : List Record} : HasRecords mem place (before ++ record :: after) ↔
    HasRecords mem place before ∧ HasRecord mem (place + span before) record ∧
      HasRecords mem (place + span before + recordLen record) after := by
  rw [hasRecords_append, HasRecords]

/-- The slot that the numbers in a record stand for. -/
def Slot.ofNumber (number : Int × Int) : Slot := if number.1 = 0 then none else some (RecordId.ofNumber number)

theorem Slot.ofNumber_number (slot : Slot) : Slot.ofNumber slot.number = slot := by
  cases slot with
  | none => rfl
  | some row =>
    have nonzero : row.number.1 ≠ 0 := by
      simp only [RecordId.number, RecordId.blockId]
      omega
    rw [Slot.number, ofNumber, if_neg nonzero, RecordId.ofNumber_number]

/-- The record that lies at a place of a node. -/
def nodeRecordAt (mem : Mem) (place : Nat) : Record :=
  ⟨mem.slice (place + 12) (mem.short (place + 10)).toNat, (mem.int place).toNat,
    .ofNumber (mem.int (place + 4), mem.short (place + 8))⟩

def nodeRecordsAt (mem : Mem) : Nat → Nat → List Record
  | 0, _ => []
  | count + 1, place => nodeRecordAt mem place :: nodeRecordsAt mem count (place + recordLen (nodeRecordAt mem place))

/-- The records that lie in the buffer of a node. -/
def nodeRecords (buf : Buf) : List Record := nodeRecordsAt buf.byte (buf.byte.short 4).toNat 16

theorem HasRecord.read (holds : HasRecord mem place record) : nodeRecordAt mem place = record := by
  rw [nodeRecordAt, holds.keyLen, holds.left, holds.block, holds.row, Int.toNat_natCast, Int.toNat_natCast, holds.key,
    Slot.ofNumber_number]

theorem HasRecords.read : ∀ {place : Nat} {records : List Record}, HasRecords mem place records →
    nodeRecordsAt mem records.length place = records
  | _, [], _ => rfl
  | place, record :: rest, ⟨head, tail⟩ => by
    rw [List.length_cons, nodeRecordsAt, head.read, tail.read]

/-- The bytes of a node are those of no other records. -/
theorem HasNode.read {buf : Buf} {id : Nat} (node : HasNode buf id records) : nodeRecords buf = records := by
  rw [nodeRecords, node.count, Int.toNat_natCast, node.laid.read]

end Bytes

section Order

/-- The sign of a comparison of two keys. -/
structure Sign (cmp : Int) (first second : Key) : Prop where
  neg : cmp < 0 ↔ first < second
  zero : cmp = 0 ↔ first = second

theorem Sign.pos {cmp : Int} {first second : Key} (sign : Sign cmp first second) : 0 < cmp ↔ second < first := by
  have less := sign.neg
  have equal := sign.zero
  constructor
  · intro positive
    rcases lt_trichotomy first second with below | same | above
    · have negative := less.mpr below
      omega
    · have zero := equal.mpr same
      omega
    · exact above
  · intro above
    have notLess := mt less.mp above.asymm
    have notEqual := mt equal.mp above.ne'
    omega

/-- What `_cmp_key` makes of the answer of `memcmp` and the two lengths. -/
def cmpLen (ret len1 len2 : Int) : Int :=
  if ret = 0 then (if len1 = len2 then 0 else if len1 > len2 then 1 else -1) else ret

theorem cmpLen_succ (ret len1 len2 : Int) : cmpLen ret (len1 + 1) (len2 + 1) = cmpLen ret len1 len2 := by
  simp [cmpLen]

theorem cmpLen_less {len1 len2 : Int} (less : len1 < len2) : cmpLen 0 len1 len2 = -1 := by
  rw [cmpLen, if_pos rfl, if_neg (by omega), if_neg (by omega)]

theorem cmpLen_more {len1 len2 : Int} (more : len2 < len1) : cmpLen 0 len1 len2 = 1 := by
  rw [cmpLen, if_pos rfl, if_neg (by omega), if_pos (by omega)]

theorem cmpLen_ret {ret : Int} (nonzero : ret ≠ 0) (len1 len2 : Int) : cmpLen ret len1 len2 = ret := if_neg nonzero

theorem sign_cons {cmp : Int} {byte : UInt8} {first second : Key} (sign : Sign cmp first second) :
    Sign cmp (byte :: first) (byte :: second) := by
  constructor
  · rw [List.cons_lt_cons_iff]
    simpa using sign.neg
  · simpa using sign.zero

/-- `memcmp` over the shorter length, then the lengths: the order of the keys. -/
theorem memcmp_sign {mem mem' : Mem} (first second : Key) (place : Nat)
    (holds : mem.slice place first.length = first) (holds' : mem'.slice place second.length = second) :
    Sign (cmpLen (memcmp mem mem' place (min first.length second.length)) first.length second.length)
      first second := by
  induction first generalizing second place with
  | nil =>
    cases second with
    | nil => constructor <;> simp [cmpLen, memcmp]
    | cons byte rest =>
      have cmp : cmpLen (memcmp mem mem' place 0) 0 (rest.length + 1) = -1 := cmpLen_less (by omega)
      constructor <;> simp [cmp]
  | cons byte rest ih =>
    cases second with
    | nil =>
      have cmp : cmpLen (memcmp mem mem' place 0) (rest.length + 1) 0 = 1 := cmpLen_more (by omega)
      constructor <;> simp [cmp]
    | cons byte' rest' =>
      rw [List.length_cons, Mem.slice_succ, List.cons.injEq] at holds holds'
      obtain ⟨rfl, tail⟩ := holds
      obtain ⟨rfl, tail'⟩ := holds'
      simp only [List.length_cons, Nat.succ_min_succ, memcmp, Nat.cast_succ, cmpLen_succ]
      by_cases same : mem place = mem' place
      · rw [if_pos same, same]
        exact sign_cons (ih rest' (place + 1) tail tail')
      · have order : ((mem place).toNat : Int) - (mem' place).toNat ≠ 0 := by
          intro equal
          exact same (UInt8.toNat_inj.mp (by omega))
        rw [if_neg same, cmpLen_ret order]
        constructor
        · rw [List.cons_lt_cons_iff, UInt8.lt_iff_toNat_lt]
          constructor
          · intro negative
            exact .inl (by omega)
          · rintro (less | ⟨equal, _⟩)
            · omega
            · exact absurd equal same
        · simp [order, same]

end Order

end Pingkv

namespace Buf

open Exec

variable {σ : Type} {place : Int} {off : Nat}

theorem getInt_run (buf : Buf) (state : σ) (inside : off + 4 ≤ buf.len) (same : place = off) :
    buf.getInt place state = (.ok (buf.byte.int off), state) := by
  subst same
  rw [getInt, if_pos (by omega)]
  rfl

theorem getShort_run (buf : Buf) (state : σ) (inside : off + 2 ≤ buf.len) (same : place = off) :
    buf.getShort place state = (.ok (buf.byte.short off), state) := by
  subst same
  rw [getShort, if_pos (by omega)]
  rfl

variable {byte : Mem}

theorem setInt_run (len : Nat) (state : σ) (value : Int) (inside : off + 4 ≤ len) (same : place = off) :
    (Buf.mk len byte).setInt place value state = (.ok ⟨len, byte.putInt off value⟩, state) := by
  subst same
  rw [setInt, if_pos (by simp only; omega)]
  rfl

theorem setShort_run (len : Nat) (state : σ) (value : Int) (inside : off + 2 ≤ len) (same : place = off) :
    (Buf.mk len byte).setShort place value state = (.ok ⟨len, byte.putShort off value⟩, state) := by
  subst same
  rw [setShort, if_pos (by simp only; omega)]
  rfl

theorem write_run (len : Nat) (state : σ) {src : Buf} (inside : off + src.len ≤ len) (same : place = off) :
    (Buf.mk len byte).write place src state = (.ok ⟨len, byte.copy off src.byte src.len⟩, state) := by
  subst same
  rw [write, if_pos (by simp only; omega)]
  rfl

end Buf

namespace Pingkv

namespace KvIndex

open Exec

variable {σ : Type} {buf key : Buf} {place : Int} {off : Nat} {record : Record}

/-- `_cmp_key` on a key laid out in a buffer. -/
theorem cmpKey_run (state : σ) {k1 k2 : Buf} {place1 len1 place2 len2 : Int} {at1 at2 : Nat} {first second : Key}
    (laid : k1.byte.slice at1 first.length = first) (inside : at1 + first.length ≤ k1.len)
    (laid' : k2.byte.slice at2 second.length = second) (inside' : at2 + second.length ≤ k2.len)
    (same : place1 = at1 ∧ len1 = first.length) (same' : place2 = at2 ∧ len2 = second.length) :
    ∃ cmp, cmpKey k1 place1 len1 k2 place2 len2 state = (.ok cmp, state) ∧ Sign cmp first second := by
  obtain ⟨rfl, rfl⟩ := same
  obtain ⟨rfl, rfl⟩ := same'
  have shorter : (if (first.length : Int) < second.length then (first.length : Int) else second.length) =
      (min first.length second.length : Nat) := by
    split <;> omega
  refine ⟨_, ?_, memcmp_sign first second 0 ((Mem.slice_shift _ _ _ _).trans laid)
    ((Mem.slice_shift _ _ _ _).trans laid')⟩
  have lens : min first.length second.length ≤ first.length ∧ min first.length second.length ≤ second.length :=
    ⟨Nat.min_le_left _ _, Nat.min_le_right _ _⟩
  simp only [cmpKey, shorter]
  rw [if_pos (by omega)]
  simp only [Int.toNat_natCast, cmpLen]
  split <;> [split; rfl] <;> rfl

/-- `_get_key_from_record` on a record of a node. -/
theorem getKeyFromRecord_run (state : σ) (holds : HasRecord buf.byte off record)
    (inside : off + recordLen record ≤ buf.len) (same : place = off) :
    getKeyFromRecord buf place state = (.ok (place + 12, (record.key.length : Int)), state) := by
  unfold recordLen at inside
  have read : buf.getShort (place + 10) state = (.ok (record.key.length : Int), state) := by
    rw [Buf.getShort_run buf state (show off + 10 + 2 ≤ buf.len by omega) (by omega), holds.keyLen]
  rw [getKeyFromRecord, bind_ok read]
  rfl

end KvIndex

end Pingkv
