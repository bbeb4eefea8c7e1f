import Mathlib.Tactic.Common
import Mathlib.Data.List.GetD
import Mathlib.Algebra.Ring.Int.Defs
import Mathlib.Algebra.Ring.Nat

/-! Byte memory with little-endian integer fields, and buffers of a known
length. An address is an offset from the start of the object it lies in. -/

/-- Conversion to a signed integer type of `bits` bits. -/
def wrap (bits : Nat) (value : Int) : Int := (BitVec.ofInt bits value).toInt

theorem wrap_eq_bmod (bits : Nat) (value : Int) : wrap bits value = Int.bmod value (2 ^ bits) :=
  BitVec.toInt_ofInt value

theorem wrap_emod (bits : Nat) (value : Int) : wrap bits (value % (2 ^ bits : Nat)) = wrap bits value := by
  rw [wrap_eq_bmod, wrap_eq_bmod, Int.emod_bmod]

theorem wrap_16_of_range {value : Int} (lower : -32768 ≤ value) (upper : value < 32768) :
    wrap 16 value = value := by
  rw [wrap_eq_bmod, Int.bmod_eq_of_le (by omega) (by omega)]

theorem wrap_32_of_range {value : Int} (lower : -2147483648 ≤ value) (upper : value < 2147483648) :
    wrap 32 value = value := by
  rw [wrap_eq_bmod, Int.bmod_eq_of_le (by omega) (by omega)]

theorem wrap_16_bounds (value : Int) : -32768 ≤ wrap 16 value ∧ wrap 16 value < 32768 :=
  ⟨BitVec.le_toInt _, BitVec.toInt_lt⟩

theorem wrap_32_bounds (value : Int) : -2147483648 ≤ wrap 32 value ∧ wrap 32 value < 2147483648 :=
  ⟨BitVec.le_toInt _, BitVec.toInt_lt⟩

/-- The bytes behind a pointer. -/
abbrev Mem : Type := Nat → UInt8

namespace Mem

variable {mem mem' src src' : Mem} {start count place : Nat} {value : Int}

/-- `memcpy(mem + start, src, count)`. -/
def copy (mem : Mem) (start : Nat) (src : Mem) (count : Nat) : Mem := fun place =>
  if start ≤ place ∧ place < start + count then src (place - start) else mem place

/-- Byte number `place` of the two's complement form of an integer. -/
def digit (value : Int) : Mem := fun place => UInt8.ofNat ((value / 256 ^ place) % 256).toNat

/-- A `short` stored at `place`. -/
def short (mem : Mem) (place : Nat) : Int :=
  wrap 16 ((mem place).toNat + 256 * (mem (place + 1)).toNat)

/-- An `int` stored at `place`. -/
def int (mem : Mem) (place : Nat) : Int :=
  wrap 32 ((mem place).toNat + 256 * (mem (place + 1)).toNat +
    65536 * (mem (place + 2)).toNat + 16777216 * (mem (place + 3)).toNat)

def putShort (mem : Mem) (place : Nat) (value : Int) : Mem := mem.copy place (digit value) 2

def putInt (mem : Mem) (place : Nat) (value : Int) : Mem := mem.copy place (digit value) 4

def putByte (mem : Mem) (place : Nat) (byte : UInt8) : Mem := mem.copy place (fun _ => byte) 1

/-- The `count` bytes from `start` on. -/
def slice (mem : Mem) (start count : Nat) : List UInt8 :=
  (List.range count).map fun place => mem (start + place)

/-- Two memories with the same bytes in `[start, start + count)`. -/
def Agree (mem mem' : Mem) (start count : Nat) : Prop :=
  ∀ place, start ≤ place → place < start + count → mem place = mem' place

theorem copy_inside (lower : start ≤ place) (upper : place < start + count) :
    mem.copy start src count place = src (place - start) := by
  simp only [copy, lower, upper, and_self, if_true]

theorem copy_outside (outside : place < start ∨ start + count ≤ place) :
    mem.copy start src count place = mem place := by
  unfold copy
  rw [if_neg (by omega)]

theorem Agree.refl : Agree mem mem start count := fun _ _ _ => rfl

theorem Agree.symm (agree : Agree mem mem' start count) : Agree mem' mem start count :=
  fun place lower upper => (agree place lower upper).symm

theorem Agree.trans {last : Mem} (first : Agree mem mem' start count)
    (second : Agree mem' last start count) : Agree mem last start count :=
  fun place lower upper => (first place lower upper).trans (second place lower upper)

theorem Agree.mono (agree : Agree mem mem' start count) (inner size : Nat)
    (lower : start ≤ inner) (upper : inner + size ≤ start + count) : Agree mem mem' inner size :=
  fun place above below => agree place (by omega) (by omega)

/-- A copy leaves every range disjoint from its target as it was. -/
theorem agree_copy {target size : Nat} (disjoint : start + count ≤ target ∨ target + size ≤ start) :
    Agree (mem.copy target src size) mem start count :=
  fun _ _ _ => copy_outside (by omega)

theorem agree_putByte {target : Nat} {byte : UInt8} (disjoint : start + count ≤ target ∨ target + 1 ≤ start) :
    Agree (mem.putByte target byte) mem start count := agree_copy disjoint

theorem agree_putShort {target : Nat} (disjoint : start + count ≤ target ∨ target + 2 ≤ start) :
    Agree (mem.putShort target value) mem start count := agree_copy disjoint

theorem agree_putInt {target : Nat} (disjoint : start + count ≤ target ∨ target + 4 ≤ start) :
    Agree (mem.putInt target value) mem start count := agree_copy disjoint

theorem Agree.byte_eq (agree : Agree mem mem' place 1) : mem place = mem' place :=
  agree place (by omega) (by omega)

theorem Agree.short_eq (agree : Agree mem mem' place 2) : mem.short place = mem'.short place := by
  have low := agree place (by omega) (by omega)
  have high := agree (place + 1) (by omega) (by omega)
  simp only [short, low, high]

theorem Agree.int_eq (agree : Agree mem mem' place 4) : mem.int place = mem'.int place := by
  simp only [int, agree place (by omega) (by omega), agree (place + 1) (by omega) (by omega),
    agree (place + 2) (by omega) (by omega), agree (place + 3) (by omega) (by omega)]

theorem Agree.slice_eq (agree : Agree mem mem' start count) :
    mem.slice start count = mem'.slice start count := by
  apply List.map_congr_left
  intro place member
  have below := List.mem_range.mp member
  exact agree (start + place) (by omega) (by omega)

private theorem digit_toNat (value : Int) (place : Nat) :
    ((digit value place).toNat : Int) = (value / 256 ^ place) % 256 := by
  have bounds : 0 ≤ (value / 256 ^ place) % 256 ∧ (value / 256 ^ place) % 256 < 256 := by omega
  simp only [digit, UInt8.toNat_ofNat']
  omega

/-- Reading a stored `short` gives the value truncated to its width. -/
theorem short_putShort (mem : Mem) (place : Nat) (value : Int) :
    (mem.putShort place value).short place = wrap 16 value := by
  have low := digit_toNat value 0
  have high := digit_toNat value 1
  rw [← wrap_emod]
  simp only [short, putShort, copy_inside (Nat.le_refl place) (by omega : place < place + 2),
    copy_inside (by omega : place ≤ place + 1) (by omega : place + 1 < place + 2),
    Nat.sub_self, Nat.add_sub_cancel_left, low, high]
  congr 1
  omega

theorem int_putInt (mem : Mem) (place : Nat) (value : Int) :
    (mem.putInt place value).int place = wrap 32 value := by
  have d0 := digit_toNat value 0
  have d1 := digit_toNat value 1
  have d2 := digit_toNat value 2
  have d3 := digit_toNat value 3
  rw [← wrap_emod]
  simp only [int, putInt, copy_inside (Nat.le_refl place) (by omega : place < place + 4),
    copy_inside (by omega : place ≤ place + 1) (by omega : place + 1 < place + 4),
    copy_inside (by omega : place ≤ place + 2) (by omega : place + 2 < place + 4),
    copy_inside (by omega : place ≤ place + 3) (by omega : place + 3 < place + 4),
    Nat.sub_self, Nat.add_sub_cancel_left, d0, d1, d2, d3]
  congr 1
  omega

theorem short_putShort_of_range (lower : -32768 ≤ value) (upper : value < 32768) :
    (mem.putShort place value).short place = value :=
  (short_putShort mem place value).trans (wrap_16_of_range lower upper)

theorem int_putInt_of_range (lower : -2147483648 ≤ value) (upper : value < 2147483648) :
    (mem.putInt place value).int place = value :=
  (int_putInt mem place value).trans (wrap_32_of_range lower upper)

theorem int_bounds (mem : Mem) (place : Nat) :
    -2147483648 ≤ mem.int place ∧ mem.int place < 2147483648 := wrap_32_bounds _

theorem short_bounds (mem : Mem) (place : Nat) :
    -32768 ≤ mem.short place ∧ mem.short place < 32768 := wrap_16_bounds _

@[simp] theorem putByte_same (mem : Mem) (place : Nat) (byte : UInt8) :
    mem.putByte place byte place = byte := by
  simp [putByte, copy]

@[simp] theorem slice_length (mem : Mem) (start count : Nat) : (mem.slice start count).length = count := by
  simp [slice]

@[simp] theorem slice_zero (mem : Mem) (start : Nat) : mem.slice start 0 = [] := rfl

theorem slice_getElem (below : place < (mem.slice start count).length) :
    (mem.slice start count)[place] = mem (start + place) := by
  simp [slice]

theorem slice_append (mem : Mem) (start count more : Nat) :
    mem.slice start (count + more) = mem.slice start count ++ mem.slice (start + count) more := by
  simp [slice, List.range_add, Nat.add_assoc, Function.comp_def]

theorem slice_succ (mem : Mem) (start count : Nat) :
    mem.slice start (count + 1) = mem start :: mem.slice (start + 1) count := by
  simp [slice, List.range_succ_eq_map, Function.comp_def, Nat.add_assoc, Nat.add_comm 1]

theorem slice_shift (mem : Mem) (shift start count : Nat) :
    slice (fun place => mem (shift + place)) start count = mem.slice (shift + start) count := by
  simp [slice, Nat.add_assoc]

/-- The bytes a copy put down are those of its source. -/
theorem slice_copy_inside (mem : Mem) (start : Nat) (src : Mem) {count shift size : Nat}
    (within : shift + size ≤ count) :
    (mem.copy start src count).slice (start + shift) size = src.slice shift size := by
  apply List.map_congr_left
  intro place member
  have below := List.mem_range.mp member
  rw [copy_inside (by omega) (by omega)]
  congr 1
  omega

theorem slice_copy (mem : Mem) (start : Nat) (src : Mem) (count : Nat) :
    (mem.copy start src count).slice start count = src.slice 0 count :=
  slice_copy_inside mem start src (show 0 + count ≤ count by omega)

/-- A copy over the first bytes of a memory leaves the others. -/
theorem slice_copy_first (mem src : Mem) {count len : Nat} (within : count ≤ len) :
    (mem.copy 0 src count).slice 0 len = src.slice 0 count ++ mem.slice count (len - count) := by
  have total : len = count + (len - count) := by omega
  have behind : Agree (mem.copy 0 src count) mem (0 + count) (len - count) := agree_copy (.inr (Nat.le_refl _))
  conv_lhs => rw [total]
  rw [slice_append, slice_copy, behind.slice_eq, Nat.zero_add]

theorem slice_const (start count : Nat) (byte : UInt8) :
    slice (fun _ => byte) start count = List.replicate count byte := by
  simp [slice, List.map_const']

end Mem

/-- A buffer: a pointer and the number of bytes that may be read behind it. -/
structure Buf where
  len : Nat
  byte : Mem

namespace Buf

def toList (buf : Buf) : List UInt8 := buf.byte.slice 0 buf.len

def ofList (bytes : List UInt8) : Buf := ⟨bytes.length, fun place => bytes.getD place 0⟩

/-- The buffer from its byte number `count` on. -/
def drop (buf : Buf) (count : Nat) : Buf := ⟨buf.len - count, fun place => buf.byte (count + place)⟩

@[simp] theorem toList_length (buf : Buf) : buf.toList.length = buf.len := by simp [toList]

@[simp] theorem ofList_len (bytes : List UInt8) : (ofList bytes).len = bytes.length := rfl

@[simp] theorem toList_ofList (bytes : List UInt8) : (ofList bytes).toList = bytes := by
  apply List.ext_getElem
  · simp
  · intro place below within
    simp [toList, ofList, Mem.slice_getElem, List.getD_eq_getElem?_getD, within]

@[simp] theorem drop_len (buf : Buf) (count : Nat) : (buf.drop count).len = buf.len - count := rfl

/-- A buffer is its first `count` bytes followed by the rest. -/
theorem slice_append_drop (buf : Buf) {count : Nat} (within : count ≤ buf.len) :
    buf.byte.slice 0 count ++ (buf.drop count).toList = buf.toList := by
  have total : buf.len = count + (buf.len - count) := by omega
  simp only [toList, drop, Mem.slice_shift]
  conv_rhs => rw [total, Mem.slice_append]
  simp

end Buf
