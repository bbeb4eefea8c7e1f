import Mathlib.Logic.Function.Basic
import Pingkv.Lib.Exec

/-! Memory that is allocated and freed one object at a time. An address names
one object, and is not given out again. -/

open Exec

/-- Objects by their addresses. -/
structure Heap (α : Type) where
  cell : Nat → Option α
  /-- The address of the next object. -/
  fresh : Nat

namespace Heap

variable {α β : Type}

def empty : Heap α := ⟨fun _ => none, 0⟩

/-- One more object. -/
def push (heap : Heap α) (object : α) : Heap α :=
  ⟨Function.update heap.cell heap.fresh (some object), heap.fresh + 1⟩

def alloc (object : α) : Exec (Heap α) Nat := fun heap => (.ok heap.fresh, heap.push object)

def load (n : Nat) : Exec (Heap α) α := fun heap =>
  match heap.cell n with
  | some object => (.ok object, heap)
  | none => (.error .fault, heap)

def set (heap : Heap α) (n : Nat) (object : Option α) : Heap α :=
  ⟨Function.update heap.cell n object, heap.fresh⟩

def modify (n : Nat) (change : α → α) : Exec (Heap α) Unit := do
  let object ← load n
  update fun heap => heap.set n (some (change object))

/-- `if(n)` before a change to the object. -/
def modifyIf (n : Option Nat) (change : α → α) : Exec (Heap α) Unit :=
  match n with
  | some n => modify n change
  | none => pure ()

def free (n : Nat) : Exec (Heap α) Unit := do
  let _ ← load n
  update fun heap => heap.set n none

variable {heap : Heap α} {n m : Nat} {object : α}

@[simp] theorem set_fresh (object : Option α) : (heap.set n object).fresh = heap.fresh := rfl

@[simp] theorem set_self (object : Option α) : (heap.set n object).cell n = object := Function.update_self ..

theorem set_other (other : m ≠ n) (object : Option α) : (heap.set n object).cell m = heap.cell m :=
  Function.update_of_ne other ..

@[simp] theorem push_fresh (object : α) : (heap.push object).fresh = heap.fresh + 1 := rfl

@[simp] theorem push_self (object : α) : (heap.push object).cell heap.fresh = some object := Function.update_self ..

theorem push_other (other : m ≠ heap.fresh) (object : α) : (heap.push object).cell m = heap.cell m :=
  Function.update_of_ne other ..

@[simp] theorem alloc_run (object : α) : alloc object heap = (.ok heap.fresh, heap.push object) := rfl

theorem load_run (held : heap.cell n = some object) : load n heap = (.ok object, heap) := by
  simp only [load, held]

theorem modify_run (held : heap.cell n = some object) (change : α → α) :
    modify n change heap = (.ok (), heap.set n (some (change object))) :=
  bind_ok (load_run held)

theorem free_run (held : heap.cell n = some object) : free n heap = (.ok (), heap.set n none) :=
  bind_ok (load_run held)

end Heap
