import Pingkv.Lib.Bytes
import Pingkv.Tool.LinkList

/-! `llist`: the other doubly linked list, which new nodes are linked into as
they are made, and which counts its nodes in an `int`. -/

namespace Pingkv

open Exec LinkedList

namespace Tool

/-- An `llist` and the memory its nodes lie in. -/
structure LList (T : Type) where
  nodes : Heap (Node T)
  size : Int
  /-- `_first`. -/
  firstNode : Option Nat
  /-- `_end`. -/
  lastNode : Option Nat

namespace LList

variable {T α : Type}

/-- `llist::init`. -/
def init (nodes : Heap (Node T)) : LList T := ⟨nodes, 0, none, none⟩

def inNodes (call : Exec (Heap (Node T)) α) : Exec (LList T) α :=
  within LList.nodes (fun nodes list => { list with nodes := nodes }) call

/-- `llist::_make_node`. -/
def makeNode (data : T) (prev next : Option Nat) : Exec (LList T) Nat :=
  inNodes (Heap.alloc ⟨data, prev, next⟩)

/-- `llist::push_back`. -/
def pushBack (data : T) : Exec (LList T) Unit := do
  let last ← read LList.lastNode
  let n ← makeNode data last none
  update fun list => { list with firstNode := if list.firstNode = none then some n else list.firstNode }
  inNodes (Heap.modifyIf last fun node => { node with next := some n })
  update fun list => { list with lastNode := some n, size := wrap 32 (list.size + 1) }

/-- `llist::del`. Every line follows the pointers of the node again. -/
def del (n : Nat) : Exec (LList T) Unit := do
  inNodes do
    let node ← Heap.load n
    Heap.modifyIf node.prev fun prev => { prev with next := node.next }
    let node ← Heap.load n
    Heap.modifyIf node.next fun next => { next with prev := node.prev }
  let node ← inNodes (Heap.load n)
  update fun list => { list with
    firstNode := if list.firstNode = some n then node.next else list.firstNode
    lastNode := if list.lastNode = some n then node.prev else list.lastNode
    size := wrap 32 (list.size - 1) }
  inNodes (Heap.free n)

/-- The nodes of a list from `_first` to `_end`, with the data they were pushed with. -/
structure Holds (slots : List (Slot T)) (list : LList T) : Prop where
  spans : Spans slots list.nodes
  size : list.size = wrap 32 slots.length
  first : list.firstNode = (places slots).head?
  last : list.lastNode = (places slots).getLast?

variable {list : LList T} {slots xs ys : List (Slot T)} {nodes : Heap (Node T)} {n : Nat} {d : T}

theorem inNodes_run {call : Exec (Heap (Node T)) α} {value : α} {after : Heap (Node T)}
    (returned : call list.nodes = (.ok value, after)) :
    inNodes call list = (.ok value, { list with nodes := after }) :=
  within_ok returned

theorem init_holds (nodes : Heap (Node T)) : Holds [] (init nodes) where
  spans := ⟨List.forall_mem_nil _, trivial, .nil, List.forall_mem_nil _⟩
  size := rfl
  first := rfl
  last := rfl

/-- A count that goes on from a wrapped one is wrapped as well. -/
theorem wrap_add (bits : Nat) (value step : Int) : wrap bits (wrap bits value + step) = wrap bits (value + step) := by
  simp only [wrap_eq_bmod, Int.bmod_add_bmod]

/-- The new node points back to the last one before that one points on to it. -/
theorem push_nodes (spans : Spans slots nodes) (data : T) :
    ∃ after, Heap.modifyIf (places slots).getLast? (fun node => { node with next := some nodes.fresh })
        (nodes.push ⟨data, (places slots).getLast?, none⟩) = (.ok (), after) ∧
      LinkList.Appended (places slots).getLast? data nodes after := by
  have apart : ∀ m ∈ (places slots).getLast?, m ≠ nodes.fresh ∧ (chain nodes m).isSome := by
    intro m last
    have member : m ∈ places slots := List.mem_of_getLast? last
    obtain ⟨slot, there, rfl⟩ := List.mem_map.mp member
    exact ⟨Nat.ne_of_lt (spans.below slot there), spans.linked.isSome member⟩
  have there : ∀ m ∈ (places slots).getLast?,
      (chain (nodes.push ⟨data, (places slots).getLast?, none⟩) m).isSome := by
    intro m last
    rw [chain_push, Function.update_of_ne (apart m last).1]
    exact (apart m last).2
  obtain ⟨after, run, relinked⟩ := modifyIf_next there (some nodes.fresh)
  refine ⟨after, run, ?_, relinked.datas.trans (datas_push _), relinked.fresh⟩
  rw [relinked.chain, chain_push, setNext_update fun last => (apart _ last).1 rfl]
  rfl

/-- `push_back` puts the data into a new node behind the others. -/
theorem Holds.pushBack_run (holds : Holds slots list) (data : T) :
    ∃ after, pushBack data list = (.ok (), after) ∧ Holds (slots ++ [(list.nodes.fresh, data)]) after ∧
      Spares (places slots) list.nodes after.nodes ∧ after.nodes.fresh = list.nodes.fresh + 1 := by
  obtain ⟨nodes, run, appended⟩ := push_nodes holds.spans data
  obtain ⟨spans, spares⟩ := appended.spans holds.spans
  rw [← holds.last] at run
  refine ⟨⟨nodes, wrap 32 (list.size + 1), if list.firstNode = none then some list.nodes.fresh else list.firstNode,
    some list.nodes.fresh⟩, ?_, ⟨spans, ?_, ?_, ?_⟩, spares, appended.fresh⟩
  · refine (bind_ok (read_run _ list)).trans ((bind_ok (inNodes_run (Heap.alloc_run _))).trans ?_)
    exact (bind_ok (update_run _ _)).trans (bind_ok (inNodes_run run))
  · rw [holds.size, wrap_add, List.length_append]
    rfl
  · rw [places_append, List.head?_append, holds.first]
    cases slots <;> rfl
  · rw [places_append]
    exact List.getLast?_concat.symm

/-- The neighbours of a node are linked to each other, whichever of them is
written first. -/
theorem unlink_nodes (spans : Spans (xs ++ (n, d) :: ys) nodes) : ∃ node after,
    (do
      let node ← Heap.load n
      Heap.modifyIf node.prev fun prev => { prev with next := node.next }
      let node ← Heap.load n
      Heap.modifyIf node.next fun next => { next with prev := node.prev } : Exec (Heap (Node T)) Unit) nodes = (.ok (), after) ∧
      after.cell n = some node ∧ node.prev = (places xs).getLast? ∧ node.next = (places ys).head? ∧
      Relinked nodes after (setPrev (setNext (chain nodes) node.prev node.next) node.next node.prev) := by
  have split : places (xs ++ (n, d) :: ys) = places xs ++ n :: places ys := places_append
  have outside : n ∉ places xs ++ places ys := (List.nodup_middle.mp (split ▸ spans.distinct)).notMem
  obtain ⟨node, held, prev, next, before, behind⟩ := LinkList.Spans.found spans
  have notPrev : node.prev ≠ some n := by
    rw [prev]
    exact fun last => outside (List.mem_append_left _ (List.mem_of_getLast? last))
  have notNext : node.next ≠ some n := by
    rw [next]
    exact fun first => outside (List.mem_append_right _ (List.mem_of_head? first))
  obtain ⟨first, run1, relinked1⟩ := modifyIf_next before node.next
  have held1 : first.cell n = some node := by
    rw [← held]
    exact cell_eq (by rw [relinked1.chain, setNext_other notPrev]) (congrFun relinked1.datas n)
  have behind1 : ∀ m ∈ node.next, (chain first m).isSome := by
    intro m member
    rw [relinked1.chain, isSome_setNext]
    exact behind m member
  obtain ⟨second, run2, relinked2⟩ := modifyIf_prev behind1 node.prev
  refine ⟨node, second, ?_, ?_, prev, next, ?_, relinked2.datas.trans relinked1.datas,
    relinked2.fresh.trans relinked1.fresh⟩
  · refine (bind_ok (Heap.load_run held)).trans ((bind_ok run1).trans ?_)
    exact (bind_ok (Heap.load_run held1)).trans run2
  · rw [← held1]
    exact cell_eq (by rw [relinked2.chain, setPrev_other notNext]) (congrFun relinked2.datas n)
  · rw [relinked2.chain, relinked1.chain]

/-- `del` takes the node out of the list. -/
theorem Holds.del_run (holds : Holds (xs ++ (n, d) :: ys) list) :
    ∃ after, del n list = (.ok (), after) ∧ Holds (xs ++ ys) after ∧
      Spares (places (xs ++ (n, d) :: ys)) list.nodes after.nodes ∧ after.nodes.fresh = list.nodes.fresh := by
  have split : places (xs ++ (n, d) :: ys) = places xs ++ n :: places ys := places_append
  have kept : places (xs ++ ys) = places xs ++ places ys := places_append
  have distinct := split ▸ holds.spans.distinct
  obtain ⟨node, nodes, run, held, prev, next, relinked⟩ := unlink_nodes holds.spans
  have deleted := LinkList.deleted_of_relinked n node.links relinked
  rw [show node.links = ⟨(places xs).getLast?, (places ys).head?⟩ by rw [Node.links, prev, next]] at deleted
  obtain ⟨spans, spares⟩ := deleted.spans holds.spans
  refine ⟨⟨nodes.set n none, wrap 32 (list.size - 1),
    if list.firstNode = some n then node.next else list.firstNode,
    if list.lastNode = some n then node.prev else list.lastNode⟩, ?_, ⟨spans, ?_, ?_, ?_⟩, spares, deleted.fresh⟩
  · refine (bind_ok (inNodes_run run)).trans ((bind_ok (inNodes_run (Heap.load_run held))).trans ?_)
    exact (bind_ok (update_run _ _)).trans (inNodes_run (Heap.free_run held))
  · rw [holds.size, Int.sub_eq_add_neg, wrap_add]
    refine congrArg (wrap 32) ?_
    simp only [List.length_append, List.length_cons]
    omega
  · rw [kept, next, holds.first, split]
    exact head?_unlink distinct
  · rw [kept, prev, holds.last, split]
    exact getLast?_unlink distinct

end LList

end Tool

end Pingkv
