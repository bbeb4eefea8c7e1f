import Pingkv.Lib.Heap
import Pingkv.Lib.LinkedList

/-! `linklist`: a doubly linked list that nodes are appended to, looked for and
taken out of, over a memory that other lists may have nodes in as well. -/

namespace Pingkv

open Exec LinkedList

namespace Tool

/-- `linklist::node`. -/
structure Node (T : Type) where
  data : T
  prev : Option Nat
  next : Option Nat

/-- A `linklist` and the memory its nodes lie in. -/
structure LinkList (T : Type) where
  nodes : Heap (Node T)
  size : Nat
  /-- `_begin`. -/
  firstNode : Option Nat
  /-- `_end`. -/
  lastNode : Option Nat

namespace LinkList

variable {T α : Type}

/-- `linklist::init`. -/
def init (nodes : Heap (Node T)) : LinkList T := ⟨nodes, 0, none, none⟩

def inNodes (call : Exec (Heap (Node T)) α) : Exec (LinkList T) α :=
  within LinkList.nodes (fun nodes list => { list with nodes := nodes }) call

/-- The loop of `linklist::contains`. The function that compares may read memory
that is not there. -/
def containsFrom (compFunc : T → T → Option Int) (data : T) : Nat → Option Nat → Exec (LinkList T) (Option Nat)
  | 0, _ => exhausted
  | _ + 1, none => pure none
  | fuel + 1, some n => do
    let node ← inNodes (Heap.load n)
    match compFunc node.data data with
    | none => fault
    | some order => if order = 0 then pure (some n) else containsFrom compFunc data fuel node.next

/-- `linklist::contains`. A walk that ends passes no node twice, so it takes no
more turns than there are nodes. -/
def contains (compFunc : T → T → Option Int) (data : T) : Exec (LinkList T) (Option Nat) := do
  let list ← read id
  containsFrom compFunc data (list.nodes.fresh + 1) list.firstNode

/-- `linklist::_insert_after`. -/
def insertAfter (n : Option Nat) (newNode : Nat) : Exec (LinkList T) Unit :=
  match n with
  | none => pure ()
  | some n => inNodes do
    let nxt := (← Heap.load n).next
    Heap.modify newNode fun node => { node with prev := some n, next := nxt }
    Heap.modify n fun node => { node with next := some newNode }
    Heap.modifyIf nxt fun node => { node with prev := some newNode }

/-- `linklist::append`. -/
def append (data : T) : Exec (LinkList T) Unit := do
  let n ← inNodes (Heap.alloc ⟨data, none, none⟩)
  let list ← read id
  if list.size = 0 then
    update fun list => { list with firstNode := some n, lastNode := some n }
  else
    insertAfter list.lastNode n
    update fun list => { list with lastNode := some n }
  update fun list => { list with size := list.size + 1 }

/-- `linklist::_del_node`. -/
def delNode (n : Nat) : Exec (LinkList T) Unit := inNodes do
  let node ← Heap.load n
  Heap.modifyIf node.prev fun pre => { pre with next := node.next }
  Heap.modifyIf node.next fun nxt => { nxt with prev := node.prev }

/-- `linklist::del` of a node. -/
def del (n : Nat) : Exec (LinkList T) Unit := do
  let node ← inNodes (Heap.load n)
  update fun list => { list with
    firstNode := if list.firstNode = some n then node.next else list.firstNode
    lastNode := if list.lastNode = some n then node.prev else list.lastNode }
  delNode n
  update fun list => { list with size := list.size - 1 }
  inNodes (Heap.free n)

end LinkList

/-- A node of a list and the data in it. -/
abbrev Slot (T : Type) : Type := Nat × T

def places {T : Type} (slots : List (Slot T)) : List Nat := slots.map Prod.fst

def Node.links {T : Type} (node : Node T) : Links Nat := ⟨node.prev, node.next⟩

section Nodes

variable {T : Type}

def chain (nodes : Heap (Node T)) : Chain Nat := fun n => (nodes.cell n).map Node.links

def datas (nodes : Heap (Node T)) : Nat → Option T := fun n => (nodes.cell n).map Node.data

/-- Nodes that were there and lie outside a list are left alone. -/
def Spares (ns : List Nat) (nodes after : Heap (Node T)) : Prop :=
  ∀ m < nodes.fresh, m ∉ ns → after.cell m = nodes.cell m

/-- Other links, and nothing else. -/
structure Relinked (nodes after : Heap (Node T)) (links : Chain Nat) : Prop where
  chain : chain after = links
  datas : datas after = datas nodes
  fresh : after.fresh = nodes.fresh

variable {nodes after last : Heap (Node T)} {links : Chain Nat} {n m : Nat} {node : Node T}

/-- A node is its data with its links. -/
theorem cell_eq (sameChain : chain after m = chain nodes m) (sameData : datas after m = datas nodes m) :
    after.cell m = nodes.cell m := by
  unfold chain at sameChain
  unfold datas at sameData
  cases here : after.cell m with
  | none =>
    rw [here] at sameData
    exact (Option.map_eq_none_iff.mp sameData.symm).symm
  | some first =>
    rw [here] at sameChain sameData
    obtain ⟨second, there, data⟩ := Option.map_eq_some_iff.mp sameData.symm
    rw [there] at sameChain ⊢
    obtain ⟨_, _, _⟩ := first
    obtain ⟨_, _, _⟩ := second
    cases sameChain
    cases data
    rfl

theorem chain_of_cell (held : nodes.cell n = some node) : chain nodes n = some node.links := by
  rw [chain, held, Option.map_some]

theorem datas_of_cell (held : nodes.cell n = some node) : datas nodes n = some node.data := by
  rw [datas, held, Option.map_some]

theorem cell_of_chain (there : (chain nodes n).isSome) : ∃ node, nodes.cell n = some node := by
  rw [chain, Option.isSome_map] at there
  exact Option.isSome_iff_exists.mp there

theorem chain_set (node : Option (Node T)) :
    chain (nodes.set n node) = Function.update (chain nodes) n (node.map Node.links) := by
  funext place
  by_cases here : place = n
  · subst here
    rw [Function.update_self, chain, Heap.set_self]
  · rw [Function.update_of_ne here, chain, Heap.set_other here, chain]

theorem datas_set (node : Option (Node T)) :
    datas (nodes.set n node) = Function.update (datas nodes) n (node.map Node.data) := by
  funext place
  by_cases here : place = n
  · subst here
    rw [Function.update_self, datas, Heap.set_self]
  · rw [Function.update_of_ne here, datas, Heap.set_other here, datas]

theorem chain_push (node : Node T) :
    chain (nodes.push node) = Function.update (chain nodes) nodes.fresh (some node.links) := chain_set _

theorem datas_push (node : Node T) :
    datas (nodes.push node) = Function.update (datas nodes) nodes.fresh (some node.data) := datas_set _

/-- Writing links leaves the data of a node. -/
theorem datas_kept (held : nodes.cell n = some node) {other : Node T} (same : other.data = node.data) :
    datas (nodes.set n (some other)) = datas nodes := by
  rw [datas_set, Option.map_some, same]
  exact Function.update_eq_self_iff.mpr (datas_of_cell held).symm

/-- A change to the links of the node behind a pointer that may be `NULL`. -/
theorem modifyIf_links {n : Option Nat} (there : ∀ m ∈ n, (chain nodes m).isSome) {change : Node T → Node T}
    {links : Links Nat → Links Nat} (written : ∀ node, (change node).links = links node.links)
    (kept : ∀ node, (change node).data = node.data) :
    ∃ after, Heap.modifyIf n change nodes = (.ok (), after) ∧
      Relinked nodes after fun m => if n = some m then (chain nodes m).map links else chain nodes m := by
  cases n with
  | none => exact ⟨nodes, rfl, rfl, rfl, rfl⟩
  | some m =>
    obtain ⟨node, held⟩ := cell_of_chain (there m rfl)
    refine ⟨_, Heap.modify_run held _, ?_, datas_kept held (kept node), rfl⟩
    rw [chain_set, Option.map_some, written, written_eq_update (chain_of_cell held)]

/-- `if(n) n->next = next`. -/
theorem modifyIf_next {n : Option Nat} (there : ∀ m ∈ n, (chain nodes m).isSome) (next : Option Nat) :
    ∃ after, Heap.modifyIf n (fun node => { node with next := next }) nodes = (.ok (), after) ∧
      Relinked nodes after (setNext (chain nodes) n next) :=
  modifyIf_links there (fun _ => rfl) fun _ => rfl

/-- `if(n) n->prev = prev`. -/
theorem modifyIf_prev {n : Option Nat} (there : ∀ m ∈ n, (chain nodes m).isSome) (prev : Option Nat) :
    ∃ after, Heap.modifyIf n (fun node => { node with prev := prev }) nodes = (.ok (), after) ∧
      Relinked nodes after (setPrev (chain nodes) n prev) :=
  modifyIf_links there (fun _ => rfl) fun _ => rfl

theorem mem_places {slots : List (Slot T)} {slot : Slot T} (member : slot ∈ slots) : slot.1 ∈ places slots :=
  List.mem_map_of_mem member

theorem places_append {xs ys : List (Slot T)} : places (xs ++ ys) = places xs ++ places ys := List.map_append

end Nodes

/-- The nodes of a list from `_begin` to `_end`, with the data they were
appended with. -/
structure LinkList.Holds {T : Type} (slots : List (Slot T)) (list : LinkList T) : Prop where
  data : ∀ slot ∈ slots, datas list.nodes slot.1 = some slot.2
  linked : Linked (chain list.nodes) none (places slots) none
  distinct : (places slots).Nodup
  below : ∀ slot ∈ slots, slot.1 < list.nodes.fresh
  size : list.size = slots.length
  first : list.firstNode = (places slots).head?
  last : list.lastNode = (places slots).getLast?

/-- Where the nodes of a list lie in the memory. -/
structure Spans {T : Type} (slots : List (Slot T)) (nodes : Heap (Node T)) : Prop where
  data : ∀ slot ∈ slots, datas nodes slot.1 = some slot.2
  linked : Linked (chain nodes) none (places slots) none
  distinct : (places slots).Nodup
  below : ∀ slot ∈ slots, slot.1 < nodes.fresh

namespace LinkList

variable {T : Type} {list : LinkList T} {slots xs ys rest : List (Slot T)}

theorem inNodes_run {α : Type} {call : Exec (Heap (Node T)) α} {value : α} {after : Heap (Node T)}
    (returned : call list.nodes = (.ok value, after)) :
    inNodes call list = (.ok value, { list with nodes := after }) :=
  within_ok returned

theorem init_holds (nodes : Heap (Node T)) : Holds [] (init nodes) where
  data := List.forall_mem_nil _
  linked := trivial
  distinct := .nil
  below := List.forall_mem_nil _
  size := rfl
  first := rfl
  last := rfl

theorem Holds.spans (holds : Holds slots list) : Spans slots list.nodes :=
  ⟨holds.data, holds.linked, holds.distinct, holds.below⟩

theorem Holds.below_places (holds : Holds slots list) : ∀ n ∈ places slots, n < list.nodes.fresh := by
  intro n member
  obtain ⟨slot, there, rfl⟩ := List.mem_map.mp member
  exact holds.below slot there

/-- A list does not notice what happens to other nodes. -/
theorem Holds.spared (holds : Holds slots list) {after : Heap (Node T)} {ns : List Nat}
    (spares : Spares ns list.nodes after) (apart : List.Disjoint (places slots) ns)
    (grown : list.nodes.fresh ≤ after.fresh) : Holds slots { list with nodes := after } := by
  have same (slot : Slot T) (member : slot ∈ slots) : after.cell slot.1 = list.nodes.cell slot.1 :=
    spares slot.1 (holds.below slot member) fun other => apart (mem_places member) other
  refine ⟨?_, ?_, holds.distinct, ?_, holds.size, holds.first, holds.last⟩
  · intro slot member
    rw [← holds.data slot member, datas, datas, same slot member]
  · apply holds.linked.frame
    intro n member
    obtain ⟨slot, there, rfl⟩ := List.mem_map.mp member
    rw [chain, chain, same slot there]
  · exact fun slot member => Nat.lt_of_lt_of_le (holds.below slot member) grown

/-- There are no more nodes in a list than there were allocated. -/
theorem Holds.length_le (holds : Holds slots list) : slots.length ≤ list.nodes.fresh := by
  have few := length_le_of_lt holds.distinct holds.below_places
  rwa [places, List.length_map] at few

section Contains

variable {compFunc : T → T → Option Int} {data : T}

/-- The loop goes on from the first of the nodes left. -/
theorem containsFrom_run {before : Option Nat} {fuel : Nat}
    (held : ∀ slot ∈ rest, datas list.nodes slot.1 = some slot.2)
    (linked : Linked (chain list.nodes) before (places rest) none)
    (compares : ∀ slot ∈ rest, (compFunc slot.2 data).isSome) (enough : rest.length < fuel) :
    containsFrom compFunc data fuel (places rest).head? list =
      (.ok ((rest.find? fun slot => decide (compFunc slot.2 data = some 0)).map Prod.fst), list) := by
  induction rest generalizing before fuel with
  | nil =>
    obtain ⟨fuel, rfl⟩ := Nat.exists_eq_succ_of_ne_zero (Nat.ne_of_gt enough)
    rfl
  | cons slot rest ih =>
    obtain ⟨fuel, rfl⟩ := Nat.exists_eq_succ_of_ne_zero (Nat.ne_of_gt (Nat.zero_lt_of_lt enough))
    obtain ⟨node, there, stored⟩ := Option.map_eq_some_iff.mp (held slot List.mem_cons_self)
    obtain ⟨order, compared⟩ := Option.isSome_iff_exists.mp (compares slot List.mem_cons_self)
    refine (bind_ok (inNodes_run (Heap.load_run there))).trans ?_
    simp only [stored, compared, List.find?_cons, Option.some.injEq]
    by_cases same : order = 0
    · simp only [same, if_true, decide_true, Option.map_some, pure_run]
    · simp only [same, if_false, decide_false]
      have next : node.next = (places rest).head? := by
        have links := (chain_of_cell there).symm.trans linked.1
        rw [Option.or_none] at links
        exact congrArg Links.next (Option.some.inj links)
      rw [next]
      exact ih (fun slot member => held slot (List.mem_cons_of_mem _ member)) linked.2
        (fun slot member => compares slot (List.mem_cons_of_mem _ member)) (Nat.lt_of_succ_lt_succ enough)

/-- `contains` finds the first node whose data compare equal. -/
theorem Holds.contains_run (holds : Holds slots list) (compares : ∀ slot ∈ slots, (compFunc slot.2 data).isSome) :
    contains compFunc data list =
      (.ok ((slots.find? fun slot => decide (compFunc slot.2 data = some 0)).map Prod.fst), list) := by
  refine (bind_ok (read_run _ list)).trans ?_
  simp only [id, holds.first]
  exact containsFrom_run holds.data holds.linked compares (Nat.lt_succ_of_le holds.length_le)

end Contains

section Append

variable {l : Nat} {node : Node T} {data : T}

/-- Nothing comes behind the last node. -/
theorem Holds.next_last (holds : Holds slots list) (held : list.nodes.cell l = some node)
    (last : (places slots).getLast? = some l) : node.next = none := by
  obtain ⟨front, split⟩ := List.getLast?_eq_some_iff.mp last
  have linked := holds.linked
  rw [split] at linked
  exact congrArg Links.next (Option.some.inj ((chain_of_cell held).symm.trans linked.links))

/-- The memory behind `append`: the new node is the last one. -/
structure Appended (last : Option Nat) (data : T) (nodes after : Heap (Node T)) : Prop where
  chain : chain after =
    Function.update (setNext (chain nodes) last (some nodes.fresh)) nodes.fresh (some ⟨last, none⟩)
  datas : datas after = Function.update (datas nodes) nodes.fresh (some data)
  fresh : after.fresh = nodes.fresh + 1

/-- A new node, linked to the last one. -/
def pushBehind (nodes : Heap (Node T)) (l : Nat) (node : Node T) (data : T) : Heap (Node T) :=
  ((nodes.push ⟨data, none, none⟩).set nodes.fresh (some ⟨data, some l, none⟩)).set l
    (some { node with next := some nodes.fresh })

variable {nodes : Heap (Node T)}

theorem insertAfter_run {n : Option Nat} (same : n = some l) (held : list.nodes.cell l = some node)
    (last : node.next = none) (apart : l ≠ list.nodes.fresh) :
    insertAfter n list.nodes.fresh { list with nodes := list.nodes.push ⟨data, none, none⟩ } =
      (.ok (), { list with nodes := pushBehind list.nodes l node data }) := by
  have pushed : (list.nodes.push ⟨data, none, none⟩).cell l = some node := by
    rw [Heap.push_other apart]
    exact held
  have kept : ((list.nodes.push ⟨data, none, none⟩).set list.nodes.fresh (some ⟨data, some l, none⟩)).cell l =
      some node := by
    rw [Heap.set_other apart]
    exact pushed
  subst same
  apply inNodes_run
  refine (bind_ok (Heap.load_run pushed)).trans ?_
  rw [last]
  exact (bind_ok (Heap.modify_run (Heap.push_self _) _)).trans (bind_ok (Heap.modify_run kept _))

theorem pushBehind_appended (held : nodes.cell l = some node) (apart : l ≠ nodes.fresh) :
    Appended (some l) data nodes (pushBehind nodes l node data) := by
  refine ⟨?_, ?_, rfl⟩
  · rw [pushBehind, chain_set, chain_set, chain_push, Function.update_idem, setNext_eq_update (chain_of_cell held),
      Function.update_comm apart]
    rfl
  · rw [pushBehind, datas_set, datas_set, datas_push, Function.update_idem, Function.update_comm (Ne.symm apart)]
    congr 1
    exact Function.update_eq_self_iff.mpr (datas_of_cell held).symm

theorem Holds.append_nodes (holds : Holds slots list) (data : T) :
    ∃ nodes, append data list = (.ok (), ⟨nodes, list.size + 1,
        if list.size = 0 then some list.nodes.fresh else list.firstNode, some list.nodes.fresh⟩) ∧
      Appended (places slots).getLast? data list.nodes nodes := by
  have allocated : inNodes (Heap.alloc ⟨data, none, none⟩) list =
      (.ok list.nodes.fresh, { list with nodes := list.nodes.push ⟨data, none, none⟩ }) :=
    inNodes_run (Heap.alloc_run _)
  rcases List.eq_nil_or_concat slots with rfl | ⟨xs, ⟨l, d⟩, rfl⟩
  · have empty : list.size = 0 := holds.size
    refine ⟨list.nodes.push ⟨data, none, none⟩, ?_, chain_push _, datas_push _, rfl⟩
    refine (bind_ok allocated).trans ?_
    simp [empty]
  · rw [List.concat_eq_append] at holds ⊢
    have member : (l, d) ∈ xs ++ [(l, d)] := List.mem_append_right xs List.mem_cons_self
    have last : (places (xs ++ [(l, d)])).getLast? = some l := by
      rw [places_append]
      exact List.getLast?_concat
    have nonempty : list.size ≠ 0 := by
      rw [holds.size, List.length_append]
      exact Nat.succ_ne_zero _
    have apart : l ≠ list.nodes.fresh := Nat.ne_of_lt (holds.below (l, d) member)
    obtain ⟨node, held, _⟩ := Option.map_eq_some_iff.mp (holds.data (l, d) member)
    refine ⟨pushBehind list.nodes l node data, ?_, last ▸ pushBehind_appended held apart⟩
    refine (bind_ok allocated).trans ((bind_ok (read_run _ _)).trans ?_)
    simp only [id, nonempty, if_false]
    exact bind_ok (insertAfter_run (holds.last.trans last) held (holds.next_last held last) apart)

/-- The new node is one more of the list. -/
theorem Appended.spans {after : Heap (Node T)} (appended : Appended (places slots).getLast? data nodes after)
    (spans : Spans slots nodes) : Spans (slots ++ [(nodes.fresh, data)]) after ∧ Spares (places slots) nodes after := by
  have new : nodes.fresh ∉ places slots := by
    intro member
    obtain ⟨slot, there, same⟩ := List.mem_map.mp member
    exact Nat.lt_irrefl _ (same ▸ spans.below slot there)
  have older (m : Nat) (old : m < nodes.fresh) : Tool.datas after m = Tool.datas nodes m := by
    rw [appended.datas]
    exact Function.update_of_ne (Nat.ne_of_lt old) _ _
  refine ⟨⟨?_, ?_, ?_, ?_⟩, ?_⟩
  · intro slot member
    rcases List.mem_append.mp member with old | last
    · exact (older slot.1 (spans.below slot old)).trans (spans.data slot old)
    · obtain rfl := List.mem_singleton.mp last
      rw [appended.datas]
      exact Function.update_self ..
  · rw [places_append, appended.chain]
    exact spans.linked.append spans.distinct new
  · rw [places_append]
    exact List.nodup_append'.mpr ⟨spans.distinct, List.nodup_singleton _, List.disjoint_singleton.mpr new⟩
  · intro slot member
    rw [appended.fresh]
    rcases List.mem_append.mp member with old | last
    · exact Nat.lt_succ_of_lt (spans.below slot old)
    · obtain rfl := List.mem_singleton.mp last
      exact Nat.lt_succ_self _
  · intro m old outside
    apply cell_eq
    · rw [appended.chain, Function.update_of_ne (Nat.ne_of_lt old), setNext_other]
      exact fun last => outside (List.mem_of_getLast? last)
    · exact older m old

/-- `append` puts the data into a new node behind the others. -/
theorem Holds.append_run (holds : Holds slots list) (data : T) :
    ∃ after, append data list = (.ok (), after) ∧ Holds (slots ++ [(list.nodes.fresh, data)]) after ∧
      Spares (places slots) list.nodes after.nodes ∧ after.nodes.fresh = list.nodes.fresh + 1 := by
  obtain ⟨nodes, run, appended⟩ := holds.append_nodes data
  obtain ⟨spans, spares⟩ := appended.spans holds.spans
  refine ⟨_, run, ⟨spans.data, spans.linked, spans.distinct, spans.below, ?_, ?_, ?_⟩, spares, appended.fresh⟩
  · rw [List.length_append, ← holds.size]
    rfl
  · rw [places_append, List.head?_append, ← holds.first]
    cases slots with
    | nil => simp [holds.size, holds.first, places]
    | cons slot rest => simp [holds.size, holds.first, places]
  · rw [places_append]
    exact List.getLast?_concat.symm

end Append

section Del

variable {n : Nat} {d : T} {node : Node T}

/-- `_del_node` links the neighbours of a node to each other. -/
theorem delNode_run (held : list.nodes.cell n = some node) (before : ∀ m ∈ node.prev, (chain list.nodes m).isSome)
    (behind : ∀ m ∈ node.next, (chain list.nodes m).isSome) :
    ∃ after, delNode n list = (.ok (), { list with nodes := after }) ∧ Relinked list.nodes after
      (setPrev (setNext (chain list.nodes) node.prev node.next) node.next node.prev) := by
  obtain ⟨first, run1, relinked1⟩ := modifyIf_next before node.next
  have behind1 : ∀ m ∈ node.next, (chain first m).isSome := by
    intro m member
    rw [relinked1.chain, isSome_setNext]
    exact behind m member
  obtain ⟨second, run2, relinked2⟩ := modifyIf_prev behind1 node.prev
  refine ⟨second, ?_, ?_, relinked2.datas.trans relinked1.datas, relinked2.fresh.trans relinked1.fresh⟩
  · apply inNodes_run
    exact (bind_ok (Heap.load_run held)).trans ((bind_ok run1).trans run2)
  · rw [relinked2.chain, relinked1.chain]

/-- The memory behind `del`: the node is gone, and its neighbours are linked. -/
structure Deleted (n : Nat) (links : Links Nat) (nodes after : Heap (Node T)) : Prop where
  chain : chain after = Function.update
    (setPrev (setNext (chain nodes) links.prev links.next) links.next links.prev) n none
  datas : datas after = Function.update (datas nodes) n none
  fresh : after.fresh = nodes.fresh

/-- A node is freed when its neighbours are linked to each other. -/
theorem deleted_of_relinked (n : Nat) (links : Links Nat) {nodes last : Heap (Node T)}
    (relinked : Relinked nodes last (setPrev (setNext (Tool.chain nodes) links.prev links.next) links.next links.prev)) :
    Deleted n links nodes (last.set n none) := by
  refine ⟨?_, ?_, relinked.fresh⟩
  · rw [chain_set, relinked.chain]
    rfl
  · rw [datas_set, relinked.datas]
    rfl

theorem del_nodes (held : list.nodes.cell n = some node) (before : ∀ m ∈ node.prev, (chain list.nodes m).isSome)
    (behind : ∀ m ∈ node.next, (chain list.nodes m).isSome) :
    ∃ nodes, del n list = (.ok (), ⟨nodes, list.size - 1, if list.firstNode = some n then node.next else list.firstNode,
        if list.lastNode = some n then node.prev else list.lastNode⟩) ∧ Deleted n node.links list.nodes nodes := by
  let cut : LinkList T := { list with
    firstNode := if list.firstNode = some n then node.next else list.firstNode
    lastNode := if list.lastNode = some n then node.prev else list.lastNode }
  obtain ⟨nodes, run, relinked⟩ := delNode_run (show cut.nodes.cell n = some node from held) before behind
  have there : (chain nodes n).isSome := by
    rw [relinked.chain, isSome_setPrev, isSome_setNext, chain_of_cell held]
    rfl
  obtain ⟨last, held'⟩ := cell_of_chain there
  refine ⟨nodes.set n none, ?_, deleted_of_relinked n node.links relinked⟩
  refine (bind_ok (inNodes_run (Heap.load_run held))).trans ((bind_ok (update_run _ _)).trans ?_)
  exact (bind_ok run).trans ((bind_ok (update_run _ _)).trans (inNodes_run (Heap.free_run held')))

/-- A node of a list, its links, and the nodes that they lead to. -/
theorem Spans.found {nodes : Heap (Node T)} (spans : Spans (xs ++ (n, d) :: ys) nodes) : ∃ node, nodes.cell n = some node ∧
    node.prev = (places xs).getLast? ∧ node.next = (places ys).head? ∧ (∀ m ∈ node.prev, (chain nodes m).isSome) ∧
      ∀ m ∈ node.next, (chain nodes m).isSome := by
  have split : places (xs ++ (n, d) :: ys) = places xs ++ n :: places ys := places_append
  have linked := split ▸ spans.linked
  obtain ⟨node, held⟩ := cell_of_chain (linked.isSome (List.mem_append_right _ List.mem_cons_self))
  have links : node.links = ⟨(places xs).getLast?, (places ys).head?⟩ := by
    have links := (chain_of_cell held).symm.trans linked.links
    rw [Option.or_none, Option.or_none] at links
    exact Option.some.inj links
  have prev : node.prev = (places xs).getLast? := congrArg Links.prev links
  have next : node.next = (places ys).head? := congrArg Links.next links
  refine ⟨node, held, prev, next, ?_, ?_⟩
  · intro m last
    rw [prev] at last
    exact linked.isSome (List.mem_append_left _ (List.mem_of_getLast? last))
  · intro m first
    rw [next] at first
    exact linked.isSome (List.mem_append_right _ (List.mem_cons_of_mem n (List.mem_of_head? first)))

/-- The other nodes are still those of the list. -/
theorem Deleted.spans {nodes after : Heap (Node T)} (deleted : Deleted n ⟨(places xs).getLast?, (places ys).head?⟩ nodes after)
    (spans : Spans (xs ++ (n, d) :: ys) nodes) :
    Spans (xs ++ ys) after ∧ Spares (places (xs ++ (n, d) :: ys)) nodes after := by
  have split : places (xs ++ (n, d) :: ys) = places xs ++ n :: places ys := places_append
  have linked := split ▸ spans.linked
  have distinct := split ▸ spans.distinct
  have outside : n ∉ places xs ++ places ys := (List.nodup_middle.mp distinct).notMem
  have kept : places (xs ++ ys) = places xs ++ places ys := places_append
  have other (slot : Slot T) (member : slot ∈ xs ++ ys) : slot.1 ≠ n := by
    rintro rfl
    exact outside (kept ▸ mem_places member)
  have inside (slot : Slot T) (member : slot ∈ xs ++ ys) : slot ∈ xs ++ (n, d) :: ys :=
    ((List.sublist_cons_self (n, d) ys).append_left xs).subset member
  refine ⟨⟨?_, ?_, ?_, ?_⟩, ?_⟩
  · intro slot member
    rw [deleted.datas, Function.update_of_ne (other slot member)]
    exact spans.data slot (inside slot member)
  · rw [kept]
    apply (linked.unlink distinct).frame
    intro m member
    rw [deleted.chain]
    exact Function.update_of_ne (ne_of_mem_of_not_mem member outside) _ _
  · rw [kept]
    exact (List.nodup_middle.mp distinct).of_cons
  · intro slot member
    rw [deleted.fresh]
    exact spans.below slot (inside slot member)
  · intro m old apart
    rw [split] at apart
    have different : m ≠ n := by
      rintro rfl
      exact apart (List.mem_append_right _ List.mem_cons_self)
    apply cell_eq
    · rw [deleted.chain, Function.update_of_ne different, setPrev_other, setNext_other]
      · exact fun last => apart (List.mem_append_left _ (List.mem_of_getLast? last))
      · exact fun first => apart (List.mem_append_right _ (List.mem_cons_of_mem n (List.mem_of_head? first)))
    · rw [deleted.datas]
      exact Function.update_of_ne different _ _

/-- `del` takes the node out of the list. -/
theorem Holds.del_run (holds : Holds (xs ++ (n, d) :: ys) list) :
    ∃ after, del n list = (.ok (), after) ∧ Holds (xs ++ ys) after ∧
      Spares (places (xs ++ (n, d) :: ys)) list.nodes after.nodes ∧ after.nodes.fresh = list.nodes.fresh := by
  have split : places (xs ++ (n, d) :: ys) = places xs ++ n :: places ys := places_append
  have kept : places (xs ++ ys) = places xs ++ places ys := places_append
  have distinct := split ▸ holds.distinct
  obtain ⟨node, held, prev, next, before, behind⟩ := Spans.found holds.spans
  obtain ⟨nodes, run, deleted⟩ := del_nodes held before behind
  rw [show node.links = ⟨(places xs).getLast?, (places ys).head?⟩ by rw [Node.links, prev, next]] at deleted
  obtain ⟨spans, spares⟩ := deleted.spans holds.spans
  refine ⟨_, run, ⟨spans.data, spans.linked, spans.distinct, spans.below, ?_, ?_, ?_⟩, spares, deleted.fresh⟩
  · rw [holds.size]
    simp
  · rw [kept, next, holds.first, split]
    exact head?_unlink distinct
  · rw [kept, prev, holds.last, split]
    exact getLast?_unlink distinct

end Del

end LinkList

end Tool

end Pingkv
