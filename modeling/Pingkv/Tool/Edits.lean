import Mathlib.Data.List.Induction
import Pingkv.Tool.LList

/-! Sequences of appends and deletions, and the walks over what they leave of a
`linklist` and of an `llist`. -/

namespace Pingkv

open Exec LinkedList

namespace Tool

/-- An append, or the deletion of the node at an address. -/
inductive Edit (T : Type) where
  | append (data : T)
  | del (n : Nat)

def LinkList.edit {T : Type} : Edit T → Exec (LinkList T) Unit
  | .append data => append data
  | .del n => del n

def LList.edit {T : Type} : Edit T → Exec (LList T) Unit
  | .append data => pushBack data
  | .del n => del n

variable {T : Type}

/-- The nodes appended and not deleted, in the order they were appended in, when
the next node gets the address `fresh`. Nodes are deleted while they are members. -/
def kept : List (Edit T) → Nat → List (Slot T) → Option (List (Slot T))
  | [], _, slots => some slots
  | .append data :: edits, fresh, slots => kept edits (fresh + 1) (slots ++ [(fresh, data)])
  | .del n :: edits, fresh, slots =>
    if n ∈ places slots then kept edits fresh (slots.filter fun slot => slot.1 ≠ n) else none

/-- The nodes that a pointer leads through from a node on until it is `NULL`,
which it is to be behind so many of them. -/
def follow (pointer : Node T → Option Nat) (nodes : Heap (Node T)) : Nat → Option Nat → Option (List (Slot T))
  | _, none => some []
  | 0, some _ => none
  | turns + 1, some n => do
    let node ← nodes.cell n
    let rest ← follow pointer nodes turns (pointer node)
    some ((n, node.data) :: rest)

/-- What there is to see of a list from its first and its last node. -/
structure Walks (slots : List (Slot T)) (nodes : Heap (Node T)) (first last : Option Nat) : Prop where
  forward : follow Node.next nodes slots.length first = some slots
  backward : follow Node.prev nodes slots.length last = some slots.reverse
  first : ∀ n ∈ first, ∃ node, nodes.cell n = some node ∧ node.prev = none
  last : ∀ n ∈ last, ∃ node, nodes.cell n = some node ∧ node.next = none

section Walks

variable {slots ys : List (Slot T)} {nodes : Heap (Node T)} {before after : Option Nat}

/-- A node in the middle of linked ones. -/
theorem slot_cell {n : Nat} {d : T} (xs : List (Slot T)) (held : ∀ slot ∈ xs ++ (n, d) :: ys, datas nodes slot.1 = some slot.2)
    (linked : Linked (chain nodes) before (places (xs ++ (n, d) :: ys)) after) :
    nodes.cell n = some ⟨d, (places xs).getLast?.or before, (places ys).head?.or after⟩ := by
  have links : chain nodes n = some ⟨(places xs).getLast?.or before, (places ys).head?.or after⟩ :=
    Linked.links (by rwa [places_append] at linked)
  obtain ⟨node, there, data⟩ := Option.map_eq_some_iff.mp (held (n, d) (List.mem_append_right xs List.mem_cons_self))
  have same := Option.some.inj ((chain_of_cell there).symm.trans links)
  obtain ⟨_, _, _⟩ := node
  cases same
  cases data
  exact there

theorem follow_next (held : ∀ slot ∈ slots, datas nodes slot.1 = some slot.2)
    (linked : Linked (chain nodes) before (places slots) none) :
    follow Node.next nodes slots.length (places slots).head? = some slots := by
  induction slots generalizing before with
  | nil => rfl
  | cons slot rest ih =>
    have cell := slot_cell [] held linked
    have later := ih (fun slot member => held slot (List.mem_cons_of_mem _ member)) linked.2
    simp only [places, List.map_cons, List.head?_cons, List.length_cons, follow, cell, Option.bind_eq_bind,
      Option.bind_some, Option.or_none]
    rw [← places, later]
    rfl

theorem follow_prev (held : ∀ slot ∈ slots, datas nodes slot.1 = some slot.2)
    (linked : Linked (chain nodes) none (places slots) after) :
    follow Node.prev nodes slots.length (places slots).getLast? = some slots.reverse := by
  induction slots using List.reverseRecOn generalizing after with
  | nil => rfl
  | append_singleton front slot ih =>
    have cell := slot_cell front held linked
    rw [places_append] at linked
    have earlier := ih (fun slot member => held slot (List.mem_append_left _ member)) (linked_append.mp linked).1
    rw [List.length_append, places_append]
    simp only [places, List.map_cons, List.map_nil, List.getLast?_concat, List.length_cons, List.length_nil, follow,
      cell, Option.bind_eq_bind, Option.bind_some, Option.or_none, List.reverse_append]
    rw [← places, earlier]
    rfl

/-- Both walks over a list pass its nodes. -/
theorem Spans.walks (spans : Spans slots nodes) :
    Walks slots nodes (places slots).head? (places slots).getLast? := by
  refine ⟨follow_next spans.data spans.linked, follow_prev spans.data spans.linked, ?_, ?_⟩
  · intro n first
    cases slots with
    | nil => cases first
    | cons slot rest =>
      obtain rfl : slot.1 = n := Option.some.inj first
      exact ⟨_, slot_cell [] spans.data spans.linked, rfl⟩
  · intro n last
    rcases List.eq_nil_or_concat slots with rfl | ⟨front, slot, rfl⟩
    · cases last
    · rw [List.concat_eq_append] at spans last
      rw [places_append] at last
      obtain rfl : slot.1 = n := Option.some.inj (List.getLast?_concat.symm.trans last)
      exact ⟨_, slot_cell front spans.data spans.linked, rfl⟩

end Walks

section Edits

/-- Deleting a member leaves the nodes on both sides of it. -/
theorem filter_member {n : Nat} {d : T} {xs ys : List (Slot T)} (distinct : (places (xs ++ (n, d) :: ys)).Nodup) :
    (xs ++ (n, d) :: ys).filter (fun slot => slot.1 ≠ n) = xs ++ ys := by
  have outside : n ∉ places xs ++ places ys := by
    rw [places_append] at distinct
    exact (List.nodup_middle.mp distinct).notMem
  have others (side : List (Slot T)) (apart : n ∉ places side) : side.filter (fun slot => slot.1 ≠ n) = side := by
    refine List.filter_eq_self.mpr fun slot member => decide_eq_true ?_
    rintro rfl
    exact apart (mem_places member)
  rw [List.filter_append, List.filter_cons_of_neg (by simp), others xs fun member => outside (List.mem_append_left _ member),
    others ys fun member => outside (List.mem_append_right _ member)]

variable {σ : Type} {Holds : List (Slot T) → σ → Prop} {edit : Edit T → Exec σ Unit}
  {slots start : List (Slot T)} {list : σ}

/-- Edits do what their appends and deletions do, one after another. -/
theorem edits_run (nodes : σ → Heap (Node T)) (spans : ∀ slots list, Holds slots list → Spans slots (nodes list))
    (appends : ∀ slots list data, Holds slots list → ∃ after, edit (.append data) list = (.ok (), after) ∧
      Holds (slots ++ [((nodes list).fresh, data)]) after ∧ (nodes after).fresh = (nodes list).fresh + 1)
    (dels : ∀ xs ys n d list, Holds (xs ++ (n, d) :: ys) list → ∃ after, edit (.del n) list = (.ok (), after) ∧
      Holds (xs ++ ys) after ∧ (nodes after).fresh = (nodes list).fresh)
    (edits : List (Edit T)) (holds : Holds start list) (members : kept edits (nodes list).fresh start = some slots) :
    ∃ after, edits.forM edit list = (.ok (), after) ∧ Holds slots after := by
  induction edits generalizing start list with
  | nil =>
    obtain rfl : start = slots := Option.some.inj members
    exact ⟨list, rfl, holds⟩
  | cons first edits ih =>
    cases first with
    | append data =>
      obtain ⟨between, run, holds', fresh⟩ := appends start list data holds
      obtain ⟨after, later, holds''⟩ := ih holds' (by rw [fresh]; exact members)
      exact ⟨after, (bind_ok run).trans later, holds''⟩
    | del n =>
      rw [kept] at members
      split at members
      case isFalse => cases members
      case isTrue member =>
        obtain ⟨⟨_, d⟩, there, rfl⟩ := List.mem_map.mp member
        obtain ⟨xs, ys, rfl⟩ := List.append_of_mem there
        rw [filter_member (spans _ _ holds).distinct] at members
        obtain ⟨between, run, holds', fresh⟩ := dels xs ys _ d list holds
        obtain ⟨after, later, holds''⟩ := ih holds' (by rw [fresh]; exact members)
        exact ⟨after, (bind_ok run).trans later, holds''⟩

end Edits

theorem LinkList.edits_holds (nodes : Heap (Node T)) {edits : List (Edit T)} {slots : List (Slot T)}
    (members : kept edits nodes.fresh [] = some slots) :
    ∃ list, edits.forM LinkList.edit (LinkList.init nodes) = (.ok (), list) ∧ LinkList.Holds slots list := by
  refine edits_run LinkList.nodes (fun _ _ holds => holds.spans) ?_ ?_ edits (LinkList.init_holds nodes) members
  · intro slots list data holds
    obtain ⟨after, run, holds', _, fresh⟩ := holds.append_run data
    exact ⟨after, run, holds', fresh⟩
  · intro xs ys n d list holds
    obtain ⟨after, run, holds', _, fresh⟩ := holds.del_run
    exact ⟨after, run, holds', fresh⟩

theorem LList.edits_holds (nodes : Heap (Node T)) {edits : List (Edit T)} {slots : List (Slot T)}
    (members : kept edits nodes.fresh [] = some slots) :
    ∃ list, edits.forM LList.edit (LList.init nodes) = (.ok (), list) ∧ LList.Holds slots list := by
  refine edits_run LList.nodes (fun _ _ holds => holds.spans) ?_ ?_ edits (LList.init_holds nodes) members
  · intro slots list data holds
    obtain ⟨after, run, holds', _, fresh⟩ := holds.pushBack_run data
    exact ⟨after, run, holds', fresh⟩
  · intro xs ys n d list holds
    obtain ⟨after, run, holds', _, fresh⟩ := holds.del_run
    exact ⟨after, run, holds', fresh⟩

/-- Behind appends and deletions of members, both lists lead through the nodes
that are left, forward and backward, and count them: a `linklist` in an `ulong`,
an `llist` in an `int`. -/
theorem edits_walks (edits : List (Edit T)) (nodes : Heap (Node T)) {slots : List (Slot T)}
    (members : kept edits nodes.fresh [] = some slots) :
    (∃ list, edits.forM LinkList.edit (LinkList.init nodes) = (.ok (), list) ∧
      Walks slots list.nodes list.firstNode list.lastNode ∧ list.size = slots.length) ∧
    ∃ list, edits.forM LList.edit (LList.init nodes) = (.ok (), list) ∧
      Walks slots list.nodes list.firstNode list.lastNode ∧ list.size = wrap 32 slots.length := by
  constructor
  · obtain ⟨list, run, holds⟩ := LinkList.edits_holds nodes members
    refine ⟨list, run, ?_, holds.size⟩
    rw [holds.first, holds.last]
    exact holds.spans.walks
  · obtain ⟨list, run, holds⟩ := LList.edits_holds nodes members
    refine ⟨list, run, ?_, holds.size⟩
    rw [holds.first, holds.last]
    exact holds.spans.walks

/-- Three appends, the deletion of the node in the middle and of the first one,
and another append. -/
theorem edits_walks_small :
    kept [.append 'a', .append 'b', .append 'c', .del 1, .del 0, .append 'd'] 0 [] = some [(2, 'c'), (3, 'd')] ∧
    ∃ list, List.forM [.append 'a', .append 'b', .append 'c', .del 1, .del 0, .append 'd'] LList.edit
        (LList.init Heap.empty) = (.ok (), list) ∧
      Walks [(2, 'c'), (3, 'd')] list.nodes list.firstNode list.lastNode ∧ list.size = wrap 32 2 :=
  ⟨by decide, (edits_walks _ Heap.empty (by decide)).2⟩

/-- Nothing is taken out by appends. -/
theorem kept_replicate (count : Nat) (data : T) (fresh : Nat) (slots : List (Slot T)) :
    ∃ later, kept (List.replicate count (.append data)) fresh slots = some later ∧
      later.length = slots.length + count := by
  induction count generalizing fresh slots with
  | zero => exact ⟨slots, rfl, rfl⟩
  | succ count ih =>
    obtain ⟨later, members, length⟩ := ih (fresh + 1) (slots ++ [(fresh, data)])
    refine ⟨later, members, ?_⟩
    rw [length, List.length_append, List.length_singleton]
    omega

/-- The `int` of an `llist` does not count so many nodes. -/
theorem LList.size_turns_negative : ∃ slots list,
    kept (List.replicate 2147483648 (.append ())) 0 [] = some slots ∧ slots.length = 2147483648 ∧
    List.forM (List.replicate 2147483648 (.append ())) LList.edit (LList.init Heap.empty) = (.ok (), list) ∧
    list.size = -2147483648 := by
  obtain ⟨slots, members, length⟩ := kept_replicate 2147483648 () 0 []
  obtain ⟨list, run, holds⟩ := LList.edits_holds Heap.empty members
  rw [List.length_nil, Nat.zero_add] at length
  refine ⟨slots, list, members, length, run, ?_⟩
  rw [holds.size, length]
  decide

end Tool

end Pingkv
