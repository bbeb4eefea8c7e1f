import Mathlib.Data.List.Nodup
import Mathlib.Data.List.Perm.Subperm
import Mathlib.Logic.Function.Basic
import Mathlib.Tactic.Common

/-! Doubly linked lists of nodes in a memory, and what writing their pointers
one by one does to the list. -/

namespace LinkedList

universe u

variable {Addr : Type u}

/-- The pointers of a node to the one before it and the one behind it. -/
structure Links (Addr : Type u) where
  prev : Option Addr
  next : Option Addr
  deriving DecidableEq

/-- The pointers of all nodes there are. -/
abbrev Chain (Addr : Type u) : Type u := Addr → Option (Links Addr)

/-- Nodes that are linked one behind the other, from behind `before` up to `after`. -/
def Linked (chain : Chain Addr) : Option Addr → List Addr → Option Addr → Prop
  | _, [], _ => True
  | before, n :: rest, after => chain n = some ⟨before, rest.head?.or after⟩ ∧ Linked chain (some n) rest after

/-- `n->next = next`, if there is an `n`. -/
def setNext [DecidableEq Addr] (chain : Chain Addr) (n next : Option Addr) : Chain Addr := fun m =>
  if n = some m then (chain m).map fun links => { links with next := next } else chain m

/-- `n->prev = prev`, if there is an `n`. -/
def setPrev [DecidableEq Addr] (chain : Chain Addr) (n prev : Option Addr) : Chain Addr := fun m =>
  if n = some m then (chain m).map fun links => { links with prev := prev } else chain m

variable {chain chain' : Chain Addr} {before after : Option Addr} {n : Addr} {ns xs ys : List Addr}

/-- Only the pointers of its own nodes matter to a list. -/
theorem Linked.frame (linked : Linked chain before ns after) (same : ∀ n ∈ ns, chain' n = chain n) :
    Linked chain' before ns after := by
  induction ns generalizing before with
  | nil => trivial
  | cons n rest ih =>
    refine ⟨(same n List.mem_cons_self).trans linked.1, ?_⟩
    exact ih linked.2 fun m member => same m (List.mem_cons_of_mem n member)

theorem getLast?_cons_or (n : Addr) (rest : List Addr) (before : Option Addr) :
    (n :: rest).getLast?.or before = rest.getLast?.or (some n) := by
  rw [List.getLast?_cons]
  cases rest.getLast? <;> rfl

theorem linked_append : Linked chain before (xs ++ ys) after ↔
    Linked chain before xs (ys.head?.or after) ∧ Linked chain (xs.getLast?.or before) ys after := by
  induction xs generalizing before with
  | nil => exact (and_iff_right trivial).symm
  | cons n rest ih =>
    simp only [List.cons_append, Linked, ih, List.head?_append, Option.or_assoc, getLast?_cons_or, and_assoc]

/-- Every node of a list is there. -/
theorem Linked.isSome (linked : Linked chain before ns after) (member : n ∈ ns) : (chain n).isSome := by
  obtain ⟨xs, ys, rfl⟩ := List.append_of_mem member
  rw [(linked_append.mp linked).2.1]
  rfl

/-- What a node in the middle of a list points to. -/
theorem Linked.links (linked : Linked chain before (xs ++ n :: ys) after) :
    chain n = some ⟨xs.getLast?.or before, ys.head?.or after⟩ :=
  (linked_append.mp linked).2.1

/-- The pointers lead through one list only. -/
theorem Linked.unique (first : Linked chain before xs none) (second : Linked chain before ys none)
    (start : xs.head? = ys.head?) : xs = ys := by
  induction xs generalizing before ys with
  | nil =>
    cases ys with
    | nil => rfl
    | cons m rest => cases start
  | cons n rest ih =>
    cases ys with
    | nil => cases start
    | cons m later =>
      obtain rfl : n = m := Option.some.inj start
      have links := first.1.symm.trans second.1
      simp only [Option.or_none, Option.some.injEq, Links.mk.injEq, true_and] at links
      rw [ih first.2 second.2 links]

/-- No more numbered nodes are apart than there are numbers for them. -/
theorem length_le_of_lt {ns : List Nat} {bound : Nat} (distinct : ns.Nodup) (below : ∀ n ∈ ns, n < bound) :
    ns.length ≤ bound := by
  have inside : ns ⊆ List.range bound := fun n member => List.mem_range.mpr (below n member)
  have few := (List.Nodup.subperm distinct inside).length_le
  rwa [List.length_range] at few

theorem head?_not_mem {m : Addr} (apart : List.Disjoint xs ys) (member : m ∈ xs) : ys.head? ≠ some m :=
  fun first => apart member (List.mem_of_head? first)

theorem getLast?_not_mem {m : Addr} (apart : List.Disjoint xs ys) (member : m ∈ ys) : xs.getLast? ≠ some m :=
  fun last => apart (List.mem_of_getLast? last) member

/-- The first node behind taking `n` out. -/
theorem head?_unlink [DecidableEq Addr] (distinct : (xs ++ n :: ys).Nodup) :
    (if (xs ++ n :: ys).head? = some n then ys.head? else (xs ++ n :: ys).head?) = (xs ++ ys).head? := by
  cases xs with
  | nil => exact if_pos rfl
  | cons first rest =>
    rw [if_neg]
    · rfl
    · rintro ⟨⟩
      exact (List.nodup_cons.mp distinct).1 (List.mem_append_right rest List.mem_cons_self)

/-- The last node behind taking `n` out. -/
theorem getLast?_unlink [DecidableEq Addr] (distinct : (xs ++ n :: ys).Nodup) :
    (if (xs ++ n :: ys).getLast? = some n then xs.getLast? else (xs ++ n :: ys).getLast?) =
      (xs ++ ys).getLast? := by
  rcases List.eq_nil_or_concat ys with rfl | ⟨rest, last, rfl⟩
  · rw [List.getLast?_append_cons, List.append_nil]
    exact if_pos rfl
  · rw [List.concat_eq_append] at distinct ⊢
    rw [← List.cons_append, ← List.append_assoc, ← List.append_assoc, List.getLast?_append_cons,
      List.getLast?_append_cons, if_neg]
    rintro same
    obtain rfl : last = n := by simpa using same
    exact (List.nodup_cons.mp (List.nodup_append'.mp distinct).2.1).1
      (List.mem_append_right rest List.mem_cons_self)

section Writes

variable [DecidableEq Addr]

theorem setNext_self {links : Links Addr} (held : chain n = some links) (next : Option Addr) :
    setNext chain (some n) next n = some { links with next := next } := by
  simp only [setNext, if_true, held, Option.map_some]

theorem setPrev_self {links : Links Addr} (held : chain n = some links) (prev : Option Addr) :
    setPrev chain (some n) prev n = some { links with prev := prev } := by
  simp only [setPrev, if_true, held, Option.map_some]

theorem setNext_other {target next : Option Addr} (other : target ≠ some n) : setNext chain target next n = chain n :=
  if_neg other

theorem setPrev_other {target prev : Option Addr} (other : target ≠ some n) : setPrev chain target prev n = chain n :=
  if_neg other

/-- Writing to one node and writing to another one do not meet. -/
theorem setNext_update {target next : Option Addr} (other : target ≠ some n) (links : Option (Links Addr)) :
    setNext (Function.update chain n links) target next = Function.update (setNext chain target next) n links := by
  funext m
  by_cases here : m = n
  · subst here
    rw [setNext_other other, Function.update_self, Function.update_self]
  · simp only [setNext, Function.update_of_ne here]

/-- Writing to the pointers of a node that is there. -/
theorem written_eq_update {links : Links Addr} (held : chain n = some links) (change : Links Addr → Links Addr) :
    (fun m => if some n = some m then (chain m).map change else chain m) =
      Function.update chain n (some (change links)) := by
  funext place
  by_cases here : place = n
  · subst here
    rw [if_pos rfl, held, Option.map_some, Function.update_self]
  · rw [Function.update_of_ne here, if_neg (by simpa using Ne.symm here)]

theorem setNext_eq_update {links : Links Addr} (held : chain n = some links) (next : Option Addr) :
    setNext chain (some n) next = Function.update chain n (some { links with next := next }) :=
  written_eq_update held _

@[simp] theorem isSome_setNext {target next : Option Addr} :
    (setNext chain target next n).isSome = (chain n).isSome := by
  unfold setNext
  split
  · exact Option.isSome_map
  · rfl

@[simp] theorem isSome_setPrev {target prev : Option Addr} :
    (setPrev chain target prev n).isSome = (chain n).isSome := by
  unfold setPrev
  split
  · exact Option.isSome_map
  · rfl

/-- The last node of a list gets another successor. -/
theorem Linked.setNext (linked : Linked chain before ns after) (distinct : ns.Nodup) (next : Option Addr) :
    Linked (setNext chain ns.getLast? next) before ns next := by
  rcases List.eq_nil_or_concat ns with rfl | ⟨xs, last, rfl⟩
  · trivial
  · rw [List.concat_eq_append] at linked distinct ⊢
    obtain ⟨front, back⟩ := linked_append.mp linked
    rw [List.getLast?_append_cons]
    apply linked_append.mpr
    constructor
    · apply front.frame
      intro m member
      apply setNext_other
      rintro ⟨⟩
      exact List.disjoint_of_nodup_append distinct member List.mem_cons_self
    · exact ⟨setNext_self back.1 next, trivial⟩

/-- The first node of a list gets another predecessor. -/
theorem Linked.setPrev (linked : Linked chain before ns after) (distinct : ns.Nodup) (prev : Option Addr) :
    Linked (setPrev chain ns.head? prev) prev ns after := by
  cases ns with
  | nil => trivial
  | cons n rest =>
    constructor
    · exact setPrev_self linked.1 prev
    · apply linked.2.frame
      intro m member
      apply setPrev_other
      rintro ⟨⟩
      exact (List.nodup_cons.mp distinct).1 member

/-- A node is taken out: its neighbours are linked to each other. -/
theorem Linked.unlink (linked : Linked chain none (xs ++ n :: ys) none) (distinct : (xs ++ n :: ys).Nodup) :
    Linked (LinkedList.setPrev (LinkedList.setNext chain xs.getLast? ys.head?) ys.head? xs.getLast?) none
      (xs ++ ys) none := by
  obtain ⟨front, middle⟩ := linked_append.mp linked
  have back := middle.2
  obtain ⟨distinctFront, distinctBack, apart⟩ := List.nodup_append'.mp distinct
  have apart : List.Disjoint xs ys := fun m first second => apart first (List.mem_cons_of_mem n second)
  apply linked_append.mpr
  rw [Option.or_none, Option.or_none]
  constructor
  · apply (front.setNext distinctFront ys.head?).frame
    exact fun m member => setPrev_other (head?_not_mem apart member)
  · have written := back.setPrev (List.nodup_cons.mp distinctBack).2 xs.getLast?
    apply written.frame
    intro m member
    have kept : LinkedList.setNext chain xs.getLast? ys.head? m = chain m :=
      setNext_other (getLast?_not_mem apart member)
    simp only [LinkedList.setPrev, kept]

/-- A new node in front: the old first node points back to it. -/
theorem Linked.push (linked : Linked chain none ns none) (distinct : ns.Nodup) (new : n ∉ ns) :
    Linked (Function.update (LinkedList.setPrev chain ns.head? (some n)) n (some ⟨none, ns.head?⟩)) none (n :: ns)
      none := by
  constructor
  · rw [Function.update_self, Option.or_none]
  · apply (linked.setPrev distinct (some n)).frame
    intro m member
    exact Function.update_of_ne (ne_of_mem_of_not_mem member new) _ _

/-- A new node behind the last one, which points on to it. -/
theorem Linked.append (linked : Linked chain none ns none) (distinct : ns.Nodup) (new : n ∉ ns) :
    Linked (Function.update (LinkedList.setNext chain ns.getLast? (some n)) n (some ⟨ns.getLast?, none⟩)) none
      (ns ++ [n]) none := by
  apply linked_append.mpr
  constructor
  · apply (linked.setNext distinct (some n)).frame
    intro m member
    exact Function.update_of_ne (ne_of_mem_of_not_mem member new) _ _
  · refine ⟨?_, trivial⟩
    rw [Function.update_self, Option.or_none]
    rfl

end Writes

end LinkedList
