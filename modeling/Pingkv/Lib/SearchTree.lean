import Mathlib.Data.List.Basic
import Mathlib.Logic.Function.Basic
import Mathlib.Logic.Relation
import Mathlib.Order.Lattice

/-! Search trees with many entries in a node. The nodes are kept under numbers;
each entry links to the node of the keys below its own, 0 standing for none. -/

namespace SearchTree

structure Entry (K V : Type) where
  key : K
  left : Nat
  value : V
  deriving DecidableEq

abbrev Node (K V : Type) : Type := List (Entry K V)

abbrev Forest (K V : Type) : Type := Nat → Option (Node K V)

/-- Where the search for a key ends: at an entry with the key, after the last
entry of a node, or at an entry with a greater key and no link. -/
inductive Spot (K V : Type) where
  | held (id : Nat) (before : Node K V) (entry : Entry K V) (after : Node K V)
  | past (id : Nat) (entries : Node K V)
  | gap (id : Nat) (before : Node K V) (entry : Entry K V) (after : Node K V)

namespace Spot

variable {K V : Type}

def id : Spot K V → Nat
  | held id _ _ _ | past id _ | gap id _ _ _ => id

/-- What the search finds. -/
def value : Spot K V → Option V
  | held _ _ entry _ => some entry.value
  | _ => none

/-- The keys of the node behind whose last entry the search ends. -/
def passed : Spot K V → List K
  | past _ entries => entries.map Entry.key
  | _ => []

end Spot

variable {K V : Type}

/-- An entry links to a node. -/
def Entry.Links (entry : Entry K V) (child : Nat) : Prop := child ≠ 0 ∧ entry.left = child

/-- A node links to another one. -/
def Child (tree : Forest K V) (id child : Nat) : Prop :=
  ∃ before entry after, tree id = some (before ++ entry :: after) ∧ entry.Links child

/-- A node lies below another one, or is it. -/
abbrev Sub (tree : Forest K V) : Nat → Nat → Prop := Relation.ReflTransGen (Child tree)

/-- What the entries of a tree name, each of them names alone. -/
def Distinct {L : Type} (tree : Forest K V) (names : Entry K V → L → Prop) : Prop :=
  ∀ label id before entry after id' before' entry' after', tree id = some (before ++ entry :: after) →
    names entry label → tree id' = some (before' ++ entry' :: after') → names entry' label →
    id = id' ∧ before.length = before'.length

/-- Two entries with one name are one entry. -/
theorem Distinct.same {L : Type} {tree : Forest K V} {names : Entry K V → L → Prop} {label : L}
    {id id' : Nat} {before after before' after' : Node K V} {entry entry' : Entry K V}
    (distinct : Distinct tree names) (node : tree id = some (before ++ entry :: after))
    (named : names entry label) (node' : tree id' = some (before' ++ entry' :: after'))
    (named' : names entry' label) : id = id' ∧ before = before' ∧ entry = entry' ∧ after = after' := by
  obtain ⟨rfl, place⟩ := distinct _ _ _ _ _ _ _ _ _ node named node' named'
  have equal := Option.some.inj (node.symm.trans node')
  have split := List.append_inj equal place
  exact ⟨rfl, split.1, List.cons.inj split.2⟩

variable [LinearOrder K]

/-- The search for a key from one node on: an entry with a greater key is left
for the node it links to. -/
inductive Walk (tree : Forest K V) (key : K) : Nat → Spot K V → Prop where
  | held {id : Nat} {before after : Node K V} {entry : Entry K V}
      (node : tree id = some (before ++ entry :: after)) (lower : ∀ other ∈ before, other.key < key)
      (same : entry.key = key) : Walk tree key id (.held id before entry after)
  | past {id : Nat} {entries : Node K V} (node : tree id = some entries)
      (lower : ∀ other ∈ entries, other.key < key) : Walk tree key id (.past id entries)
  | gap {id : Nat} {before after : Node K V} {entry : Entry K V}
      (node : tree id = some (before ++ entry :: after)) (lower : ∀ other ∈ before, other.key < key)
      (upper : key < entry.key) (leaf : entry.left = 0) : Walk tree key id (.gap id before entry after)
  | down {id : Nat} {before after : Node K V} {entry : Entry K V} {spot : Spot K V}
      (node : tree id = some (before ++ entry :: after)) (lower : ∀ other ∈ before, other.key < key)
      (upper : key < entry.key) (child : entry.left ≠ 0) (rest : Walk tree key entry.left spot) :
      Walk tree key id spot

/-- A tree from its root on: every node but the root hangs on one entry, and
holds keys between that entry and the one before it only. -/
structure Ordered (tree : Forest K V) (root : Nat) : Prop where
  rooted : tree root ≠ none
  least : ∀ id, tree id ≠ none → root ≤ id
  bounded : ∃ bound, ∀ id, tree id ≠ none → id < bound
  sorted : ∀ id entries, tree id = some entries → entries.Pairwise fun first second => first.key < second.key
  child : ∀ id child, Child tree id child → id < child ∧ tree child ≠ none
  unique : Distinct tree Entry.Links
  hangs : ∀ id, tree id ≠ none → id ≠ root → ∃ parent, Child tree parent id
  between : ∀ id before entry after child low entries, tree id = some (before ++ entry :: after) →
    entry.Links child → Sub tree child low → tree low = some entries → ∀ other ∈ entries,
    other.key < entry.key ∧ ∀ earlier ∈ before, earlier.key < other.key

section Lists

variable {before after before' after' : Node K V} {entry entry' : Entry K V} {key : K}

omit [LinearOrder K] in
/-- Two places of one list: the same, or one before the other. -/
theorem split_cases (same : before ++ entry :: after = before' ++ entry' :: after') :
    (before = before' ∧ entry = entry' ∧ after = after') ∨
    (∃ mid, before = before' ++ entry' :: mid ∧ after' = mid ++ entry :: after) ∨
    ∃ mid, before' = before ++ entry :: mid ∧ after = mid ++ entry' :: after' := by
  rcases List.append_eq_append_iff.mp same with ⟨mid, whole, rest⟩ | ⟨mid, whole, rest⟩
  · cases mid with
    | nil =>
      simp only [List.nil_append, List.cons.injEq] at rest
      exact .inl ⟨by simpa using whole.symm, rest⟩
    | cons head mid =>
      simp only [List.cons_append, List.cons.injEq] at rest
      exact .inr (.inr ⟨mid, by rw [whole, rest.1], rest.2⟩)
  · cases mid with
    | nil =>
      simp only [List.nil_append, List.cons.injEq] at rest
      exact .inl ⟨by simpa using whole, rest.1.symm, rest.2.symm⟩
    | cons head mid =>
      simp only [List.cons_append, List.cons.injEq] at rest
      exact .inr (.inl ⟨mid, by rw [whole, rest.1], rest.2⟩)

/-- The first entry that is not below a key stands at one place. -/
theorem split_unique (same : before ++ entry :: after = before' ++ entry' :: after')
    (lower : ∀ other ∈ before, other.key < key) (lower' : ∀ other ∈ before', other.key < key)
    (upper : key ≤ entry.key) (upper' : key ≤ entry'.key) :
    before = before' ∧ entry = entry' ∧ after = after' := by
  rcases split_cases same with equal | ⟨mid, longer, _⟩ | ⟨mid, longer, _⟩
  · exact equal
  · exact absurd upper' (not_le.mpr (lower entry' (by simp [longer])))
  · exact absurd upper (not_le.mpr (lower' entry (by simp [longer])))

/-- Either all entries are below a key or there is a first one that is not. -/
theorem split_exists (entries : Node K V) (key : K) : (∀ other ∈ entries, other.key < key) ∨
    ∃ before entry after, entries = before ++ entry :: after ∧ (∀ other ∈ before, other.key < key) ∧
      key ≤ entry.key := by
  induction entries with
  | nil => exact .inl (by simp)
  | cons head rest ih =>
    by_cases below : head.key < key
    · rcases ih with all | ⟨before, entry, after, same, lower, upper⟩
      · exact .inl (List.forall_mem_cons.mpr ⟨below, all⟩)
      · exact .inr ⟨head :: before, entry, after, by rw [same, List.cons_append],
          List.forall_mem_cons.mpr ⟨below, lower⟩, upper⟩
    · exact .inr ⟨[], head, rest, rfl, by simp, not_lt.mp below⟩

end Lists

section Walks

variable {tree : Forest K V} {root id : Nat} {key : K} {spot spot' : Spot K V}

theorem Walk.node (walk : Walk tree key id spot) : tree id ≠ none := by
  cases walk <;> simp [*]

/-- What a search leaves known of the spot it ends at. -/
def Spot.Here (tree : Forest K V) (key : K) : Spot K V → Prop
  | .held id before entry after => tree id = some (before ++ entry :: after) ∧
      (∀ other ∈ before, other.key < key) ∧ entry.key = key
  | .past id entries => tree id = some entries ∧ ∀ other ∈ entries, other.key < key
  | .gap id before entry after => tree id = some (before ++ entry :: after) ∧
      (∀ other ∈ before, other.key < key) ∧ key < entry.key ∧ entry.left = 0

theorem Walk.here (walk : Walk tree key id spot) : spot.Here tree key := by
  induction walk with
  | held node lower same => exact ⟨node, lower, same⟩
  | past node lower => exact ⟨node, lower⟩
  | gap node lower upper leaf => exact ⟨node, lower, upper, leaf⟩
  | down _ _ _ _ _ ih => exact ih

private theorem node_split {before after before' after' : Node K V} {entry entry' : Entry K V}
    (node : tree id = some (before ++ entry :: after)) (lower : ∀ other ∈ before, other.key < key)
    (upper : key ≤ entry.key) (node' : tree id = some (before' ++ entry' :: after'))
    (lower' : ∀ other ∈ before', other.key < key) (upper' : key ≤ entry'.key) :
    before = before' ∧ entry = entry' ∧ after = after' :=
  split_unique (Option.some.inj (node.symm.trans node')) lower lower' upper upper'

private theorem node_past {before after entries : Node K V} {entry : Entry K V}
    (node : tree id = some entries) (lower : ∀ other ∈ entries, other.key < key)
    (node' : tree id = some (before ++ entry :: after)) (upper : key ≤ entry.key) : False := by
  have same := Option.some.inj (node.symm.trans node')
  exact absurd upper (not_le.mpr (lower entry (by simp [same])))

/-- A search ends at one spot. -/
theorem Walk.unique (walk : Walk tree key id spot) (walk' : Walk tree key id spot') : spot = spot' := by
  induction walk with
  | held node lower same =>
    cases walk' with
    | held node' lower' same' =>
      obtain ⟨rfl, rfl, rfl⟩ := node_split node lower same.ge node' lower' same'.ge
      rfl
    | past node' lower' => exact (node_past node' lower' node same.ge).elim
    | gap node' lower' upper' | down node' lower' upper' =>
      obtain ⟨rfl, rfl, rfl⟩ := node_split node lower same.ge node' lower' upper'.le
      exact absurd same upper'.ne'
  | past node lower =>
    cases walk' with
    | past node' => rw [Option.some.inj (node.symm.trans node')]
    | held node' _ same' => exact (node_past node lower node' same'.ge).elim
    | gap node' _ upper' | down node' _ upper' => exact (node_past node lower node' upper'.le).elim
  | gap node lower upper leaf =>
    cases walk' with
    | held node' lower' same' =>
      obtain ⟨rfl, rfl, rfl⟩ := node_split node lower upper.le node' lower' same'.ge
      exact absurd same' upper.ne'
    | past node' lower' => exact (node_past node' lower' node upper.le).elim
    | gap node' lower' upper' =>
      obtain ⟨rfl, rfl, rfl⟩ := node_split node lower upper.le node' lower' upper'.le
      rfl
    | down node' lower' upper' child' =>
      obtain ⟨rfl, rfl, rfl⟩ := node_split node lower upper.le node' lower' upper'.le
      exact absurd leaf child'
  | down node lower upper child rest ih =>
    cases walk' with
    | held node' lower' same' =>
      obtain ⟨rfl, rfl, rfl⟩ := node_split node lower upper.le node' lower' same'.ge
      exact absurd same' upper.ne'
    | past node' lower' => exact (node_past node' lower' node upper.le).elim
    | gap node' lower' upper' leaf' =>
      obtain ⟨rfl, rfl, rfl⟩ := node_split node lower upper.le node' lower' upper'.le
      exact absurd leaf' child
    | down node' lower' upper' child' rest' =>
      obtain ⟨rfl, rfl, rfl⟩ := node_split node lower upper.le node' lower' upper'.le
      exact ih rest'

/-- Every search in a tree ends: the numbers of the nodes it passes grow. -/
theorem Ordered.walk (ordered : Ordered tree root) (key : K) (id : Nat) (present : tree id ≠ none) :
    ∃ spot, Walk tree key id spot := by
  obtain ⟨bound, bounded⟩ := ordered.bounded
  induction gap : bound - id using Nat.strongRecOn generalizing id with
  | ind left ih =>
    obtain ⟨entries, node⟩ := Option.ne_none_iff_exists'.mp present
    rcases split_exists entries key with lower | ⟨before, entry, after, rfl, lower, upper⟩
    · exact ⟨_, .past node lower⟩
    · rcases upper.eq_or_lt with same | upper
      · exact ⟨_, .held node lower same.symm⟩
      · by_cases leaf : entry.left = 0
        · exact ⟨_, .gap node lower upper leaf⟩
        · obtain ⟨larger, linked⟩ := ordered.child id _ ⟨before, entry, after, node, leaf, rfl⟩
          have below := bounded _ linked
          obtain ⟨spot, rest⟩ := ih (bound - entry.left) (by omega) entry.left linked rfl
          exact ⟨spot, .down node lower upper leaf rest⟩

/-- The nodes the search for a key comes through. -/
inductive Visits (tree : Forest K V) (key : K) (root : Nat) : Nat → Prop where
  | start : Visits tree key root root
  | down {id : Nat} {before after : Node K V} {entry : Entry K V} (visits : Visits tree key root id)
      (node : tree id = some (before ++ entry :: after)) (lower : ∀ other ∈ before, other.key < key)
      (upper : key < entry.key) (child : entry.left ≠ 0) : Visits tree key root entry.left

theorem Visits.trans {mid : Nat} (visits : Visits tree key root mid) (visits' : Visits tree key mid id) :
    Visits tree key root id := by
  induction visits' with
  | start => exact visits
  | down _ node lower upper child ih => exact .down ih node lower upper child

/-- A search comes to a node at once, or below an entry of the node it starts from. -/
theorem Visits.first (visits : Visits tree key root id) : id = root ∨ ∃ before entry after,
    tree root = some (before ++ entry :: after) ∧ key < entry.key ∧ entry.left ≠ 0 ∧ Visits tree key entry.left id := by
  induction visits with
  | start => exact .inl rfl
  | down _ node lower upper child ih =>
    rcases ih with rfl | ⟨before, entry, after, top, above, linked, below⟩
    · exact .inr ⟨_, _, _, node, upper, child, .start⟩
    · exact .inr ⟨before, entry, after, top, above, linked, .down below node lower upper child⟩

theorem Walk.visits (walk : Walk tree key id spot) (visits : Visits tree key root id) :
    Visits tree key root spot.id := by
  induction walk with
  | held | past | gap => exact visits
  | down node lower upper child rest ih => exact ih (.down visits node lower upper child)

theorem Ordered.root_not_child (ordered : Ordered tree root) : ¬ Child tree id root := by
  intro link
  have present : tree id ≠ none := by
    obtain ⟨before, entry, after, node, _⟩ := link
    simp [node]
  have least := ordered.least id present
  have larger := (ordered.child id root link).1
  omega

/-- A search that comes to a node comes through all nodes above it. -/
theorem Visits.above {top : Nat} (ordered : Ordered tree root) (sub : Sub tree top id)
    (visits : Visits tree key root id) : Visits tree key root top := by
  induction sub with
  | refl => exact visits
  | tail _ link ih =>
    cases visits with
    | start => exact absurd link ordered.root_not_child
    | down visits node lower upper child =>
      obtain ⟨_, _, _, node', names⟩ := link
      obtain ⟨rfl, _⟩ := ordered.unique.same node ⟨child, rfl⟩ node' names
      exact ih visits

/-- A key searched for below an entry lies under the key of that entry and
above the keys before it. -/
theorem Visits.between {top child : Nat} {before after : Node K V} {entry : Entry K V}
    (ordered : Ordered tree root) (visits : Visits tree key root id)
    (node : tree top = some (before ++ entry :: after)) (names : entry.Links child)
    (sub : Sub tree child id) : key < entry.key ∧ ∀ earlier ∈ before, earlier.key < key := by
  cases visits.above ordered sub with
  | start => exact absurd ⟨before, entry, after, node, names⟩ ordered.root_not_child
  | down visits node' lower upper child' =>
    obtain ⟨rfl, rfl, rfl, rfl⟩ := ordered.unique.same node names node' ⟨child', rfl⟩
    exact ⟨upper, lower⟩

end Walks

end SearchTree
