import Pingkv.Lib.SearchTree

/-! The three ways a search tree changes: an entry is appended to a node, an
empty node is hung under an entry, the value of an entry is set. Each keeps the
tree ordered and the search for every other key as it was. -/

namespace SearchTree

variable {K V : Type}

/-- The tree with one more entry at the end of a node. -/
def append (tree : Forest K V) (id : Nat) (entry : Entry K V) : Forest K V :=
  Function.update tree id ((tree id).map fun entries => entries ++ [entry])

/-- The tree with one entry of a node replaced. -/
def replace (tree : Forest K V) (id : Nat) (before : Node K V) (entry : Entry K V) (after : Node K V) :
    Forest K V := Function.update tree id (some (before ++ entry :: after))

/-- The tree with an empty node under a new number. -/
def plant (tree : Forest K V) (child : Nat) : Forest K V := Function.update tree child (some [])

/-- The tree with an empty node hung under an entry that had none. -/
def grow (tree : Forest K V) (id : Nat) (before : Node K V) (entry : Entry K V) (after : Node K V)
    (child : Nat) : Forest K V := replace (plant tree child) id before { entry with left := child } after

/-- A tree after a key was put in where its search ends: nothing changes where an
entry has the value already, and a new entry goes behind the last one of a node,
of a new node where the search stops above a missing one. -/
inductive Put (tree : Forest K V) (key : K) (value : V) : Spot K V → Forest K V → Prop where
  | held {id : Nat} {before after : Node K V} {entry : Entry K V} (same : entry.value = value) :
      Put tree key value (.held id before entry after) tree
  | past {id : Nat} {entries : Node K V} :
      Put tree key value (.past id entries) (append tree id ⟨key, 0, value⟩)
  | gap {id child : Nat} {before after : Node K V} {entry : Entry K V} (fresh : tree child = none)
      (larger : id < child) : Put tree key value (.gap id before entry after)
        (append (grow tree id before entry after child) child ⟨key, 0, value⟩)

section Nodes

variable {tree : Forest K V} {id place child : Nat} {entries before after earlier later : Node K V}
  {entry entry' other : Entry K V}

theorem append_same (node : tree id = some entries) : append tree id entry id = some (entries ++ [entry]) := by
  simp [append, node]

theorem append_ne (different : place ≠ id) : append tree id entry place = tree place :=
  Function.update_of_ne different _ _

theorem replace_same : replace tree id before entry after id = some (before ++ entry :: after) :=
  Function.update_self _ _ _

theorem replace_ne (different : place ≠ id) : replace tree id before entry after place = tree place :=
  Function.update_of_ne different _ _

theorem plant_same : plant tree child child = some [] := Function.update_self _ _ _

theorem plant_ne (different : place ≠ child) : plant tree child place = tree place :=
  Function.update_of_ne different _ _

theorem plant_node (fresh : tree child = none) (node : tree place = some entries) :
    plant tree child place = some entries := by
  rw [plant_ne (fun same => by rw [same, fresh] at node; cases node), node]

theorem of_plant_split (split : plant tree child place = some (earlier ++ other :: later)) :
    tree place = some (earlier ++ other :: later) := by
  by_cases same : place = child
  · rw [same, plant_same] at split
    simp at split
  · rwa [plant_ne same] at split

/-- An appended entry comes after every entry there was. -/
theorem append_split (id : Nat) (entry : Entry K V) (node : tree place = some (earlier ++ other :: later)) :
    ∃ later', append tree id entry place = some (earlier ++ other :: later') := by
  by_cases same : place = id
  · subst same
    exact ⟨later ++ [entry], by rw [append_same node]; simp⟩
  · exact ⟨later, by rw [append_ne same, node]⟩

/-- The places of a tree with an appended entry: the new one and the old ones. -/
theorem of_append_split (node : tree id = some entries)
    (split : append tree id entry place = some (earlier ++ other :: later)) :
    (place = id ∧ earlier = entries ∧ other = entry) ∨
    ∃ later', tree place = some (earlier ++ other :: later') := by
  by_cases same : place = id
  · subst same
    rw [append_same node, Option.some.injEq] at split
    rcases split_cases split with ⟨rfl, rfl, _⟩ | ⟨mid, whole, _⟩ | ⟨mid, _, short⟩
    · exact .inl ⟨rfl, rfl, rfl⟩
    · exact .inr ⟨mid, by rw [node, whole]⟩
    · cases mid <;> cases short
  · rw [append_ne same] at split
    exact .inr ⟨later, split⟩

/-- The places of a tree with one entry replaced: the entry itself, the others
with their keys before them as they were. -/
theorem replace_split (entry' : Entry K V) (node : tree id = some (before ++ entry :: after))
    (key : entry'.key = entry.key) (split : tree place = some (earlier ++ other :: later)) :
    (place = id ∧ earlier = before ∧ other = entry) ∨
    ∃ earlier' later', replace tree id before entry' after place = some (earlier' ++ other :: later') ∧
      earlier'.map Entry.key = earlier.map Entry.key := by
  by_cases same : place = id
  · subst same
    rw [node, Option.some.injEq] at split
    rcases split_cases split with ⟨rfl, rfl, _⟩ | ⟨mid, rfl, _⟩ | ⟨mid, rfl, rfl⟩
    · exact .inl ⟨rfl, rfl, rfl⟩
    · exact .inr ⟨earlier, mid ++ entry' :: after, by rw [replace_same]; simp, rfl⟩
    · exact .inr ⟨before ++ entry' :: mid, later, by rw [replace_same]; simp, by simp [key]⟩
  · exact .inr ⟨earlier, later, by rw [replace_ne same, split], rfl⟩

theorem of_replace_split (node : tree id = some (before ++ entry :: after))
    (split : replace tree id before entry' after place = some (earlier ++ other :: later))
    (key : entry'.key = entry.key) :
    (place = id ∧ earlier = before ∧ other = entry') ∨
    ∃ earlier' later', tree place = some (earlier' ++ other :: later') ∧
      earlier'.map Entry.key = earlier.map Entry.key := by
  have back : replace (replace tree id before entry' after) id before entry after = tree := by
    simp [replace, ← node]
  have found := replace_split entry replace_same key.symm split
  rwa [back] at found

theorem replace_entries (entry' : Entry K V) (node : tree id = some (before ++ entry :: after))
    (key : entry'.key = entry.key) (present : tree place = some entries) : ∃ entries',
      replace tree id before entry' after place = some entries' ∧
        entries'.map Entry.key = entries.map Entry.key := by
  by_cases same : place = id
  · subst same
    rw [node, Option.some.injEq] at present
    exact ⟨_, replace_same, by simp [← present, key]⟩
  · exact ⟨entries, by rw [replace_ne same, present], rfl⟩

theorem of_replace_entries (node : tree id = some (before ++ entry :: after))
    (present : replace tree id before entry' after place = some entries) (key : entry'.key = entry.key) : ∃ entries',
      tree place = some entries' ∧ entries.map Entry.key = entries'.map Entry.key := by
  by_cases same : place = id
  · subst same
    rw [replace_same, Option.some.injEq] at present
    exact ⟨_, node, by simp [← present, key]⟩
  · rw [replace_ne same] at present
    exact ⟨entries, present, rfl⟩

theorem replace_present (node : tree id = some (before ++ entry :: after)) :
    replace tree id before entry' after place ≠ none ↔ tree place ≠ none := by
  by_cases same : place = id
  · subst same
    simp [replace_same, node]
  · rw [replace_ne same]

theorem append_present (node : tree id = some entries) :
    append tree id entry place ≠ none ↔ tree place ≠ none := by
  by_cases same : place = id
  · subst same
    simp [append_same node, node]
  · rw [append_ne same]

theorem grow_present (node : tree id = some (before ++ entry :: after)) (fresh : tree child = none) :
    grow tree id before entry after child place ≠ none ↔ tree place ≠ none ∨ place = child := by
  refine (replace_present (plant_node fresh node)).trans ?_
  by_cases same : place = child
  · simp [same, plant_same]
  · simp [same, plant_ne same]

end Nodes

variable [LinearOrder K]

section Walks

variable {tree : Forest K V} {id child start : Nat} {entries before after : Node K V}
  {entry entry' : Entry K V} {key : K} {spot : Spot K V}

omit [LinearOrder K] in
/-- What holds of all keys of a node holds of those of a node with the same keys. -/
private theorem all_of_keys (holds : K → Prop) {first second : Node K V}
    (keys : first.map Entry.key = second.map Entry.key) (all : ∀ other ∈ second, holds other.key) :
    ∀ other ∈ first, holds other.key := by
  intro other member
  have listed : other.key ∈ second.map Entry.key := keys ▸ List.mem_map_of_mem member
  obtain ⟨twin, member', same⟩ := List.mem_map.mp listed
  rw [← same]
  exact all twin member'

private theorem lower_of_keys {first second : Node K V} (keys : first.map Entry.key = second.map Entry.key)
    (lower : ∀ other ∈ second, other.key < key) : ∀ other ∈ first, other.key < key :=
  all_of_keys (· < key) keys lower

/-- After an entry was appended, other keys are found as before. -/
theorem append_walk (entry : Entry K V) (walk : Walk tree key start spot) (node : tree id = some entries)
    (leaf : entry.left = 0) (other : key ≠ entry.key) :
    ∃ spot', Walk (append tree id entry) key start spot' ∧ spot'.value = spot.value := by
  induction walk with
  | held split lower same =>
    obtain ⟨_, split'⟩ := append_split id entry split
    exact ⟨_, .held split' lower same, rfl⟩
  | @past place found split lower =>
    by_cases here : place = id
    · subst here
      rw [node, Option.some.injEq] at split
      subst split
      rcases lt_or_gt_of_ne other with less | more
      · exact ⟨_, .gap (append_same node) lower less leaf, rfl⟩
      · refine ⟨_, .past (append_same node) ?_, rfl⟩
        simpa [or_imp, forall_and] using ⟨lower, more⟩
    · exact ⟨_, .past (by rw [append_ne here, split]) lower, rfl⟩
  | gap split lower upper leaf' =>
    obtain ⟨_, split'⟩ := append_split id entry split
    exact ⟨_, .gap split' lower upper leaf', rfl⟩
  | down split lower upper link rest ih =>
    obtain ⟨_, split'⟩ := append_split id entry split
    obtain ⟨spot', rest', same⟩ := ih
    exact ⟨spot', .down split' lower upper link rest', same⟩

/-- The appended entry is found where the search for its key ended before. -/
theorem append_walk_self (entry : Entry K V) (walk : Walk tree entry.key start (.past id entries)) :
    Walk (append tree id entry) entry.key start (.held id entries entry []) := by
  generalize ends : Spot.past id entries = spot at walk
  induction walk with
  | held | gap => cases ends
  | past node lower =>
    cases ends
    exact .held (append_same node) lower rfl
  | down node lower upper link rest ih =>
    obtain ⟨_, split⟩ := append_split id entry node
    exact .down split lower upper link (ih ends)

/-- An empty node under a new number is on no search. -/
theorem plant_walk (walk : Walk tree key start spot) (fresh : tree child = none) :
    Walk (plant tree child) key start spot := by
  induction walk with
  | held node lower same => exact .held (plant_node fresh node) lower same
  | past node lower => exact .past (plant_node fresh node) lower
  | gap node lower upper leaf => exact .gap (plant_node fresh node) lower upper leaf
  | down node lower upper link rest ih => exact .down (plant_node fresh node) lower upper link ih

/-- After an entry was replaced under its key, every key is found as before: its
link may have been set to an empty node, its value for the searches that do not
end there. -/
theorem replace_walk (walk : Walk tree key start spot) (node : tree id = some (before ++ entry :: after))
    (same : entry'.key = entry.key) (value : entry.key = key → entry'.value = entry.value)
    (link : entry'.left = entry.left ∨ entry.left = 0 ∧ entry'.left ≠ 0 ∧ tree entry'.left = some []) :
    ∃ spot', Walk (replace tree id before entry' after) key start spot' ∧
      spot'.value = spot.value ∧ spot'.passed = spot.passed := by
  have apart (empty : tree entry'.left = some []) : entry'.left ≠ id := by
    intro equal
    rw [equal, node] at empty
    simp at empty
  induction walk with
  | held split lower equal =>
    rcases replace_split entry' node same split with ⟨rfl, rfl, rfl⟩ | ⟨_, _, split', keys⟩
    · exact ⟨_, .held replace_same lower (same.trans equal), congrArg some (value equal), rfl⟩
    · exact ⟨_, .held split' (lower_of_keys keys lower) equal, rfl, rfl⟩
  | past split lower =>
    obtain ⟨entries', split', keys⟩ := replace_entries entry' node same split
    exact ⟨_, .past split' (lower_of_keys keys lower), rfl, keys⟩
  | gap split lower upper leaf =>
    rcases replace_split entry' node same split with ⟨rfl, rfl, rfl⟩ | ⟨_, _, split', keys⟩
    · rcases link with kept | ⟨_, nonzero, empty⟩
      · exact ⟨_, .gap replace_same lower (same ▸ upper) (kept.trans leaf), rfl, rfl⟩
      · exact ⟨_, .down replace_same lower (same ▸ upper) nonzero
          (.past ((replace_ne (apart empty)).trans empty) (by simp)), rfl, rfl⟩
    · exact ⟨_, .gap split' (lower_of_keys keys lower) upper leaf, rfl, rfl⟩
  | down split lower upper child rest ih =>
    obtain ⟨spot', rest', found⟩ := ih
    rcases replace_split entry' node same split with ⟨rfl, rfl, rfl⟩ | ⟨_, _, split', keys⟩
    · rcases link with kept | ⟨leaf, _⟩
      · exact ⟨spot', .down replace_same lower (same ▸ upper) (kept ▸ child) (kept ▸ rest'), found⟩
      · exact absurd leaf child
    · exact ⟨spot', .down split' (lower_of_keys keys lower) upper child rest', found⟩

/-- A search that ended at the replaced entry comes to its node as before. -/
theorem replace_walk_to {spot' : Spot K V} (entry : Entry K V) (walk : Walk tree key start spot)
    (ends : spot = .held id before entry after ∨ spot = .gap id before entry after)
    (same : entry'.key = entry.key) (last : Walk (replace tree id before entry' after) key id spot') :
    Walk (replace tree id before entry' after) key start spot' := by
  induction walk with
  | held node lower equal =>
    rcases ends with ends | ends <;> cases ends
    exact last
  | past => rcases ends with ends | ends <;> cases ends
  | gap node lower upper leaf =>
    rcases ends with ends | ends <;> cases ends
    exact last
  | down split lower upper child rest ih =>
    have rest' := ih ends
    have node : tree id = some (before ++ entry :: after) := by
      rcases ends with rfl | rfl <;> exact rest.here.1
    rcases replace_split entry' node same split with ⟨rfl, rfl, rfl⟩ | ⟨_, _, split', keys⟩
    · rcases ends with rfl | rfl
      · exact absurd rest.here.2.2 upper.ne'
      · exact absurd rest.here.2.2.2 child
    · exact .down split' (lower_of_keys keys lower) upper child rest'

/-- After an empty node was hung under an entry, every key is found as before. -/
theorem grow_walk (walk : Walk tree key start spot) (node : tree id = some (before ++ entry :: after))
    (leaf : entry.left = 0) (fresh : tree child = none) (nonzero : child ≠ 0) :
    ∃ spot', Walk (grow tree id before entry after child) key start spot' ∧
      spot'.value = spot.value ∧ spot'.passed = spot.passed :=
  replace_walk (plant_walk walk fresh) (plant_node fresh node) rfl (fun _ => rfl)
    (.inr ⟨leaf, nonzero, plant_same⟩)

/-- The search that ended above the new node now ends in it. -/
theorem grow_walk_self (walk : Walk tree key start (.gap id before entry after)) (fresh : tree child = none)
    (nonzero : child ≠ 0) : Walk (grow tree id before entry after child) key start (.past child []) := by
  obtain ⟨node, lower, upper, leaf⟩ := walk.here
  have apart : child ≠ id := by
    intro same
    rw [same, node] at fresh
    cases fresh
  refine replace_walk_to entry (plant_walk walk fresh) (.inr rfl) rfl ?_
  exact .down replace_same lower upper nonzero (.past ((replace_ne apart).trans plant_same) (by simp))

/-- After the value of an entry was set, every other key is found as before. -/
theorem value_walk (value : V) (walk : Walk tree key start spot)
    (node : tree id = some (before ++ entry :: after)) (other : entry.key ≠ key) :
    ∃ spot', Walk (replace tree id before { entry with value := value } after) key start spot' ∧
      spot'.value = spot.value ∧ spot'.passed = spot.passed :=
  replace_walk walk node rfl (fun same => absurd same other) (.inl rfl)

/-- A search that ended at the entry ends there still. -/
theorem value_walk_self (value : V) (walk : Walk tree key start (.held id before entry after)) :
    Walk (replace tree id before { entry with value := value } after) key start
      (.held id before { entry with value := value } after) :=
  replace_walk_to entry walk (.inl rfl) rfl (.held replace_same walk.here.2.1 walk.here.2.2)

end Walks

section Order

variable {tree : Forest K V} {root id child place low : Nat} {entries before after : Node K V}
  {entry entry' : Entry K V} {L : Type} {names : Entry K V → L → Prop}

omit [LinearOrder K] in
/-- An appended entry whose names are new keeps names distinct. -/
theorem append_distinct (distinct : Distinct tree names) (node : tree id = some entries)
    (new : ∀ label, names entry label → ∀ place earlier other later,
      tree place = some (earlier ++ other :: later) → ¬ names other label) :
    Distinct (append tree id entry) names := by
  intro label place earlier other later place' earlier' other' later' split named split' named'
  rcases of_append_split node split with ⟨rfl, rfl, rfl⟩ | ⟨_, old⟩ <;>
    rcases of_append_split node split' with ⟨rfl, rfl, rfl⟩ | ⟨_, old'⟩
  · exact ⟨rfl, rfl⟩
  · exact absurd named' (new label named _ _ _ _ old')
  · exact absurd named (new label named' _ _ _ _ old)
  · exact distinct label _ _ _ _ _ _ _ _ old named old' named'

omit [LinearOrder K] in
/-- A replaced entry that names what it named, or what no entry named, keeps names distinct. -/
theorem replace_distinct (distinct : Distinct tree names) (node : tree id = some (before ++ entry :: after))
    (same : entry'.key = entry.key)
    (new : ∀ label, names entry' label → names entry label ∨ ∀ place earlier other later,
      tree place = some (earlier ++ other :: later) → ¬ names other label) :
    Distinct (replace tree id before entry' after) names := by
  have own : ∀ label place earlier other later, names entry' label →
      tree place = some (earlier ++ other :: later) → names other label →
      id = place ∧ before.length = earlier.length := by
    intro label place earlier other later named split named'
    rcases new label named with old | none
    · exact distinct label _ _ _ _ _ _ _ _ node old split named'
    · exact absurd named' (none _ _ _ _ split)
  intro label place earlier other later place' earlier' other' later' split named split' named'
  rcases of_replace_split node split same with ⟨rfl, rfl, rfl⟩ | ⟨_, _, old, keys⟩ <;>
    rcases of_replace_split node split' same with ⟨rfl, rfl, rfl⟩ | ⟨_, _, old', keys'⟩
  · exact ⟨rfl, rfl⟩
  · obtain ⟨rfl, place⟩ := own label _ _ _ _ named old' named'
    exact ⟨rfl, place.trans (by simpa using congrArg List.length keys')⟩
  · obtain ⟨rfl, place⟩ := own label _ _ _ _ named' old named
    exact ⟨rfl, (place.trans (by simpa using congrArg List.length keys)).symm⟩
  · obtain ⟨rfl, place⟩ := distinct label _ _ _ _ _ _ _ _ old named old' named'
    have first := congrArg List.length keys
    have second := congrArg List.length keys'
    simp only [List.length_map] at first second
    exact ⟨rfl, by omega⟩

omit [LinearOrder K] in
theorem plant_distinct (distinct : Distinct tree names) : Distinct (plant tree child) names := by
  intro label place earlier other later place' earlier' other' later' split named split' named'
  exact distinct label _ _ _ _ _ _ _ _ (of_plant_split split) named (of_plant_split split') named'

/-- A root without entries is a tree. -/
theorem sole_ordered (root : Nat) : Ordered (plant (fun _ => none : Forest K V) root) root := by
  have only {place : Nat} (present : plant (fun _ => none : Forest K V) root place ≠ none) : place = root := by
    by_contra different
    exact present (plant_ne different)
  have bare {place : Nat} {earlier later : Node K V} {other : Entry K V} :
      plant (fun _ => none : Forest K V) root place ≠ some (earlier ++ other :: later) := by
    intro split
    cases of_plant_split split
  constructor
  case rooted => simp [plant_same]
  case least => exact fun place present => Nat.le_of_eq (only present).symm
  case bounded => exact ⟨root + 1, fun place present => by rw [only present]; exact Nat.lt_succ_self root⟩
  case sorted =>
    intro place found present
    obtain rfl := only (show plant (fun _ => none : Forest K V) root place ≠ none by simp [present])
    rw [plant_same, Option.some.injEq] at present
    rw [← present]
    exact .nil
  case child => exact fun place child ⟨_, _, _, split, _⟩ => absurd split bare
  case unique => exact fun _ _ _ _ _ _ _ _ _ split => absurd split bare
  case hangs => exact fun place present different => absurd (only present) different
  case between => exact fun _ _ _ _ _ _ _ split => absurd split bare

omit [LinearOrder K] in
theorem append_child (node : tree id = some entries) (leaf : entry.left = 0) :
    Child (append tree id entry) = Child tree := by
  funext place child
  apply propext
  constructor
  · rintro ⟨earlier, other, later, split, nonzero, link⟩
    rcases of_append_split node split with ⟨_, _, rfl⟩ | ⟨_, old⟩
    · exact absurd (link.symm.trans leaf) nonzero
    · exact ⟨_, _, _, old, nonzero, link⟩
  · rintro ⟨earlier, other, later, split, link⟩
    obtain ⟨_, split'⟩ := append_split id entry split
    exact ⟨_, _, _, split', link⟩

theorem append_ordered (ordered : Ordered tree root) (node : tree id = some entries)
    (lower : ∀ other ∈ entries, other.key < entry.key) (visits : Visits tree entry.key root id)
    (leaf : entry.left = 0) : Ordered (append tree id entry) root := by
  constructor
  case rooted => exact (append_present node).mpr ordered.rooted
  case least => exact fun place present => ordered.least place ((append_present node).mp present)
  case bounded =>
    obtain ⟨bound, bounded⟩ := ordered.bounded
    exact ⟨bound, fun place present => bounded place ((append_present node).mp present)⟩
  case sorted =>
    intro place found present
    by_cases same : place = id
    · subst same
      rw [append_same node, Option.some.injEq] at present
      rw [← present, List.pairwise_append]
      exact ⟨ordered.sorted place entries node, by simp, by simpa using lower⟩
    · rw [append_ne same] at present
      exact ordered.sorted place found present
  case child =>
    intro place child link
    rw [append_child node leaf] at link
    obtain ⟨larger, present⟩ := ordered.child place child link
    exact ⟨larger, (append_present node).mpr present⟩
  case unique => exact append_distinct ordered.unique node fun label named => absurd (named.2.symm.trans leaf) named.1
  case hangs =>
    intro place present other
    rw [append_child node leaf]
    exact ordered.hangs place ((append_present node).mp present) other
  case between =>
    intro place earlier other later child low found split names sub present
    rw [Sub, append_child node leaf] at sub
    rcases of_append_split node split with ⟨_, _, rfl⟩ | ⟨_, old⟩
    · exact absurd (names.2.symm.trans leaf) names.1
    · by_cases same : low = id
      · subst same
        rw [append_same node, Option.some.injEq] at present
        subst present
        intro last member
        rcases List.mem_append.mp member with member | member
        · exact ordered.between _ _ _ _ _ _ _ old names sub node last member
        · rw [List.mem_singleton.mp member]
          exact visits.between ordered old names sub
      · rw [append_ne same] at present
        exact ordered.between _ _ _ _ _ _ _ old names sub present

/-- The bounds of a subtree, for nodes with the same keys. -/
private theorem Ordered.between_keys {earlier earlier' later entries' : Node K V} (other : Entry K V)
    (ordered : Ordered tree root) (split : tree place = some (earlier ++ other :: later))
    (names : other.Links child) (sub : Sub tree child low) (present : tree low = some entries)
    (keys : earlier.map Entry.key = earlier'.map Entry.key)
    (keys' : entries'.map Entry.key = entries.map Entry.key) :
    ∀ last ∈ entries', last.key < other.key ∧ ∀ first ∈ earlier', first.key < last.key := by
  refine all_of_keys (fun key => key < other.key ∧ ∀ first ∈ earlier', first.key < key) keys' ?_
  intro last member
  obtain ⟨upper, lower⟩ := ordered.between _ _ _ _ _ _ _ split names sub present last member
  exact ⟨upper, lower_of_keys keys.symm lower⟩

/-- Nodes with the same keys are sorted alike. -/
private theorem sorted_of_keys {first second : Node K V} (keys : first.map Entry.key = second.map Entry.key)
    (sorted : second.Pairwise fun earlier later => earlier.key < later.key) :
    first.Pairwise fun earlier later => earlier.key < later.key := by
  rw [← List.pairwise_map (f := Entry.key) (R := (· < ·))] at sorted ⊢
  rwa [keys]

omit [LinearOrder K] in
theorem value_child (value : V) (node : tree id = some (before ++ entry :: after)) :
    Child (replace tree id before { entry with value := value } after) = Child tree := by
  funext place child
  apply propext
  constructor
  · rintro ⟨earlier, other, later, split, link⟩
    rcases of_replace_split node split rfl with ⟨rfl, rfl, rfl⟩ | ⟨_, _, old, _⟩
    · exact ⟨_, _, _, node, link⟩
    · exact ⟨_, _, _, old, link⟩
  · rintro ⟨earlier, other, later, split, link⟩
    rcases replace_split { entry with value := value } node rfl split with
      ⟨rfl, rfl, rfl⟩ | ⟨_, _, new, _⟩
    · exact ⟨_, _, _, replace_same, link⟩
    · exact ⟨_, _, _, new, link⟩

theorem value_ordered (value : V) (ordered : Ordered tree root)
    (node : tree id = some (before ++ entry :: after)) :
    Ordered (replace tree id before { entry with value := value } after) root := by
  constructor
  case rooted => exact (replace_present node).mpr ordered.rooted
  case least => exact fun place present => ordered.least place ((replace_present node).mp present)
  case bounded =>
    obtain ⟨bound, bounded⟩ := ordered.bounded
    exact ⟨bound, fun place present => bounded place ((replace_present node).mp present)⟩
  case sorted =>
    intro place found present
    obtain ⟨old, present', keys⟩ := of_replace_entries node present rfl
    exact sorted_of_keys keys (ordered.sorted place old present')
  case child =>
    intro place child link
    rw [value_child value node] at link
    obtain ⟨larger, present⟩ := ordered.child place child link
    exact ⟨larger, (replace_present node).mpr present⟩
  case unique => exact replace_distinct ordered.unique node rfl fun _ named => .inl named
  case hangs =>
    intro place present other
    rw [value_child value node]
    exact ordered.hangs place ((replace_present node).mp present) other
  case between =>
    intro place earlier other later child low found split names sub present
    rw [Sub, value_child value node] at sub
    obtain ⟨old, present', keys⟩ := of_replace_entries node present rfl
    rcases of_replace_split node split rfl with ⟨rfl, rfl, rfl⟩ | ⟨_, _, split', keys'⟩
    · exact ordered.between_keys entry node names sub present' rfl keys
    · exact ordered.between_keys other split' names sub present' keys' keys

omit [LinearOrder K] in
/-- The entries of a tree with a new node: the one it hangs on and the old ones. -/
theorem of_grow_split {earlier later : Node K V} {other : Entry K V}
    (node : tree id = some (before ++ entry :: after)) (fresh : tree child = none)
    (split : grow tree id before entry after child place = some (earlier ++ other :: later)) :
    (place = id ∧ earlier = before ∧ other = { entry with left := child }) ∨
    ∃ earlier' later', tree place = some (earlier' ++ other :: later') ∧
      earlier'.map Entry.key = earlier.map Entry.key := by
  rcases of_replace_split (plant_node fresh node) split rfl with
    here | ⟨earlier', later', old, keys⟩
  · exact .inl here
  · exact .inr ⟨earlier', later', of_plant_split old, keys⟩

omit [LinearOrder K] in
theorem grow_child (node : tree id = some (before ++ entry :: after)) (leaf : entry.left = 0)
    (fresh : tree child = none) (nonzero : child ≠ 0) {low : Nat} :
    Child (grow tree id before entry after child) place low ↔
      Child tree place low ∨ place = id ∧ low = child := by
  constructor
  · rintro ⟨earlier, other, later, split, link⟩
    rcases of_grow_split node fresh split with ⟨rfl, rfl, rfl⟩ | ⟨_, _, old, _⟩
    · exact .inr ⟨rfl, link.2.symm⟩
    · exact .inl ⟨_, _, _, old, link⟩
  · rintro (⟨earlier, other, later, split, link⟩ | ⟨rfl, rfl⟩)
    · rcases replace_split { entry with left := child } (plant_node fresh node) rfl
        (plant_node fresh split) with ⟨rfl, rfl, rfl⟩ | ⟨_, _, new, _⟩
      · exact absurd (link.2.symm.trans leaf) link.1
      · exact ⟨_, _, _, new, link⟩
    · exact ⟨_, _, _, replace_same, nonzero, rfl⟩

omit [LinearOrder K] in
/-- Below the new node there is nothing; elsewhere the nodes lie as before. -/
private theorem grow_sub {top : Nat} (node : tree id = some (before ++ entry :: after)) (leaf : entry.left = 0)
    (fresh : tree child = none) (nonzero : child ≠ 0)
    (sub : Sub (grow tree id before entry after child) top low) : low = child ∨ Sub tree top low := by
  induction sub with
  | refl => exact .inr .refl
  | tail _ link ih =>
    rcases (grow_child node leaf fresh nonzero).mp link with old | ⟨_, new⟩
    · rcases ih with rfl | sub
      · obtain ⟨earlier, other, later, split, _⟩ := old
        rw [fresh] at split
        cases split
      · exact .inr (sub.tail old)
    · exact .inl new

theorem grow_ordered (ordered : Ordered tree root) (node : tree id = some (before ++ entry :: after))
    (leaf : entry.left = 0) (fresh : tree child = none) (larger : id < child) :
    Ordered (grow tree id before entry after child) root := by
  have nonzero : child ≠ 0 := by omega
  have kept {place : Nat} : grow tree id before entry after child place ≠ none ↔ tree place ≠ none ∨ place = child :=
    grow_present node fresh
  have empty : grow tree id before entry after child child = some [] := by
    refine (replace_ne ?_).trans plant_same
    omega
  have old {place : Nat} {found : Node K V} (other : place ≠ child)
      (present : grow tree id before entry after child place = some found) :
      ∃ entries, tree place = some entries ∧ found.map Entry.key = entries.map Entry.key := by
    obtain ⟨entries, present', keys⟩ := of_replace_entries (plant_node fresh node) present rfl
    exact ⟨entries, (plant_ne other).symm.trans present', keys⟩
  constructor
  case rooted => exact kept.mpr (.inl ordered.rooted)
  case least =>
    intro place present
    rcases kept.mp present with present | rfl
    · exact ordered.least place present
    · have above := ordered.least id (by simp [node])
      omega
  case bounded =>
    obtain ⟨bound, bounded⟩ := ordered.bounded
    refine ⟨max bound (child + 1), fun place present => ?_⟩
    rcases kept.mp present with present | rfl
    · have below := bounded place present
      omega
    · omega
  case sorted =>
    intro place found present
    by_cases same : place = child
    · subst same
      rw [empty, Option.some.injEq] at present
      rw [← present]
      exact .nil
    · obtain ⟨entries, present', keys⟩ := old same present
      exact sorted_of_keys keys (ordered.sorted place entries present')
  case child =>
    intro place low link
    rcases (grow_child node leaf fresh nonzero).mp link with link | ⟨rfl, rfl⟩
    · obtain ⟨above, present⟩ := ordered.child place low link
      exact ⟨above, kept.mpr (.inl present)⟩
    · exact ⟨larger, kept.mpr (.inr rfl)⟩
  case unique =>
    refine replace_distinct (plant_distinct ordered.unique) (plant_node fresh node) rfl fun label named => .inr ?_
    intro place earlier other later split link
    obtain ⟨nonzero, rfl⟩ := named
    exact (ordered.child place child ⟨_, _, _, of_plant_split split, link⟩).2 fresh
  case hangs =>
    intro place present other
    rcases kept.mp present with present | rfl
    · obtain ⟨parent, link⟩ := ordered.hangs place present other
      exact ⟨parent, (grow_child node leaf fresh nonzero).mpr (.inl link)⟩
    · exact ⟨id, (grow_child node leaf fresh nonzero).mpr (.inr ⟨rfl, rfl⟩)⟩
  case between =>
    intro place earlier other later top low found split names sub present
    by_cases same : low = child
    · subst same
      rw [empty, Option.some.injEq] at present
      simp [← present]
    · obtain ⟨entries, present', keys⟩ := old same present
      have sub' : Sub tree top low := (grow_sub node leaf fresh nonzero sub).resolve_left same
      rcases of_grow_split node fresh split with ⟨rfl, rfl, rfl⟩ | ⟨_, _, split', keys'⟩
      · obtain ⟨_, rfl⟩ := names
        rcases sub'.cases_head with rfl | ⟨_, link, _⟩
        · exact absurd rfl same
        · obtain ⟨_, _, _, split', _⟩ := link
          rw [fresh] at split'
          cases split'
      · exact ordered.between_keys other split' names sub' present' keys' keys

end Order

section Put

variable {tree tree' : Forest K V} {key other : K} {value : V} {spot spot' : Spot K V} {root : Nat}

/-- The key put in is found with its value. -/
theorem Put.walk_self (put : Put tree key value spot tree') (walk : Walk tree key root spot) :
    ∃ spot', Walk tree' key root spot' ∧ spot'.value = some value := by
  cases put with
  | held same => exact ⟨_, walk, congrArg some same⟩
  | past => exact ⟨_, append_walk_self ⟨key, 0, value⟩ walk, rfl⟩
  | gap fresh larger => exact ⟨_, append_walk_self ⟨key, 0, value⟩ (grow_walk_self walk fresh (by omega)), rfl⟩

/-- Every other key is found as before. -/
theorem Put.walk (put : Put tree key value spot tree') (walk : Walk tree key root spot)
    (walk' : Walk tree other root spot') (different : other ≠ key) :
    ∃ spot'', Walk tree' other root spot'' ∧ spot''.value = spot'.value := by
  cases put with
  | held => exact ⟨spot', walk', rfl⟩
  | past => exact append_walk ⟨key, 0, value⟩ walk' walk.here.1 rfl different
  | gap fresh larger =>
    obtain ⟨node, lower, upper, leaf⟩ := walk.here
    obtain ⟨grown, grownWalk, same, _⟩ := grow_walk walk' node leaf fresh (by omega)
    obtain ⟨last, lastWalk, same'⟩ :=
      append_walk ⟨key, 0, value⟩ grownWalk (grow_walk_self walk fresh (by omega)).here.1 rfl different
    exact ⟨last, lastWalk, same'.trans same⟩

theorem Put.ordered (put : Put tree key value spot tree') (walk : Walk tree key root spot)
    (ordered : Ordered tree root) : Ordered tree' root := by
  cases put with
  | held => exact ordered
  | past => exact append_ordered ordered walk.here.1 walk.here.2 (walk.visits .start) rfl
  | gap fresh larger =>
    obtain ⟨node, lower, upper, leaf⟩ := walk.here
    have grown := grow_walk_self walk fresh (by omega)
    exact append_ordered (grow_ordered ordered node leaf fresh larger) grown.here.1 grown.here.2
      (grown.visits .start) rfl

omit [LinearOrder K] in
/-- The search ended at no entry, or at one with the value put in. -/
theorem Put.spot_value (put : Put tree key value spot tree') : spot.value = none ∨ spot.value = some value := by
  cases put with
  | held same => exact .inr (congrArg some same)
  | past | gap => exact .inl rfl

/-- What holds of every node still does if links do not matter to it and the new entry keeps it. -/
theorem Put.nodes (holds : Node K V → Prop) (put : Put tree key value spot tree') (here : spot.Here tree key)
    (all : ∀ id entries, tree id = some entries → holds entries)
    (linked : ∀ before entry after left, holds (before ++ entry :: after) →
      holds (before ++ { entry with left := left } :: after))
    (last : ∀ id entries, spot = .past id entries → holds (entries ++ [⟨key, 0, value⟩]))
    (sole : ∀ id before entry after, spot = .gap id before entry after → holds [⟨key, 0, value⟩]) :
    ∀ id entries, tree' id = some entries → holds entries := by
  cases put with
  | held => exact all
  | @past id entries =>
    intro place found present
    by_cases same : place = id
    · subst same
      rw [append_same here.1, Option.some.injEq] at present
      exact present ▸ last place entries rfl
    · rw [append_ne same] at present
      exact all place found present
  | @gap id child before after entry fresh larger =>
    intro place found present
    have empty : grow tree id before entry after child child = some [] :=
      (replace_ne (Nat.ne_of_gt larger)).trans plant_same
    by_cases new : place = child
    · subst new
      rw [append_same empty, Option.some.injEq] at present
      exact present ▸ sole id before entry after rfl
    · rw [append_ne new] at present
      by_cases same : place = id
      · subst same
        rw [grow, replace_same, Option.some.injEq] at present
        exact present ▸ linked before entry after child (all place _ here.1)
      · rw [grow, replace_ne same, plant_ne new] at present
        exact all place found present

end Put

end SearchTree
