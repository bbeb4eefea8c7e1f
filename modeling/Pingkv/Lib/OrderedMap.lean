import Mathlib.Data.List.Basic
import Mathlib.Order.Lattice

/-! Maps that are walked in the order of their keys. -/

/-- A finite map, as its entries in the order of their keys. -/
structure OrderedMap (α β : Type) [LinearOrder α] where
  entries : List (α × β)
  sorted : (entries.map Prod.fst).Pairwise (· < ·)

namespace OrderedMap

variable {α β : Type} [LinearOrder α]

def lookup (map : OrderedMap α β) (key : α) : Option β :=
  (map.entries.find? fun entry => decide (entry.1 = key)).map Prod.snd

def empty : OrderedMap α β := ⟨[], .nil⟩

/-- Put an entry in its place, over the one that is there. -/
def place (key : α) (value : β) : List (α × β) → List (α × β)
  | [] => [(key, value)]
  | entry :: rest =>
    if key < entry.1 then (key, value) :: entry :: rest
    else if key = entry.1 then (key, value) :: rest
    else entry :: place key value rest

theorem mem_place {key other : α} {value : β} {entries : List (α × β)}
    (member : other ∈ (place key value entries).map Prod.fst) : other = key ∨ other ∈ entries.map Prod.fst := by
  induction entries with
  | nil => exact .inl (List.mem_singleton.mp member)
  | cons entry rest ih =>
    unfold place at member
    split at member
    · exact List.mem_cons.mp member
    · split at member
      · exact (List.mem_cons.mp member).imp_right (List.mem_cons_of_mem _)
      · rcases List.mem_cons.mp member with first | later
        · exact .inr (first ▸ List.mem_cons_self)
        · exact (ih later).imp_right (List.mem_cons_of_mem _)

theorem place_sorted (key : α) (value : β) {entries : List (α × β)}
    (sorted : (entries.map Prod.fst).Pairwise (· < ·)) :
    ((place key value entries).map Prod.fst).Pairwise (· < ·) := by
  induction entries with
  | nil => exact List.pairwise_singleton _ _
  | cons entry rest ih =>
    obtain ⟨first, later⟩ := List.pairwise_cons.mp sorted
    unfold place
    split
    · rename_i below
      refine List.pairwise_cons.mpr ⟨?_, sorted⟩
      intro other member
      rcases List.mem_cons.mp member with rfl | member
      · exact below
      · exact lt_trans below (first other member)
    · split
      · rename_i same
        exact List.pairwise_cons.mpr ⟨same ▸ first, later⟩
      · rename_i above different
        refine List.pairwise_cons.mpr ⟨?_, ih later⟩
        intro other member
        rcases mem_place member with rfl | member
        · exact lt_of_le_of_ne (not_lt.mp above) (Ne.symm different)
        · exact first other member

/-- `map[key] = value`. -/
def assign (map : OrderedMap α β) (key : α) (value : β) : OrderedMap α β :=
  ⟨place key value map.entries, place_sorted key value map.sorted⟩

def erase (map : OrderedMap α β) (key : α) : OrderedMap α β where
  entries := map.entries.filter fun entry => decide (entry.1 ≠ key)
  sorted := map.sorted.sublist (List.filter_sublist.map _)

/-- The first key. -/
def first (map : OrderedMap α β) : Option α := map.entries.head?.map Prod.fst

/-- The key behind a key. -/
def next (map : OrderedMap α β) (key : α) : Option α :=
  (map.entries.find? fun entry => decide (key < entry.1)).map Prod.fst

variable {map : OrderedMap α β} {key other : α} {value : β}

@[simp] theorem lookup_empty (key : α) : (empty : OrderedMap α β).lookup key = none := rfl

@[simp] theorem lookup_assign_self : (map.assign key value).lookup key = some value := by
  obtain ⟨entries, sorted⟩ := map
  simp only [lookup, assign]
  clear sorted
  induction entries with
  | nil => simp [place]
  | cons entry rest ih =>
    unfold place
    split
    · simp
    · split
      · simp
      · rename_i different
        simpa [Ne.symm different] using ih

theorem lookup_assign_other (different : other ≠ key) : (map.assign key value).lookup other = map.lookup other := by
  obtain ⟨entries, sorted⟩ := map
  simp only [lookup, assign]
  clear sorted
  induction entries with
  | nil => simp [place, Ne.symm different]
  | cons entry rest ih =>
    unfold place
    split
    · simp [Ne.symm different]
    · split
      · rename_i same
        simp [← same, Ne.symm different]
      · by_cases here : entry.1 = other
        · simp [here]
        · simpa [here] using ih

@[simp] theorem lookup_erase_self : (map.erase key).lookup key = none := by
  have absent : (map.erase key).entries.find? (fun entry => decide (entry.1 = key)) = none := by
    apply List.find?_eq_none.mpr
    intro entry member
    simpa [erase] using (List.mem_filter.mp member).2
  rw [lookup, absent, Option.map_none]

theorem lookup_erase_other (different : other ≠ key) : (map.erase key).lookup other = map.lookup other := by
  have kept (entry : α × β) : (decide (entry.1 ≠ key) = true ∧ decide (entry.1 = other) = true) ↔ entry.1 = other := by
    simp only [decide_eq_true_eq, and_iff_right_iff_imp]
    rintro rfl
    exact different
  simp only [lookup, erase, List.find?_filter, kept]

/-- A key that an entry has is found. -/
theorem lookup_isSome {entry : α × β} (member : entry ∈ map.entries) : (map.lookup entry.1).isSome := by
  rw [lookup, Option.isSome_map, List.find?_isSome]
  exact ⟨entry, member, decide_eq_true rfl⟩

theorem lookup_first (starts : map.first = some key) : (map.lookup key).isSome := by
  obtain ⟨entry, head, rfl⟩ := Option.map_eq_some_iff.mp starts
  exact lookup_isSome (List.mem_of_mem_head? head)

theorem lookup_next (follows : map.next key = some other) : (map.lookup other).isSome := by
  obtain ⟨entry, found, rfl⟩ := Option.map_eq_some_iff.mp follows
  exact lookup_isSome (List.mem_of_find?_eq_some found)

end OrderedMap
