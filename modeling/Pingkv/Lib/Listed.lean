import Mathlib.Data.List.Nodup
import Mathlib.Logic.Function.Basic

/-! Lists of items that are known by their keys, and a map that says of every key which
list its item is on. An item that leaves one list for another is one change of the map. -/

variable {α κ τ : Type}

/-- The list of the items whose key is mapped to a spot of theirs on it. -/
structure Listed (loc : κ → τ) (key : α → κ) (spot : α → τ → Prop) (items : List α) : Prop where
  mem : ∀ item, item ∈ items ↔ spot item (loc (key item))
  nodup : (items.map key).Nodup

namespace Listed

variable {loc : κ → τ} {key : α → κ} {spot : α → τ → Prop} {items rest : List α} {first item : α} {place : τ}

theorem empty (away : ∀ item, ¬ spot item (loc (key item))) : Listed loc key spot [] :=
  ⟨fun item => iff_of_false List.not_mem_nil (away item), List.nodup_nil⟩

/-- Where the first item is. -/
theorem here (listed : Listed loc key spot (first :: rest)) : spot first (loc (key first)) :=
  (listed.mem first).mp List.mem_cons_self

variable [DecidableEq κ]

/-- A key that moves between two other lists. -/
theorem move (listed : Listed loc key spot items) {moved : κ} (old : ∀ item, ¬ spot item (loc moved))
    (new : ∀ item, ¬ spot item place) : Listed (Function.update loc moved place) key spot items := by
  refine ⟨fun item => (listed.mem item).trans ?_, listed.nodup⟩
  by_cases own : key item = moved
  · subst own
    rw [Function.update_self]
    exact iff_of_false (old item) (new item)
  · rw [Function.update_of_ne own]

/-- An item comes to the end of the list. -/
theorem append (listed : Listed loc key spot items) (old : ∀ other, ¬ spot other (loc (key item)))
    (new : ∀ other, key other = key item → (spot other place ↔ other = item)) :
    Listed (Function.update loc (key item) place) key spot (items ++ [item]) := by
  have absent (other : α) (same : key other = key item) : other ∉ items :=
    fun member => old other (same ▸ (listed.mem other).mp member)
  refine ⟨fun other => ?_, ?_⟩
  · rw [List.mem_append, List.mem_singleton]
    by_cases own : key other = key item
    · rw [own, Function.update_self, new other own]
      exact or_iff_right (absent other own)
    · rw [Function.update_of_ne own, ← listed.mem other]
      exact or_iff_left fun same => own (congrArg key same)
  · rw [List.map_append, List.nodup_append]
    refine ⟨listed.nodup, List.nodup_singleton _, ?_⟩
    rintro _ present _ single rfl
    obtain ⟨other, member, same⟩ := List.mem_map.mp present
    exact absent other (same.trans (List.mem_singleton.mp single)) member

/-- The first item leaves the list. -/
theorem tail (listed : Listed loc key spot (first :: rest)) (new : ∀ other, ¬ spot other place) :
    Listed (Function.update loc (key first) place) key spot rest := by
  obtain ⟨apart, nodup⟩ := List.nodup_cons.mp (List.map_cons ▸ listed.nodup)
  refine ⟨fun other => ?_, nodup⟩
  by_cases own : key other = key first
  · rw [own, Function.update_self]
    exact iff_of_false (fun member => apart (own ▸ List.mem_map_of_mem member)) (new other)
  · rw [Function.update_of_ne own, ← listed.mem other, List.mem_cons]
    exact (or_iff_right fun same => own (congrArg key same)).symm

end Listed
