import Pingkv.Index.Set

/-! `_del_key` looks into the root only: a record there loses its row, a key held
further down keeps its value. -/

namespace Pingkv

open SearchTree

namespace KvIndex

open Exec DataFile

variable {file : DataFile} {rows : Rows} {tree : Tree} {buf key : Buf} {id : Nat} {record : Record}
  {before later : List Record} {spot : Spot Key Slot}

/-- The search for a key ends at a record of the root with a value. -/
def InRoot (spot : Spot Key Slot) : Prop := spot.id = 2 ∧ ∃ row, spot.value = some (some row)

/-- `_del_key` does nothing where the search does not end at a value in the root. -/
theorem delKey_other {records : List Record} (index : Index file rows tree) (walk : Walk tree key.toList 2 spot)
    (present : tree 2 = some records) (laid : HasNode buf 2 records) (small : key.len < 2 ^ 32)
    (clears : spot.id = 2 → key.len ≤ 8124 → Clears spot) (other : ¬ InRoot spot) : delKey buf key file = (.ok (), file) := by
  cases walk with
  | @held id before later record node lower same =>
    obtain rfl := Option.some.inj (present.symm.trans node)
    obtain ⟨position, cmp, fields⟩ := findPos_node index node laid lower same.ge
    have freed : record.value = none := by
      cases value : record.value with
      | none => rfl
      | some row => exact absurd ⟨rfl, row, congrArg some value⟩ other
    rw [delKey, bind_ok position]
    dsimp only
    rw [bind_ok fields.block, if_pos (by rw [freed]; rfl)]
    rfl
  | past node lower =>
    obtain rfl := Option.some.inj (present.symm.trans node)
    have len := laid.len
    rw [delKey]
    by_cases short : key.len ≤ 8124
    · have room : 16 + span records + 12 ≤ 8152 := clears rfl short
      obtain ⟨mem, position, cleared, _⟩ := findPos_past file laid lower short room
      obtain ⟨cmp, fields⟩ : ∃ cmp, Reads ⟨buf.len, mem⟩ key (16 + span records) blank file cmp :=
        reads file key cleared (by simp [recordLen, blank]; omega)
      rw [bind_ok position]
      dsimp only
      rw [bind_ok fields.block, if_pos (show blank.value.number.1 = 0 from rfl)]
      rfl
    · rw [bind_ok (findPos_none file laid lower (by omega) small)]
      rfl
  | gap node lower upper | down node lower upper =>
    obtain rfl := Option.some.inj (present.symm.trans node)
    obtain ⟨position, cmp, fields⟩ := findPos_node index node laid lower upper.le
    rw [delKey, bind_ok position]
    dsimp only [kInfoLen]
    rw [bind_ok fields.block]
    split
    · rfl
    · rw [bind_ok fields.keyLen, bind_ok fields.compared, if_neg (mt fields.sign.zero.mp upper.ne')]
      rfl

/-- `_del_key` deletes the row of a record in the root and takes it out of the record. -/
theorem delKey_root (index : Index file rows tree) (node : tree 2 = some (before ++ record :: later))
    (laid : HasNode buf 2 (before ++ record :: later)) (lower : ∀ other ∈ before, other.key < key.toList)
    (same : record.key = key.toList) {row : RecordId} (named : record.value = some row) :
    wp (delKey buf key) (fun _ after => after.toFile.Outgrown ∨ ∃ content, Index after
      ((rows.put row none).put (nodeRow 2) (some content))
      (replace tree 2 before { record with value := none } later)) Outgrew file := by
  have present : tree 2 ≠ none := by simp [node]
  have names : Names tree row := ⟨2, before, record, later, node, named⟩
  have apart := index.disk.apart row names 2 present
  have inside := laid.inside
  have len := laid.len
  simp only [recordLen] at inside
  obtain ⟨position, cmp, fields⟩ := findPos_node index node laid lower same.ge
  obtain ⟨content, live⟩ := index.disk.live row names
  obtain ⟨mid, deleted, _, storing⟩ := deleteRow_storing index.storing (show rows row ≠ none by simp [live])
  obtain ⟨bytes, stored, long⟩ := index.stored present
  have erased := laid.erase
  rw [delKey]
  refine wp_bind_ok position ?_
  dsimp only [kInfoLen]
  refine wp_bind_ok fields.block ?_
  rw [if_neg (slot_nonzero (by simp [named]))]
  refine wp_bind_ok fields.keyLen (wp_bind_ok fields.compared ?_)
  rw [if_pos (fields.sign.zero.mpr same)]
  refine wp_bind_ok fields.row ?_
  rw [named]
  refine wp_bind_ok deleted ?_
  refine wp_bind_ok (Buf.setInt_run buf.len mid 0 (show 16 + span before + 4 + 4 ≤ buf.len by omega) (by omega)) ?_
  refine wp_bind_ok (Buf.setShort_run _ mid 0 (show 16 + span before + 8 + 2 ≤ buf.len by omega) (by omega)) ?_
  rw [len]
  generalize (buf.byte.putInt (16 + span before + 4) 0).putShort (16 + span before + 8) 0 = mem at erased ⊢
  have saved := (saveNode_run storing ((Rows.put_ne apart.symm).trans stored) long (by omega) erased.len
    erased.blockId).mono (fun _ _ saved => saved.storing) fun _ _ overflowed => overflowed.2
  have attempted : wp (attempt (saveNode ⟨8152, mem⟩)) (fun _ after => after.toFile.Outgrown ∨ ∃ content, Index after
      ((rows.put row none).put (nodeRow 2) (some content)) (replace tree 2 before { record with value := none } later))
      Outgrew mid := by
    refine wp_attempt saved ?_ fun _ outgrew => .inl outgrew
    exact fun _ after storing => .inr ⟨_, storing, index.disk.erase node named erased⟩
  exact wp_bind attempted fun _ _ done => wp_pure done

/-- `_del` leaves the file as it is where the search does not end at a value in the root. -/
theorem del_other (index : Index file rows tree) (walk : Walk tree key.toList 2 spot) (small : key.len < 2 ^ 32)
    (clears : spot.id = 2 → key.len ≤ 8124 → Clears spot) (other : ¬ InRoot spot) :
    ∃ after, Inner.del key file = (.ok (), after) ∧ Quiet file after := by
  obtain ⟨records, present⟩ := Option.ne_none_iff_exists'.mp walk.node
  obtain ⟨root, mid, got, quiet, laid⟩ := getRoot_run index present
  refine ⟨mid, ?_, quiet⟩
  rw [Inner.del, bind_ok got]
  exact delKey_other (index.quiet quiet) walk present laid small clears other

theorem del_root {row : RecordId} (index : Index file rows tree) (walk : Walk tree key.toList 2 (.held 2 before record later))
    (named : record.value = some row) :
    wp (Inner.del key) (fun _ after => after.toFile.Outgrown ∨ ∃ content, Index after
      ((rows.put row none).put (nodeRow 2) (some content)) (replace tree 2 before { record with value := none } later))
      Outgrew file := by
  obtain ⟨node, lower, same⟩ := walk.here
  obtain ⟨root, mid, got, quiet, laid⟩ := getRoot_run index node
  unfold Inner.del
  exact wp_bind_ok got (delKey_root (index.quiet quiet) node laid lower same named)

end KvIndex

end Pingkv
