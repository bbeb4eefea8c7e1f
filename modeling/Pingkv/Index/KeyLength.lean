import Pingkv.Index.Lookup

/-! `_set` under every key length of a request: where it returns, and a key it never returns for. -/

namespace Pingkv

open SearchTree

namespace KvIndex

open Exec DataFile

namespace Narrow

variable {σ : Type}

theorem findPosLoop_eq (node key : Buf) : ∀ records next found space,
    (findPosLoop node key key.len records next found space : Exec σ Scan) =
      KvIndex.findPosLoop node key records next found space := by
  intro records
  induction records with
  | zero => intro next found space; rfl
  | succ records ih => intro next found space; simp only [findPosLoop, KvIndex.findPosLoop, ih]

theorem findPos_eq (node key : Buf) : (findPos node key key.len : Exec σ _) = KvIndex.findPos node key := by
  simp only [findPos, KvIndex.findPos, findPosLoop_eq]

theorem setRecord_eq (node key value : Buf) (pos : Int) :
    setRecord node pos key key.len value = KvIndex.setRecord node pos key value := by
  have whole : ∀ node : Buf, ∀ place, (writeKey node place key key.len : Exec DataFile Buf) = node.write place key :=
    fun node place => if_pos ⟨Int.natCast_nonneg _, Int.le_refl _⟩
  simp only [setRecord, KvIndex.setRecord, whole]

theorem setKey_eq (key value : Buf) : ∀ steps node, setKey steps node key key.len value = KvIndex.setKey steps node key value := by
  intro steps
  induction steps with
  | zero => intro node; rfl
  | succ steps ih =>
    intro node
    simp only [setKey, KvIndex.setKey, findPos_eq, setRecord_eq, ih]

end Narrow

/-- A call that came to an end: it returned 0 or -1. -/
def Returned (outcome : Except Stop Unit) : Prop := outcome = .ok () ∨ outcome = .error .failed

instance (outcome : Except Stop Unit) : Decidable (Returned outcome) := inferInstanceAs (Decidable (_ ∨ _))

/-- The files that completed calls of `_set` lead to from a new index, each made in a state that meets a condition. -/
inductive SetReached (meets : DataFile → Buf → Prop) : DataFile → Prop where
  | fresh {file : DataFile} (fresh : Fresh file) : SetReached meets file
  | set {before after : DataFile} {key value : Buf} (reached : SetReached meets before) (met : meets before key)
      (wide : key.len < 2 ^ 16) (small : value.len < 2 ^ 31)
      (completed : setWithin stepBound key value before = (.ok (), after)) : SetReached meets after

/-- The length of the key is one an empty node has room for, and where the search ends there is
room for its record and a block for each thing that is written. -/
def Settles (file : DataFile) (key : Buf) : Prop :=
  (0 ≤ keyLenT key ∧ keyLenT key ≤ 8124) ∧ ∀ rows tree spot, Index file rows tree → Walk tree key.toList 2 spot →
    Accepts key.len spot ∧ Affords file.toFile spot

variable {file after : DataFile} {rows : Rows} {tree : Tree} {key value buf : Buf} {id : Nat} {content : List UInt8}

theorem keyLenT_of_short (short : key.len < 2 ^ 15) : keyLenT key = key.len := by
  rw [keyLenT, wrap_eq_bmod]
  exact Int.bmod_eq_of_le (by omega) (by omega)

theorem short_of_keyLenT (wide : key.len < 2 ^ 16) (positive : 0 ≤ keyLenT key) : key.len < 2 ^ 15 := by
  by_contra long
  have wrapped : keyLenT key = key.len - 2 ^ 16 := by
    rw [keyLenT, wrap_eq_bmod, Int.bmod_def]
    omega
  omega

theorem setWithin_eq (short : key.len < 2 ^ 15) (steps : Nat) :
    setWithin steps key value = (do KvIndex.setKey steps (← getRoot) key value) := by
  simp only [setWithin, keyLenT_of_short short, Narrow.setKey_eq]

/-- A set in a state that meets the condition, to any depth from 262144 on. -/
private theorem Settles.ends (met : Settles file key) (index : Index file rows tree) (full : Full tree)
    (wide : key.len < 2 ^ 16) (small : value.len < 2 ^ 31) {steps : Nat} (enough : 262144 ≤ steps) :
    wp (setWithin steps key value) (fun _ after => ∃ rows' tree', Index after rows' tree' ∧ Full tree' ∧
      (Compact file.toFile tree → Compact after.toFile tree')) (Halted (Compact file.toFile tree)) file := by
  obtain ⟨⟨positive, short⟩, ends⟩ := met
  obtain ⟨spot, walk⟩ := index.walk key.toList
  obtain ⟨accepts, affords⟩ := ends rows tree spot index walk
  rw [setWithin_eq (short_of_keyLenT wide positive)]
  refine (set_ends index walk full.unfreed accepts small steps enough).mono ?_
    fun _ _ halted => ⟨halted.1, fun compact => halted.2 ⟨compact, affords⟩⟩
  rintro _ after ⟨rows', tree', row, done, compact⟩
  exact ⟨rows', tree', done.index, done.full walk full, compact⟩

private theorem SetReached.compact (reached : SetReached Settles file) :
    ∃ rows tree, Index file rows tree ∧ Full tree ∧ Compact file.toFile tree := by
  induction reached with
  | fresh fresh =>
    obtain ⟨rows, index, compact⟩ := fresh.compact
    exact ⟨rows, rootTree, index, rootTree_full, compact⟩
  | set _ met wide small completed ih =>
    obtain ⟨rows, tree, index, full, compact⟩ := ih
    obtain ⟨rows', tree', index', full', compact'⟩ := (met.ends index full wide small (by decide)).ok completed
    exact ⟨rows', tree', index', full', compact' compact⟩

/-- In a run of completed sets that each meet the condition, one more that meets it returns, with
no more than 262144 nodes on its way down. -/
theorem SetReached.set_returns (reached : SetReached Settles file) (met : Settles file key) (wide : key.len < 2 ^ 16)
    (small : value.len < 2 ^ 31) {steps : Nat} (enough : 262144 ≤ steps) :
    Returned (setWithin steps key value file).1 := by
  obtain ⟨rows, tree, index, full, compact⟩ := reached.compact
  rcases (met.ends index full wide small enough).cases with ⟨_, after, ran, _⟩ | ⟨reason, after, ran, _, stopped⟩
  · rw [ran]
    exact .inl rfl
  · rw [ran, stopped compact]
    exact .inr rfl

private theorem SetReached.add {meets : DataFile → Buf → Prop} (reached : SetReached meets file) (met : meets file key)
    (short : key.len < 2 ^ 15) (small : value.len < 2 ^ 31) (ran : Inner.set key value file = (.ok (), after)) :
    SetReached meets after :=
  .set reached met (by omega) small (by rw [setWithin_eq short]; exact ran)

theorem third_key_returns : Returned (setWithin 262144 (Buf.ofList [97, 1]) (Buf.ofList [3]) twoKeys).1 := by
  have first : Settles start (Buf.ofList [98]) := by
    refine ⟨by decide, fun rows tree spot index walk => ?_⟩
    rw [start_ends index walk]
    exact ⟨show 16 + 0 + 12 + 1 ≤ 8152 by decide, .inr (by decide +kernel)⟩
  have second : Settles oneKey (Buf.ofList [97]) := by
    refine ⟨by decide, fun rows tree spot index walk => ?_⟩
    rw [walk.unique (oneKey_ends index)]
    exact ⟨show 16 + 12 + 1 ≤ 8152 by decide, show oneKey.info.usedBlockCount + 1 < 262144 by decide +kernel⟩
  have met : Settles twoKeys (Buf.ofList [97, 1]) := by
    refine ⟨by decide, fun rows tree spot index walk => ?_⟩
    rw [walk.unique (twoKeys_ends index)]
    exact ⟨show 16 + span [⟨[97], 0, some ⟨4, 0⟩⟩] + 12 + 2 ≤ 8152 by decide, .inr (by decide +kernel)⟩
  have one : SetReached Settles oneKey := .add (.fresh start_fresh) first (by decide) (by decide) oneKey_run
  have two : SetReached Settles twoKeys := .add one second (by decide) (by decide) twoKeys_run
  exact SetReached.set_returns two met (by decide) (by decide) (Nat.le_refl _)

/-- An empty node that is stored by itself. -/
private structure Bare (file : DataFile) (buf : Buf) (id : Nat) : Prop where
  positive : 1 ≤ id
  laid : HasNode buf id []
  whole : file.Whole (nodeRow id)
  stored : ∃ rows content, file.Storing rows ∧ rows (nodeRow id) = some (some content) ∧ content.length = 8152

/-- Under an empty node `_set_key` hangs one more, and reads it, unless there is no block left to map. -/
private theorem Bare.child (bare : Bare file buf id) : (∃ last, childAt buf 12 file = (.error .fault, last)) ∨
    ∃ childId hung child next, childAt buf 12 file = (.ok ((childId : Nat) : Int), hung) ∧
      getNode childId hung = (.ok child, next) ∧ Bare next child childId := by
  obtain ⟨positive, laid, whole, rows, content, storing, found, length⟩ := bare
  have len := laid.len
  have right := Buf.getInt_run buf file (show 12 + 4 ≤ buf.len by omega) rfl
  rw [laid.right] at right
  have opened := childAt_none right (show 12 + 4 ≤ buf.len by omega)
  rcases addNode_run storing (buf.byte.int 0) with ⟨childId, child, mid, ran, added⟩ | ⟨last, ran, _, _⟩
  case inr => exact .inl ⟨last, opened.trans (bind_error ran)⟩
  have handed : rows (nodeRow id) ≠ none := by simp [found]
  have apart : nodeRow id ≠ nodeRow childId := by
    intro same
    rw [same, added.new] at found
    cases found
  have number : (buf.byte.putInt 12 childId).int 0 = id := by
    rw [(Mem.agree_putInt (by omega)).int_eq, laid.blockId]
  obtain ⟨hung, saves, saved⟩ := saveNode_whole added.storing ((Rows.put_ne apart).trans found) length positive
    (show (⟨buf.len, buf.byte.putInt 12 childId⟩ : Buf).len = 8152 from len) number
    (whole.of_record (added.others _ handed apart))
  have kept : ((rows.put (nodeRow childId) (some child.toList)).put (nodeRow id)
      (some (⟨buf.len, buf.byte.putInt 12 childId⟩ : Buf).toList)) (nodeRow childId) = some (some child.toList) := by
    rw [Rows.put_ne apart.symm, Rows.put_same]
  have later : 1 ≤ childId := by
    have above := added.later (nodeRow id) handed
    omega
  obtain ⟨row, next, got, quiet, same⟩ := getNode_stored saved.storing later kept
  refine .inr ⟨childId, hung, row, next, opened.trans ((bind_ok ran).trans (bind_ok saves)), got, later,
    added.laid.of_toList same, ?_, ?_⟩
  · have record := saved.others (nodeRow childId) (by simp) apart.symm
    exact added.whole.of_record (by rw [quiet.file]; exact record)
  · exact ⟨_, _, quiet.storing saved.storing, kept, (Buf.toList_length child).trans added.laid.len⟩

/-- A key too long for an empty node: `_set_key` hangs one empty node under the other. -/
private theorem setKey_chain (long : 8124 < key.len) (narrow : key.len < 2 ^ 15) (steps : Nat)
    (bare : Bare file buf id) : ¬ Returned (KvIndex.setKey steps buf key value file).1 := by
  induction steps generalizing file id buf with
  | zero => exact (by decide : ¬ Returned (.error .exhausted))
  | succ steps ih =>
    rw [KvIndex.setKey, bind_ok (findPos_none file bare.laid (by simp) long (by omega))]
    dsimp only
    rcases bare.child with ⟨last, stopped⟩ | ⟨childId, hung, child, next, linked, got, below⟩
    · rw [bind_error stopped]
      exact (by decide : ¬ Returned (.error .fault))
    · rw [bind_ok linked, bind_ok got]
      exact ih below

/-- A key of 8125 bytes on a new index: `_set` goes from empty node to empty node and never returns, however deep. -/
theorem long_key_never_returns : ∃ file key value, SetReached Settles file ∧ key.len < 2 ^ 16 ∧ value.len < 2 ^ 31 ∧
    ∀ steps, ¬ Returned (setWithin steps key value file).1 := by
  refine ⟨start, ⟨8125, fun _ => 97⟩, Buf.ofList [1], .fresh start_fresh, by decide, by decide, fun steps => ?_⟩
  obtain ⟨rows, index, compact⟩ := start_fresh.compact
  have present : rootTree 2 = some [] := plant_same
  obtain ⟨root, mid, got, quiet, laid⟩ := getRoot_run index present
  obtain ⟨content, stored, length⟩ := index.stored (show rootTree 2 ≠ none by simp [present])
  rw [setWithin_eq (by decide), bind_ok got]
  have whole : mid.Whole (nodeRow 2) := by
    rw [quiet.file]
    exact compact 2 (by simp [present])
  exact setKey_chain (by decide) (by decide) steps
    ⟨by decide, laid, whole, rows, content, quiet.storing index.storing, stored, length⟩

end KvIndex

end Pingkv
