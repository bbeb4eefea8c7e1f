import Pingkv.Index.WellFormed

/-! Runs of `_set`, `_get` and `_del` on a new index. -/

namespace Pingkv

open SearchTree

namespace KvIndex

open Exec DataFile

/-- The calls on an index that reach the data file. -/
inductive Op where
  | set (key value : Buf)
  | get (key : Buf)
  | del (key : Buf)

namespace Op

def run : Op → Exec DataFile (Option Buf)
  | set key value => do Inner.set key value; return none
  | get key => Inner.get key
  | del key => do Inner.del key; return none

def key : Op → Buf
  | set key _ | get key | del key => key

/-- The key has a `short` length, the value an `int` length. -/
def Small : Op → Prop
  | set key value => key.len < 2 ^ 15 ∧ value.len < 2 ^ 31
  | get key | del key => key.len < 2 ^ 15

instance : (op : Op) → Decidable op.Small
  | set key value => inferInstanceAs (Decidable (key.len < 2 ^ 15 ∧ value.len < 2 ^ 31))
  | get key | del key => inferInstanceAs (Decidable (key.len < 2 ^ 15))

end Op

/-- One call that leaves at most `2 ^ 31` bytes. -/
structure Step (before : DataFile) (op : Op) (outcome : Except Stop (Option Buf)) (after : DataFile) : Prop where
  small : op.Small
  run : op.run before = (outcome, after)
  bounded : ¬ after.toFile.Outgrown

/-- The files that calls lead to, each made in a state that meets a condition. -/
inductive Reached (meets : DataFile → Op → Prop) : DataFile → Prop where
  | fresh {file : DataFile} (fresh : Fresh file) : Reached meets file
  | step {before after : DataFile} {op : Op} {outcome : Except Stop (Option Buf)} (reached : Reached meets before)
      (met : meets before op) (step : Step before op outcome after) : Reached meets after

/-- A condition on where the search for a key ends in the tree a file holds. -/
def AtEnd (file : DataFile) (key : Buf) (holds : Rows → Tree → Spot Key Slot → Prop) : Prop :=
  ∀ rows tree spot, Index file rows tree → Walk tree key.toList 2 spot → holds rows tree spot

variable {file after : DataFile} {rows : Rows} {tree : Tree} {key value : Buf} {spot : Spot Key Slot} {op : Op}
  {outcome : Except Stop (Option Buf)}

/-- What `_get` does in a state where a search ends with room for a cleared record. -/
theorem Step.of_get (index : Index file rows tree) (walk : Walk tree key.toList 2 spot)
    (clears : key.len ≤ 8124 → Clears spot) (step : Step file (.get key) outcome after) :
    ∃ result, outcome = .ok result ∧ Index after rows tree := by
  have small : key.len < 2 ^ 15 := step.small
  obtain ⟨result, last, got, quiet, _⟩ := get_run index walk (by omega) clears
  obtain ⟨rfl, rfl⟩ := Prod.mk.inj (step.run.symm.trans got)
  exact ⟨result, rfl, index.quiet quiet⟩

theorem Step.of_set (index : Index file rows tree) (walk : Walk tree key.toList 2 spot)
    (unfreed : Unfreed tree key.toList 2) (accepts : Accepts key.len spot)
    (step : Step file (.set key value) outcome after) :
    outcome = .ok none ∧ ∃ rows' tree' row, SetDone file after rows rows' tree tree' key value spot row := by
  have holds : wp (Op.run (.set key value)) (fun result last => result = none ∧
      ∃ rows' tree' row, SetDone file last rows rows' tree tree' key value spot row) Outgrew file :=
    wp_bind (set_run index walk unfreed accepts step.small.2) fun _ _ done => wp_pure ⟨rfl, done⟩
  rcases holds.run step.run with ⟨_, rfl, rfl, done⟩ | ⟨_, _, outgrown⟩
  · exact ⟨rfl, done⟩
  · exact absurd outgrown step.bounded

/-- What a deletion does to the tree: nothing, or it takes the value out of a record of the root. -/
inductive Erased (rows : Rows) (tree : Tree) : Spot Key Slot → Rows → Tree → Prop where
  | other {spot : Spot Key Slot} (other : ¬ InRoot spot) : Erased rows tree spot rows tree
  | root {before later : List Record} {record : Record} {row : RecordId} {content : List UInt8}
      (named : record.value = some row) : Erased rows tree (.held 2 before record later)
        ((rows.put row none).put (nodeRow 2) (some content)) (replace tree 2 before { record with value := none } later)

theorem Step.of_del (index : Index file rows tree) (walk : Walk tree key.toList 2 spot)
    (clears : spot.id = 2 → key.len ≤ 8124 → Clears spot) (step : Step file (.del key) outcome after) :
    outcome = .ok none ∧ ∃ rows' tree', Index after rows' tree' ∧ Erased rows tree spot rows' tree' := by
  have small : key.len < 2 ^ 15 := step.small
  by_cases inRoot : InRoot spot
  · cases spot with
    | past | gap =>
      obtain ⟨_, _, value⟩ := inRoot
      cases value
    | held id before record later =>
      obtain ⟨rfl, row, value⟩ := inRoot
      have named : record.value = some row := Option.some.inj value
      have holds : wp (Op.run (.del key)) (fun result last => result = none ∧ (last.toFile.Outgrown ∨ ∃ rows' tree',
          Index last rows' tree' ∧ Erased rows tree (.held 2 before record later) rows' tree')) Outgrew file := by
        refine wp_bind (del_root index walk named) fun _ _ done => wp_pure ⟨rfl, done.imp_right ?_⟩
        exact fun ⟨_, index'⟩ => ⟨_, _, index', .root named⟩
      rcases holds.run step.run with ⟨_, rfl, rfl, outgrown | erased⟩ | ⟨_, _, outgrown⟩
      · exact absurd outgrown step.bounded
      · exact ⟨rfl, erased⟩
      · exact absurd outgrown step.bounded
  · obtain ⟨last, deleted, quiet⟩ := del_other index walk (by omega) clears inRoot
    obtain ⟨rfl, rfl⟩ := Prod.mk.inj (step.run.symm.trans (bind_ok deleted))
    exact ⟨rfl, rows, tree, index.quiet quiet, .other inRoot⟩

/-- A condition that every step keeps holds of the tree in every file reached. -/
theorem Reached.index {meets : DataFile → Op → Prop} (holds : Tree → Prop) (root : holds rootTree)
    (next : ∀ {file after rows tree op outcome}, Index file rows tree → holds tree → meets file op →
      Step file op outcome after → ∃ rows' tree', Index after rows' tree' ∧ holds tree')
    (reached : Reached meets file) : ∃ rows tree, Index file rows tree ∧ holds tree := by
  induction reached with
  | fresh fresh =>
    obtain ⟨rows, index⟩ := fresh.index
    exact ⟨rows, rootTree, index, root⟩
  | step _ met step ih =>
    obtain ⟨rows, tree, index, kept⟩ := ih
    exact next index kept met step

/-- The file after one more call. -/
def perform (file : DataFile) (op : Op) : DataFile := (op.run file).2

private theorem run_returns {call : Exec DataFile Unit} {ended : Except Stop Unit} (ran : (call file).1 = ended) :
    ((do call; return none : Exec DataFile (Option Buf)) file).1 = ended.map fun _ => none := by
  cases ended with
  | ok => exact congrArg Prod.fst (bind_ok (run_of_fst ran))
  | error reason => exact congrArg Prod.fst (bind_error (run_of_fst ran))

theorem step_set {ended : Except Stop Unit} (small : (Op.set key value).Small)
    (ran : (Inner.set key value file).1 = ended) (bounded : ¬ (perform file (.set key value)).toFile.Outgrown) :
    Step file (.set key value) (ended.map fun _ => none) (perform file (.set key value)) :=
  ⟨small, run_of_fst (run_returns ran), bounded⟩

theorem step_del {ended : Except Stop Unit} (small : (Op.del key).Small) (ran : (Inner.del key file).1 = ended)
    (bounded : ¬ (perform file (.del key)).toFile.Outgrown) :
    Step file (.del key) (ended.map fun _ => none) (perform file (.del key)) :=
  ⟨small, run_of_fst (run_returns ran), bounded⟩

theorem Step.of_returned (small : (Op.set key value).Small) (ran : Inner.set key value file = (.ok (), after))
    (bounded : ¬ after.toFile.Outgrown) : Step file (.set key value) (.ok none) after :=
  ⟨small, bind_ok ran, bounded⟩

theorem twoKeys_reached {meets : DataFile → Op → Prop} (first : meets start (.set (Buf.ofList [98]) (Buf.ofList [1])))
    (second : meets oneKey (.set (Buf.ofList [97]) (Buf.ofList [1]))) : Reached meets twoKeys := by
  have reached := Reached.step (.fresh start_fresh) first (.of_returned (by decide) oneKey_run (by decide +kernel))
  exact .step reached second (.of_returned (by decide) twoKeys_run (by decide +kernel))

end KvIndex

end Pingkv
