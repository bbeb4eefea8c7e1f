import Pingkv.Cache.Lru
import Pingkv.Index.Cache

/-! The `kv_index` class over `kv_lru` as it is, and what its calls do to the values of
its keys wherever the cache does not get in their way. -/

namespace Pingkv

open SearchTree Exec

/-- What a caller sees of an index: the value of every key, empty for one that is absent. -/
abbrev Values := List UInt8 → List UInt8

namespace KvIndex

open DataFile

variable {file : DataFile} {rows : Rows} {tree : Tree} {key value : Buf} {values : Values}

/-- A data file with an index that has these values. -/
def Holds (values : Values) (file : DataFile) : Prop :=
  ∃ rows tree, Index file rows tree ∧ Roomy tree ∧ ∀ key, (lookup rows tree key).getD [] = values key

/-- What a call leaves: a data file with these values, or one of more than `2 ^ 31` bytes. -/
def LeavesValues (values : Values) (file : DataFile) : Prop := Holds values file ∨ file.toFile.Outgrown

/-- `_get` and the flush behind it. -/
def look (key : Buf) : Exec DataFile (Option (List UInt8)) := do
  let value ← Inner.get key
  flushBlocks
  return value.map Buf.toList

/-- `_set` and the flush behind it. -/
def store (key value : Buf) : Exec DataFile Unit := do
  Inner.set key value
  flushBlocks

/-- `_del` and the flush behind it. -/
def remove (key : Buf) : Exec DataFile Unit := do
  Inner.del key
  flushBlocks

/-- A set that passes no freed record, finds room in its node, and writes over no longer value. -/
def Fitting (file : DataFile) (key value : Buf) : Prop := AtEnd file key fun _ tree spot =>
  Unfreed tree key.toList 2 ∧ RoomFor key.len spot ∧ leftover file spot value.len = 0

/-- A deletion whose search ends in the root, or at no value. -/
def Removing (file : DataFile) (key : Buf) : Prop := AtEnd file key fun rows _ spot =>
  spot.id = 2 ∨ (stored rows spot).getD [] = []

theorem Holds.quiet {after : DataFile} (holds : Holds values file) (quiet : Quiet file after) : Holds values after := by
  obtain ⟨rows, tree, disk, roomy, same⟩ := holds
  exact ⟨rows, tree, disk.quiet quiet, roomy, same⟩

theorem Fresh.holds (fresh : Fresh file) : Holds (fun _ => []) file := by
  obtain ⟨rows, disk⟩ := fresh.index
  refine ⟨rows, rootTree, disk, rootTree_roomy, fun key => ?_⟩
  have ends : Walk rootTree key 2 (.past 2 []) := .past plant_same (by simp)
  rw [lookup_walk ends]
  rfl

/-- The values of a map that changes at one key. -/
private theorem values_update {map : List UInt8 → Option (List UInt8)} {place : List UInt8} {content : Option (List UInt8)}
    (same : ∀ key, (map key).getD [] = values key) (key : List UInt8) :
    (Function.update map place content key).getD [] = Function.update values place (content.getD []) key := by
  by_cases equal : key = place
  · subst equal
    simp
  · simp [equal, same]

/-- The flush behind a call that left these values. -/
private theorem flush_holds (holds : Holds values file) : wp flushBlocks (fun _ => LeavesValues values)
    (fun reason after => (reason = .failed ∨ after.toFile.Outgrown) ∧ LeavesValues values after) file := by
  obtain ⟨rows, tree, disk, roomy, same⟩ := holds
  refine (wp_flushBlocks disk.storing).mono (fun _ after quiet => ?_) ?_
  · exact .inl ⟨rows, tree, disk.quiet quiet, roomy, same⟩
  · rintro _ after ⟨quiet, rfl, _⟩
    exact ⟨.inl rfl, .inl ⟨rows, tree, disk.quiet quiet, roomy, same⟩⟩

/-- The flush behind a call that made the file too long. -/
private theorem flush_outgrown (outgrown : file.toFile.Outgrown) : wp flushBlocks (fun _ => LeavesValues values)
    (fun reason after => (reason = .failed ∨ after.toFile.Outgrown) ∧ LeavesValues values after) file := by
  have kept := flushBlocks_file file
  cases flushed : flushBlocks file with
  | mk outcome after =>
    rw [flushed] at kept
    have outgrown' : after.toFile.Outgrown := kept ▸ outgrown
    cases outcome with
    | ok => exact wp_of_ok flushed (.inr outgrown')
    | error => exact wp_of_error flushed ⟨.inr outgrown', .inr outgrown'⟩

theorem look_holds (holds : Holds values file) (small : key.len < 2 ^ 32) :
    wp (look key) (fun found after => found.getD [] = values key.toList ∧ Holds values after ∧ after.toFile = file.toFile)
      (fun reason after => reason = .failed ∧ Holds values after ∧ after.toFile = file.toFile) file := by
  obtain ⟨rows, tree, disk, roomy, same⟩ := holds
  obtain ⟨spot, walk⟩ := disk.walk key.toList
  obtain ⟨result, mid, got, quiet, found⟩ := get_run disk walk small fun _ => roomy.clears walk
  have disk' := disk.quiet quiet
  refine wp_bind_ok got (wp_bind ((wp_flushBlocks disk'.storing).mono (fun _ _ quiet' => quiet') ?_) ?_)
  · rintro _ after ⟨quiet', failed, _⟩
    exact ⟨failed, ⟨rows, tree, disk'.quiet quiet', roomy, same⟩, quiet'.file.trans quiet.file⟩
  · intro _ after quiet'
    refine wp_pure ⟨?_, ⟨rows, tree, disk'.quiet quiet', roomy, same⟩, quiet'.file.trans quiet.file⟩
    rw [found, ← lookup_walk walk, same]

theorem store_holds (holds : Holds values file) (fits : Fitting file key value) (small : value.len < 2 ^ 31) :
    wp (store key value) (fun _ => LeavesValues (Function.update values key.toList value.toList))
      (fun reason after => (reason = .failed ∨ after.toFile.Outgrown) ∧
        LeavesValues (Function.update values key.toList value.toList) after) file := by
  obtain ⟨rows, tree, disk, roomy, same⟩ := holds
  obtain ⟨spot, walk⟩ := disk.walk key.toList
  obtain ⟨unfreed, room, whole⟩ := fits rows tree spot disk walk
  rcases (set_run disk walk unfreed room.accepts small).cases with
    ⟨_, mid, ran, rows', tree', row, done⟩ | ⟨_, mid, ran, outgrown⟩
  · refine wp_bind_ok ran (flush_holds ⟨rows', tree', done.index, done.roomy walk room roomy, ?_⟩)
    rw [done.lookup disk walk, whole, List.replicate_zero, List.append_nil]
    exact values_update same
  · exact wp_of_error (bind_error ran) ⟨.inr outgrown, .inr outgrown⟩

theorem remove_holds (holds : Holds values file) (removes : Removing file key) (small : key.len < 2 ^ 32) :
    wp (remove key) (fun _ => LeavesValues (Function.update values key.toList []))
      (fun reason after => (reason = .failed ∨ after.toFile.Outgrown) ∧
        LeavesValues (Function.update values key.toList []) after) file := by
  obtain ⟨rows, tree, disk, roomy, same⟩ := holds
  obtain ⟨spot, walk⟩ := disk.walk key.toList
  have ends := removes rows tree spot disk walk
  by_cases inRoot : InRoot spot
  · cases spot with
    | past | gap =>
      obtain ⟨_, _, value⟩ := inRoot
      cases value
    | held id before record later =>
      obtain ⟨rfl, row, value⟩ := inRoot
      have named : record.value = some row := Option.some.inj value
      refine wp_bind ((del_root disk walk named).mono (fun _ _ deleted => deleted) ?_) ?_
      · exact fun _ _ outgrown => ⟨.inr outgrown, .inr outgrown⟩
      · rintro _ mid (outgrown | ⟨content, disk'⟩)
        · exact flush_outgrown outgrown
        · refine flush_holds ⟨_, _, disk', roomy.erase walk.here.1, ?_⟩
          rw [lookup_erase disk walk named]
          exact values_update same
  · -- Outside the root nothing is removed, and there is nothing to remove.
    obtain ⟨mid, deleted, quiet⟩ := del_other disk walk small (fun _ _ => roomy.clears walk) inRoot
    have absent : values key.toList = [] := by
      rw [← same, lookup_walk walk]
      rcases ends with root | empty
      · cases found : stored rows spot with
        | none => rfl
        | some bytes => exact absurd ⟨root, stored_some found⟩ inRoot
      · exact empty
    have kept : Function.update values key.toList [] = values := by
      rw [← absent]
      exact Function.update_eq_self key.toList values
    rw [kept]
    exact wp_bind_ok deleted (flush_holds ⟨rows, tree, disk.quiet quiet, roomy, same⟩)

end KvIndex

namespace Cache

/-- The object, with the cache that it has. -/
structure KvIndex where
  dbf : DataFile
  lru : KvLru

namespace KvIndex

open Pingkv.KvIndex

/-- The cache as `kv_index::init` makes it. -/
def initLru (junk : Nat → Mem) : KvLru := KvLru.init 8192 (8192 * 1024) 1024 junk

/-- An object over a data file that it has just opened. -/
def opened (dbf : DataFile) (junk : Nat → Mem) : KvIndex := ⟨dbf, initLru junk⟩

/-- A call on the data file of an index. -/
def onFile {α : Type} (call : Exec DataFile α) : Exec KvIndex α :=
  within KvIndex.dbf (fun dbf index => { index with dbf := dbf }) call

/-- A call on the cache of an index. -/
def onLru {α : Type} (call : Exec KvLru α) : Exec KvIndex α :=
  within KvIndex.lru (fun lru index => { index with lru := lru }) call

/-- `kv_index::_cache_get`: what `*val` is set to, and the length that is returned. -/
def cacheGet (key : Buf) : Exec KvIndex (Option (List UInt8) × Int) := onLru do
  match ← KvLru.get key.toList with
  | some (val, vLen) => return (some val.toList, vLen)
  | none => return (none, 0)

/-- `kv_index::_cache_insert`. -/
def cacheInsert (key value : Buf) : Exec KvIndex Unit := onLru (KvLru.set key.toList value.toList)

/-- `kv_index::get`. A cached value of length 0 is looked up in the data file as well. -/
def get (key : Buf) : Exec KvIndex (Option (List UInt8)) := do
  let (val, re) ← cacheGet key
  if re = -1 then failed
  if 0 < re then return val
  else onFile (look key)

/-- `kv_index::set`. What `_cache_insert` returns is not looked at. -/
def set (key value : Buf) : Exec KvIndex Unit := do
  onFile (store key value)
  cacheInsert key value

/-- `kv_index::del`. The cache is not told of it. -/
def del (key : Buf) : Exec KvIndex Unit := onFile (remove key)

/-- The public call of the class. -/
def serve : Op → Exec KvIndex (Option (List UInt8))
  | .set key value => do KvIndex.set key value; return none
  | .get key => KvIndex.get key
  | .del key => do KvIndex.del key; return none

variable {index after : KvIndex} {key value : Buf} {op : Op} {outcome : Except Stop (Option (List UInt8))} {values : Values}

/-- What the cache hands out for a key is nothing, or has no bytes, or is what the data file has. -/
def Clear (index : KvIndex) (key : Buf) : Prop := ∃ val vLen last, cacheGet key index = (.ok (val, vLen), last) ∧
  (vLen = 0 ∨ 0 < vLen ∧ AtEnd index.dbf key fun rows _ spot => stored rows spot = val)

/-- A call that the cache does not disturb, and that makes the data file have what it should:
no get is answered from the cache with anything but the value of the data file, and no set
runs into an access outside an array in the cache. -/
def Coherent (index : KvIndex) : Op → Prop
  | .get key => index.Clear key
  | .set key value => Fitting index.dbf key value ∧ (KvLru.set key.toList value.toList index.lru).1 = .ok ()
  | .del key => Removing index.dbf key

/-- An index that has these values. -/
def Stands (index : KvIndex) (values : Values) : Prop := Holds values index.dbf

/-- One public call that leaves at most `2 ^ 31` bytes. -/
structure Turn (before : KvIndex) (op : Op) (outcome : Except Stop (Option (List UInt8))) (after : KvIndex) : Prop where
  small : op.Small
  run : serve op before = (outcome, after)
  bounded : ¬ after.dbf.toFile.Outgrown

theorem wp_onFile {α : Type} {call : Exec DataFile α} {post : α → DataFile → Prop} {halt : Stop → DataFile → Prop}
    (holds : wp call post halt index.dbf) :
    wp (onFile call) (fun value after => post value after.dbf) (fun reason after => halt reason after.dbf) index :=
  wp_within holds

/-- A get that the cache does not disturb. -/
theorem get_stands (stands : index.Stands values) (clear : index.Clear key) (small : key.len < 2 ^ 32) :
    wp (get key)
      (fun found after => found.getD [] = values key.toList ∧ after.Stands values ∧ after.dbf.toFile = index.dbf.toFile)
      (fun reason after => reason = .failed ∧ after.Stands values ∧ after.dbf.toFile = index.dbf.toFile) index := by
  obtain ⟨val, vLen, last, looked, ends⟩ := clear
  have same : last.dbf = index.dbf := congrArg (fun run => run.2.dbf) looked.symm
  have positive : vLen ≠ -1 := by omega
  have holds : Holds values last.dbf := same ▸ stands
  refine wp_bind_ok looked ?_
  dsimp only
  rw [if_neg positive, ← same]
  split
  · rename_i some_
    rcases ends with none | ⟨_, shown⟩
    · omega
    · obtain ⟨rows, tree, disk, _, finds⟩ := stands
      obtain ⟨spot, walk⟩ := disk.walk key.toList
      refine wp_pure ⟨?_, holds, rfl⟩
      rw [← shown rows tree spot disk walk, ← lookup_walk walk, finds]
  · exact wp_onFile (look_holds holds small)

/-- What a call leaves: an index with these values, or a file of more than `2 ^ 31` bytes. -/
def Leaves (values : Values) (index : KvIndex) : Prop := LeavesValues values index.dbf

theorem set_stands (stands : index.Stands values) (met : index.Coherent (.set key value)) (small : value.len < 2 ^ 31) :
    wp (set key value) (fun _ => Leaves (Function.update values key.toList value.toList))
      (fun reason after => (reason = .failed ∨ after.dbf.toFile.Outgrown) ∧
        Leaves (Function.update values key.toList value.toList) after) index := by
  obtain ⟨fits, inserts⟩ := met
  unfold set
  rcases (store_holds stands fits small).cases with ⟨_, mid, ran, left⟩ | ⟨reason, mid, ran, left⟩
  · have stored : onFile (store key value) index = (.ok (), { index with dbf := mid }) := within_ok ran
    have inserted : cacheInsert key value { index with dbf := mid } = (.ok (), { index with
        dbf := mid, lru := (KvLru.set key.toList value.toList index.lru).2 }) := Prod.ext inserts rfl
    exact wp_bind_ok stored (wp_of_ok inserted left)
  · have stopped : onFile (store key value) index = (.error reason, { index with dbf := mid }) := by
      rw [onFile, within, ran]
    exact wp_of_error (bind_error stopped) left

theorem del_stands (stands : index.Stands values) (met : index.Coherent (.del key)) (small : key.len < 2 ^ 32) :
    wp (del key) (fun _ => Leaves (Function.update values key.toList []))
      (fun reason after => (reason = .failed ∨ after.dbf.toFile.Outgrown) ∧
        Leaves (Function.update values key.toList []) after) index :=
  wp_onFile (remove_holds stands met small)

end KvIndex

end Cache

end Pingkv
