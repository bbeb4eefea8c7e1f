import Mathlib.Logic.Function.Basic
import Pingkv.Index.Reachable

/-! The `kv_index` class with the cache of values it keeps in front of the data file. -/

namespace Pingkv

open SearchTree

/-- `kv_lru` taken for an exact cache: the value last accepted for a key, until it is dropped. -/
structure KvLru where
  entry : List UInt8 → Option (List UInt8)

namespace KvLru

/-- The `_max_elem_size` that `kv_index::init` sets. -/
def maxElemSize : Int := 1024

/-- The test of `kv_lru::set`, which returns 0 whether it stores the value or not. -/
def accepts (key value : Buf) : Bool := decide (wrap 32 (key.len + value.len) ≤ maxElemSize)

def set (key value : Buf) (lru : KvLru) : KvLru :=
  if accepts key value then ⟨Function.update lru.entry key.toList (some value.toList)⟩ else lru

/-- Entries were dropped, and no entry changed. -/
def Evicted (before after : KvLru) : Prop := ∀ key, after.entry key = none ∨ after.entry key = before.entry key

/-- A hit for a key, which counts when its value is not empty, is the value a map has for the key. -/
def Shows (lru : KvLru) (map : List UInt8 → Option (List UInt8)) : Prop :=
  ∀ key value, lru.entry key = some value → value ≠ [] → map key = some value

variable {lru lru' : KvLru} {map : List UInt8 → Option (List UInt8)} {key value : Buf}

theorem Shows.evicted (shows : lru.Shows map) (evicted : lru.Evicted lru') : lru'.Shows map := by
  intro key value hit nonempty
  rcases evicted key with none | same
  · rw [none] at hit
    cases hit
  · exact shows key value (same ▸ hit) nonempty

/-- A map that changes at one key is still shown when the hit for that key is. -/
theorem Shows.update {place : List UInt8} {content : Option (List UInt8)} (shows : lru.Shows map)
    (own : ∀ value, lru.entry place = some value → value ≠ [] → content = some value) :
    lru.Shows (Function.update map place content) := by
  intro key value hit nonempty
  by_cases same : key = place
  · subst same
    rw [Function.update_self]
    exact own value hit nonempty
  · rw [Function.update_of_ne same]
    exact shows key value hit nonempty

/-- A value the cache accepts covers what it held for the key before. -/
theorem Shows.set {content : Option (List UInt8)} (shows : lru.Shows map) (accepted : accepts key value)
    (own : value.toList ≠ [] → content = some value.toList) :
    (lru.set key value).Shows (Function.update map key.toList content) := by
  intro other stored hit nonempty
  simp only [KvLru.set, accepted, if_true] at hit
  by_cases same : other = key.toList
  · subst same
    rw [Function.update_self, Option.some.injEq] at hit
    subst hit
    rw [Function.update_self]
    exact own nonempty
  · rw [Function.update_of_ne same] at hit ⊢
    exact shows other stored hit nonempty

end KvLru

structure KvIndex where
  dbf : DataFile
  lru : KvLru

namespace KvIndex

open Exec DataFile

/-- A call on the data file of an index. -/
def onFile {α : Type} (call : Exec DataFile α) : Exec KvIndex α :=
  within KvIndex.dbf (fun dbf index => { index with dbf := dbf }) call

/-- `kv_index::_cache_get`. -/
def cacheGet (key : Buf) : Exec KvIndex (Option (List UInt8)) := read fun index => index.lru.entry key.toList

/-- `kv_index::get`. A cached value of length 0 is looked up in the data file as well. -/
def get (key : Buf) : Exec KvIndex (Option (List UInt8)) := do
  let cached ← cacheGet key
  if 0 < (cached.getD []).length then return cached
  else do
    let value ← onFile (Inner.get key)
    onFile flushBlocks
    return value.map Buf.toList

/-- `kv_index::set`. What `_cache_insert` returns is not looked at. -/
def set (key value : Buf) : Exec KvIndex Unit := do
  onFile (Inner.set key value)
  onFile flushBlocks
  update fun index => { index with lru := index.lru.set key value }

/-- `kv_index::del`. -/
def del (key : Buf) : Exec KvIndex Unit := do
  onFile (Inner.del key)
  onFile flushBlocks

/-- The public call of the class. -/
def Op.serve : Op → Exec KvIndex (Option (List UInt8))
  | set key value => do KvIndex.set key value; return none
  | get key => KvIndex.get key
  | del key => do KvIndex.del key; return none

/-- One public call that leaves at most `2 ^ 31` bytes. -/
structure Turn (before : KvIndex) (op : Op) (outcome : Except Stop (Option (List UInt8))) (after : KvIndex) : Prop where
  small : op.Small
  run : op.serve before = (outcome, after)
  bounded : ¬ after.dbf.toFile.Outgrown

/-- The indexes that calls lead to, each made in a state that meets a condition. Between
two calls the cache may drop entries, and the operating system may turn to refuse or
to accept the unmapping of blocks. -/
inductive Runs (meets : KvIndex → Op → Prop) : KvIndex → Prop where
  | fresh {file : DataFile} (fresh : Fresh file) : Runs meets ⟨file, ⟨fun _ => none⟩⟩
  | turn {before after : KvIndex} {op : Op} {outcome : Except Stop (Option (List UInt8))} (runs : Runs meets before)
      (met : meets before op) (turn : Turn before op outcome after) : Runs meets after
  | evict {index : KvIndex} {lru : KvLru} (runs : Runs meets index) (evicted : index.lru.Evicted lru) :
      Runs meets { index with lru := lru }
  | unmap {index : KvIndex} {os : OsCall → Nat → Bool} (runs : Runs meets index)
      (serves : { index.dbf with os := os }.Serves) : Runs meets { index with dbf := { index.dbf with os := os } }

/-- What a data file stores for a key after `_set` wrote a value where the search ends. -/
def written (file : DataFile) (spot : Spot Key Slot) (value : Buf) : List UInt8 :=
  value.toList ++ List.replicate (leftover file spot value.len) 0

/-- The cache keeps what it holds for a key: it does not accept the value, or a block
of the file may refuse to be unmapped before it comes to that. -/
def KeepsEntry (index : KvIndex) (key value : Buf) : Prop :=
  ¬ KvLru.accepts key value ∨ ¬ (perform index.dbf (.set key value)).Unmaps

/-- A call after which the cache and the data file agree on its key. -/
def Coherent (index : KvIndex) : Op → Prop
  | .set key value => AtEnd index.dbf key fun _ tree spot => Unfreed tree key.toList 2 ∧ RoomFor key.len spot ∧
      (KvLru.accepts key value → value.toList = [] ∨ leftover index.dbf spot value.len = 0) ∧
      (KeepsEntry index key value → ∀ bytes, index.lru.entry key.toList = some bytes → bytes ≠ [] →
        bytes = written index.dbf spot value)
  | .get _ => True
  | .del key => (index.lru.entry key.toList).getD [] = [] ∧
      AtEnd index.dbf key fun rows _ spot => spot.id = 2 ∨ (stored rows spot).getD [] = []

/-- The invariant: hits are the values the data file has, and every node has room
for a cleared record. -/
def Sound (index : KvIndex) : Prop :=
  ∃ rows tree, Index index.dbf rows tree ∧ Roomy tree ∧ index.lru.Shows (lookup rows tree)

variable {index before after : KvIndex} {file : DataFile} {rows : Rows} {tree : Tree} {key value : Buf}
  {spot : Spot Key Slot} {op : Op} {outcome : Except Stop (Option (List UInt8))}

theorem wp_onFile {α : Type} {call : Exec DataFile α} {post : α → KvIndex → Prop} {halt : Stop → KvIndex → Prop}
    (holds : wp call (fun value dbf => post value { index with dbf := dbf })
      (fun reason dbf => halt reason { index with dbf := dbf }) index.dbf) : wp (onFile call) post halt index :=
  wp_within holds

theorem wp_onFile_bind {α β : Type} {call : Exec DataFile α} {next : α → Exec KvIndex β} {post : β → KvIndex → Prop}
    {halt : Stop → KvIndex → Prop}
    (holds : wp call (fun value dbf => wp (next value) post halt { index with dbf := dbf })
      (fun reason dbf => halt reason { index with dbf := dbf }) index.dbf) :
    wp (onFile call >>= next) post halt index := by
  have first : wp (onFile call) (fun value after => wp (next value) post halt after) halt index := wp_onFile holds
  exact wp_bind first fun _ _ rest => rest

theorem wp_flushBlocks (storing : file.Storing rows) : wp flushBlocks (fun _ after => Quiet file after)
    (fun reason after => Quiet file after ∧ reason = .failed ∧ ¬ file.Unmaps) file := by
  obtain ⟨outcome, after, flushed, quiet, rfl | ⟨rfl, refused⟩⟩ := flushBlocks_ready storing.ready
  · exact wp_of_ok flushed quiet
  · exact wp_of_error flushed ⟨quiet, rfl, refused⟩

/-- `get` answers what the data file has, unless the flush behind a miss fails. -/
theorem get_finds (disk : Index index.dbf rows tree) (roomy : Roomy tree) (shows : index.lru.Shows (lookup rows tree))
    (small : key.len < 2 ^ 32) :
    wp (get key)
      (fun value after => value = lookup rows tree key.toList ∧ Index after.dbf rows tree ∧ after.lru = index.lru)
      (fun reason after => (reason = .failed ∧ ¬ (perform index.dbf (.get key)).Unmaps) ∧
        Index after.dbf rows tree ∧ after.lru = index.lru) index := by
  obtain ⟨spot, walk⟩ := disk.walk key.toList
  unfold get
  refine wp_bind_ok (read_run _ _) ?_
  split
  · refine wp_pure ⟨?_, disk, rfl⟩
    cases hit : index.lru.entry key.toList with
    | none => simp [hit] at *
    | some bytes =>
      refine (shows _ bytes hit ?_).symm
      rintro rfl
      simp [hit] at *
  · obtain ⟨result, mid, got, quiet, same⟩ := get_run disk walk small fun _ => roomy.clears walk
    have disk' := disk.quiet quiet
    have performed : perform index.dbf (.get key) = mid := congrArg Prod.snd got
    refine wp_onFile_bind (wp_of_ok got (wp_onFile_bind ((wp_flushBlocks disk'.storing).mono ?_ ?_)))
    · intro _ after quiet'
      refine wp_pure ⟨?_, disk'.quiet quiet', rfl⟩
      rw [same, lookup_walk walk]
    · rintro _ after ⟨quiet', failed, refused⟩
      exact ⟨⟨failed, performed ▸ refused⟩, disk'.quiet quiet', rfl⟩

/-- What a call leaves: a sound index, with a condition on its values, or a file of
more than `2 ^ 31` bytes. -/
def Leaves (holds : (Key → Option (List UInt8)) → Prop) (after : KvIndex) : Prop :=
  (∃ rows tree, Index after.dbf rows tree ∧ Roomy tree ∧ after.lru.Shows (lookup rows tree) ∧ holds (lookup rows tree)) ∨
    after.dbf.toFile.Outgrown

theorem Leaves.sound {holds : (Key → Option (List UInt8)) → Prop} (leaves : after.Leaves holds)
    (bounded : ¬ after.dbf.toFile.Outgrown) : after.Sound := by
  obtain ⟨rows, tree, disk, roomy, shows, _⟩ := leaves.resolve_right bounded
  exact ⟨rows, tree, disk, roomy, shows⟩

theorem set_leaves (sound : index.Sound) (met : index.Coherent (.set key value)) (small : value.len < 2 ^ 31) :
    wp (set key value) (fun _ => Leaves fun _ => True) (fun _ => Leaves fun _ => True) index := by
  obtain ⟨rows, tree, disk, roomy, shows⟩ := sound
  obtain ⟨spot, walk⟩ := disk.walk key.toList
  obtain ⟨unfreed, room, inserts, keeps⟩ := met rows tree spot disk walk
  have stores := set_run disk walk unfreed room.accepts small
  rcases stores.cases with ⟨_, mid, ran, rows', tree', row, done⟩ | ⟨_, mid, ran, outgrown⟩
  · have performed : perform index.dbf (.set key value) = mid := congrArg Prod.snd (bind_ok ran)
    have roomy' := done.roomy walk room roomy
    have map := done.lookup disk walk
    have stale (kept : index.KeepsEntry key value) : index.lru.Shows (lookup rows' tree') := by
      rw [map]
      exact shows.update fun bytes hit nonempty => congrArg some (keeps kept bytes hit nonempty).symm
    refine wp_onFile_bind (wp_of_ok ran (wp_onFile_bind ((wp_flushBlocks done.index.storing).mono ?_ ?_)))
    · intro _ after quiet
      refine .inl ⟨rows', tree', done.index.quiet quiet, roomy', ?_, trivial⟩
      by_cases accepted : KvLru.accepts key value
      · dsimp only
        rw [map]
        refine shows.set accepted fun nonempty => ?_
        have whole := (inserts accepted).resolve_left nonempty
        rw [whole, List.replicate_zero, List.append_nil]
      · dsimp only
        rw [KvLru.set, if_neg accepted]
        exact stale (.inl accepted)
    · rintro _ after ⟨quiet, _, refused⟩
      exact .inl ⟨rows', tree', done.index.quiet quiet, roomy', stale (.inr (performed ▸ refused)), trivial⟩
  · exact wp_onFile_bind (wp_of_error ran (.inr outgrown))

/-- No value is found where a search ends outside the root or at nothing there. -/
private theorem stored_outside (other : ¬ InRoot spot) (ends : spot.id = 2 ∨ (stored rows spot).getD [] = []) :
    (stored rows spot).getD [] = [] := by
  rcases ends with root | empty
  · cases found : stored rows spot with
    | none => rfl
    | some bytes => exact absurd ⟨root, stored_some found⟩ other
  · exact empty

theorem del_leaves (sound : index.Sound) (met : index.Coherent (.del key)) (small : key.len < 2 ^ 32) :
    wp (del key) (fun _ => Leaves fun map => (map key.toList).getD [] = [])
      (fun _ => Leaves fun map => (map key.toList).getD [] = []) index := by
  obtain ⟨rows, tree, disk, roomy, shows⟩ := sound
  obtain ⟨spot, walk⟩ := disk.walk key.toList
  obtain ⟨missed, ends⟩ := met
  unfold del
  apply wp_onFile_bind
  by_cases inRoot : InRoot spot
  · cases spot with
    | past id records | gap id before record later =>
      obtain ⟨_, row, value⟩ := inRoot
      cases value
    | held id before record later =>
      obtain ⟨rfl, row, value⟩ := inRoot
      have named : record.value = some row := Option.some.inj value
      refine (del_root disk walk named).mono ?_ fun _ _ outgrown => .inr outgrown
      rintro _ mid (outgrown | ⟨content, disk'⟩)
      · have kept := flushBlocks_file mid
        cases flushed : flushBlocks mid with
        | mk outcome after =>
          rw [flushed] at kept
          have outgrown' : after.toFile.Outgrown := kept ▸ outgrown
          cases outcome with
          | ok => exact wp_onFile (wp_of_ok flushed (.inr outgrown'))
          | error => exact wp_onFile (wp_of_error flushed (.inr outgrown'))
      · have flushed (after : DataFile) (quiet : Quiet mid after) :
            Leaves (fun map => (map key.toList).getD [] = []) ⟨after, index.lru⟩ := by
          refine .inl ⟨_, _, disk'.quiet quiet, roomy.erase walk.here.1, ?_, ?_⟩
          · rw [lookup_erase disk walk named]
            refine shows.update fun bytes hit nonempty => ?_
            rw [hit] at missed
            exact absurd missed nonempty
          · change (lookup _ _ key.toList).getD [] = []
            rw [lookup_erase disk walk named, Function.update_self]
            rfl
        exact wp_onFile ((wp_flushBlocks disk'.storing).mono (fun _ after quiet => flushed after quiet)
          fun _ after quiet => flushed after quiet.1)
  · obtain ⟨mid, deleted, quiet⟩ := del_other disk walk small (fun _ _ => roomy.clears walk) inRoot
    have flushed (after : DataFile) (quiet' : Quiet mid after) :
        Leaves (fun map => (map key.toList).getD [] = []) ⟨after, index.lru⟩ := by
      refine .inl ⟨rows, tree, (disk.quiet quiet).quiet quiet', roomy, shows, ?_⟩
      change (lookup rows tree key.toList).getD [] = []
      rw [lookup_walk walk]
      exact stored_outside inRoot (ends rows tree spot disk walk)
    exact wp_of_ok deleted (wp_onFile ((wp_flushBlocks (disk.quiet quiet).storing).mono
      (fun _ after quiet' => flushed after quiet') fun _ after quiet' => flushed after quiet'.1))

private theorem Turn.del (turn : Turn before (.del key) outcome after) (sound : before.Sound)
    (met : before.Coherent (.del key)) : after.Leaves fun map => (map key.toList).getD [] = [] := by
  have small : key.len < 2 ^ 15 := turn.small
  have holds : wp (Op.serve (.del key)) (fun _ => Leaves fun map => (map key.toList).getD [] = [])
      (fun _ => Leaves fun map => (map key.toList).getD [] = []) before :=
    wp_bind (del_leaves sound met (by omega)) fun _ _ leaves => wp_pure leaves
  rcases holds.run turn.run with ⟨_, _, leaves⟩ | ⟨_, _, leaves⟩ <;> exact leaves

theorem Turn.sound (turn : Turn before op outcome after) (sound : before.Sound) (met : before.Coherent op) :
    after.Sound := by
  cases op with
  | set key value =>
    have holds : wp (Op.serve (.set key value)) (fun _ => Leaves fun _ => True) (fun _ => Leaves fun _ => True) before :=
      wp_bind (set_leaves sound met turn.small.2) fun _ _ leaves => wp_pure leaves
    rcases holds.run turn.run with ⟨_, _, leaves⟩ | ⟨_, _, leaves⟩ <;> exact leaves.sound turn.bounded
  | get key =>
    have small : key.len < 2 ^ 15 := turn.small
    obtain ⟨rows, tree, disk, roomy, shows⟩ := sound
    rcases (get_finds disk roomy shows (by omega)).run turn.run with ⟨_, _, _, disk', lru⟩ | ⟨_, _, _, disk', lru⟩ <;>
      exact ⟨rows, tree, disk', roomy, lru ▸ shows⟩
  | del key => exact (turn.del sound met).sound turn.bounded

theorem Runs.sound (runs : Runs Coherent index) : index.Sound := by
  induction runs with
  | fresh fresh =>
    obtain ⟨rows, disk⟩ := fresh.index
    refine ⟨rows, rootTree, disk, rootTree_roomy, fun key value hit => ?_⟩
    cases hit
  | turn _ met turn sound => exact turn.sound sound met
  | evict _ evicted sound =>
    obtain ⟨rows, tree, disk, roomy, shows⟩ := sound
    exact ⟨rows, tree, disk, roomy, shows.evicted evicted⟩
  | unmap _ serves sound =>
    obtain ⟨rows, tree, disk, roomy, shows⟩ := sound
    exact ⟨rows, tree, disk.quiet ⟨rfl, rfl, fun _ => serves, id⟩, roomy, shows⟩

/-- In a run of coherent calls a value that `get` answers from the cache is the one
`_get` answers, and after a deletion that returned 0 `get` has nothing for the key. -/
theorem Runs.agrees (runs : Runs Coherent index) :
    (∀ (key : Buf) (value : List UInt8), key.len < 2 ^ 15 → (cacheGet key index).1 = .ok (some value) →
      0 < value.length → answers key index.dbf = .ok (some value)) ∧
    ∀ (key : Buf) (after : KvIndex), index.Coherent (.del key) → Turn index (.del key) (.ok none) after →
      (∃ left, (get key after).1 = .ok left ∧ left.getD [] = []) ∨
        (get key after).1 = .error .failed ∧ ¬ (perform after.dbf (.get key)).Unmaps := by
  constructor
  · intro key value small hit nonempty
    obtain ⟨rows, tree, disk, roomy, shows⟩ := runs.sound
    obtain ⟨spot, walk⟩ := disk.walk key.toList
    rw [answers_lookup disk walk (by omega) fun _ => roomy.clears walk]
    refine congrArg Except.ok (shows key.toList value (Except.ok.inj hit) ?_)
    exact List.ne_nil_of_length_pos nonempty
  · intro key after met turn
    have short : key.len < 2 ^ 15 := turn.small
    have small : key.len < 2 ^ 32 := by omega
    obtain ⟨rows, tree, disk, roomy, shows, gone⟩ := (turn.del runs.sound met).resolve_right turn.bounded
    rcases (get_finds disk roomy shows small).cases with
      ⟨value, last, ran, found, _⟩ | ⟨reason, last, ran, ⟨rfl, refused⟩, _⟩
    · exact .inl ⟨value, by rw [ran], found ▸ gone⟩
    · exact .inr ⟨by rw [ran], refused⟩

/-- A new index with an empty cache. -/
def startIndex : KvIndex := ⟨start, ⟨fun _ => none⟩⟩

theorem startIndex_dbf : startIndex.dbf = start := by
  simp only [startIndex]

/-- The index after one more call. -/
def served (index : KvIndex) (op : Op) : KvIndex := (op.serve index).2

theorem turn_served {op : Op} (small : op.Small) (ran : (op.serve index).1 = outcome)
    (bounded : ¬ (index.served op).dbf.toFile.Outgrown) : Turn index op outcome (index.served op) :=
  ⟨small, run_of_fst ran, bounded⟩

theorem first_turn : Turn startIndex (.set (Buf.ofList [97]) (Buf.ofList [1])) (.ok none)
    (startIndex.served (.set (Buf.ofList [97]) (Buf.ofList [1]))) := by
  have ran : ((Op.set (Buf.ofList [97]) (Buf.ofList [1])).serve startIndex).1 = .ok none := by decide +kernel
  exact turn_served (by decide) ran (by decide +kernel)

theorem start_set_agrees : answers (Buf.ofList [97])
    (startIndex.served (.set (Buf.ofList [97]) (Buf.ofList [1]))).dbf = .ok (some [1]) := by
  have met : startIndex.Coherent (.set (Buf.ofList [97]) (Buf.ofList [1])) := by
    intro rows tree spot disk walk
    rw [startIndex_dbf] at disk
    rw [start_ends disk walk]
    exact ⟨start_unfreed disk _, show (12 + 1 : Int) ≤ freeSpace [] by decide, fun _ => .inr rfl, fun _ _ hit => nomatch hit⟩
  have turn := first_turn
  have hit : (cacheGet (Buf.ofList [97]) (startIndex.served (.set (Buf.ofList [97]) (Buf.ofList [1])))).1 = .ok (some [1]) := by
    decide +kernel
  generalize startIndex.served (.set (Buf.ofList [97]) (Buf.ofList [1])) = after at turn hit ⊢
  exact (Runs.agrees (.turn (.fresh start_fresh) met turn)).1 (Buf.ofList [97]) [1] (by decide) hit (by decide)

/-- A key that was set and deleted is still answered from the cache. -/
theorem deleted_key_hits : ∃ index after, Runs (fun _ _ => True) index ∧
    Turn index (.del (Buf.ofList [97])) (.ok none) after ∧ (cacheGet (Buf.ofList [97]) after).1 = .ok (some [1]) ∧
      (get (Buf.ofList [97]) after).1 = .ok (some [1]) ∧ answers (Buf.ofList [97]) after.dbf = .ok none := by
  have second : ((Op.del (Buf.ofList [97])).serve
    (startIndex.served (.set (Buf.ofList [97]) (Buf.ofList [1])))).1 = .ok none := by decide +kernel
  exact ⟨_, _, .turn (.fresh start_fresh) trivial first_turn, turn_served (by decide) second (by decide +kernel),
    by decide +kernel, by decide +kernel, by decide +kernel⟩

end KvIndex

end Pingkv
