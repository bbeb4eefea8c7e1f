import Pingkv.DataFile.Sessions
import Pingkv.Index.Cached
import Pingkv.Index.Open

/-! The public calls of an index over several sessions, with unmappings refused in
between: a map from keys to values. -/

namespace Pingkv

open SearchTree

/-- Block 2 of an index holds its root. -/
theorem Index.root_block {file : DataFile} {rows : Rows} {tree : Tree} (disk : Index file rows tree) :
    1 < file.size ∧ (file.block 1).Formed ∧ (file.block 1).free ≠ 8152 := by
  obtain ⟨content, stored, _⟩ := disk.stored disk.disk.ordered.rooted
  have has := disk.storing.has (show rows (nodeRow 2) ≠ none by simp [stored])
  have within : 1 < file.size := has.within
  have placed : 0 < (file.block 1).count := has.placed
  have formed := disk.storing.ready.formed.block 1 (by omega) within
  refine ⟨within, formed, fun free => ?_⟩
  have room := Block.free_room (show (file.block 1).free ≠ 0 by omega)
  have bounds := formed.bounds (Nat.le_refl _)
  have counted : (0 : Int) < (file.block 1).recordCount := by
    unfold Block.count at placed
    omega
  omega

namespace KvIndex

open Exec DataFile

variable {file : DataFile} {host : Host} {rows : Rows} {tree : Tree}

/-- `_open` of an index that is there keeps it, and fails when a living process owns the file. -/
theorem openObject_serves (create : Bool) (dbName : List UInt8) (fileId pid : Int) (pidExists : Int → Bool)
    (disk : Index file rows tree) (serves : (file.reopened host).Serves) :
    (∃ last, World.openObject true create dbName fileId pid pidExists (file.reopened host) = (.error .failed, last)) ∧
        file.info.currPid ≠ pid ∧ pidExists file.info.currPid ∨
      ∃ last, World.openObject true create dbName fileId pid pidExists (file.reopened host) = (.ok (), last) ∧
        Index last rows tree ∧ last.size = file.size := by
  unfold World.openObject
  rcases openFile_serves pid pidExists disk.storing serves with ⟨⟨last, refused⟩, living⟩ | ⟨last, ran, storing, size⟩
  · exact .inl ⟨⟨last, bind_error refused⟩, living⟩
  · refine .inr ?_
    have disk' : Index last rows tree := ⟨storing, disk.disk⟩
    simp only [if_true]
    rw [bind_ok ran, read_bind_run]
    split
    · obtain ⟨within, formed, full⟩ := disk'.root_block
      obtain ⟨looked, mapped, quiet⟩ := readBlock_page storing.ready.cached storing.ready.serves Nat.one_pos within (by omega)
      have free : freeBytes 2 last = (.ok (looked.block 1).free, looked) := by
        refine (bind_ok mapped).trans ?_
        rw [if_neg (by simp)]
        exact blockFreeBytes_page Nat.one_pos (quiet.file ▸ within) (quiet.file ▸ formed)
      refine ⟨looked, ?_, disk'.quiet quiet, (congrArg File.size quiet.file).trans size⟩
      rw [bind_ok free, if_neg (show (looked.block 1).free ≠ nodeLen by rw [quiet.file]; exact full)]
      rfl
    · exact ⟨last, rfl, disk', size⟩

end KvIndex

namespace Cache.KvIndex

open Exec DataFile Simulation Pingkv.KvIndex

/-- What a caller does, or what comes between two calls. -/
inductive Event where
  | call (op : Op) (outcome : Except Stop (Option (List UInt8)))
  | refuse
  | reopen

/-- A coherent call, a change of which unmappings are refused, or the opening of the index by
a new object, which is used also when the flush at its end fails. -/
inductive Happens (before : KvIndex) : Event → KvIndex → Prop where
  | call {op : Op} {outcome : Except Stop (Option (List UInt8))} {after : KvIndex} (met : before.Coherent op)
      (turn : Turn before op outcome after) : Happens before (.call op outcome) after
  | refuse {os : OsCall → Nat → Bool} (serves : { before.dbf with os := os }.Serves) :
      Happens before .refuse { before with dbf := { before.dbf with os := os } }
  | reopen {host : Host} {create : Bool} {dbName : List UInt8} {fileId pid : Int} {pidExists : Int → Bool}
      {opened flushed : DataFile} {outcome : Except Stop Unit} (junk : Nat → Mem) (serves : (before.dbf.reopened host).Serves)
      (opens : World.openObject true create dbName fileId pid pidExists (before.dbf.reopened host) = (.ok (), opened))
      (flushes : flushBlocks opened = (outcome, flushed)) : Happens before .reopen (.opened flushed junk)

/-- The map an index is for. A call that fails may have had its effect. -/
inductive Shown (values : Values) : Event → Values → Prop where
  | set {key value : Buf} {outcome : Except Stop (Option (List UInt8))} (ended : outcome = .ok none ∨ outcome = .error .failed) :
      Shown values (.call (.set key value) outcome) (Function.update values key.toList value.toList)
  | get {key : Buf} {outcome : Except Stop (Option (List UInt8))} (ended : (∃ found, outcome = .ok found ∧
      found.getD [] = values key.toList) ∨ outcome = .error .failed) : Shown values (.call (.get key) outcome) values
  | del {key : Buf} {outcome : Except Stop (Option (List UInt8))} (ended : outcome = .ok none ∨ outcome = .error .failed) :
      Shown values (.call (.del key) outcome) (Function.update values key.toList [])
  | refuse : Shown values .refuse values
  | reopen : Shown values .reopen values

/-- What a call makes of the value of a key. -/
def Event.writes (key : List UInt8) : Event → Option (List UInt8)
  | .call (.set other value) _ => if other.toList = key then some value.toList else none
  | .call (.del other) _ => if other.toList = key then some [] else none
  | _ => none

/-- The value of the last `set` of a key, empty when there is none or a `del` came after it. -/
def lastValue (key : List UInt8) (events : List Event) : List UInt8 :=
  (events.filterMap (Event.writes key)).getLast?.getD []

variable {file : DataFile} {junk : Nat → Mem} {index before after : KvIndex} {key value : Buf} {op : Op}
  {outcome : Except Stop (Option (List UInt8))} {values values' : Values} {event : Event}

/-- A coherent call on an index that has these values. -/
theorem Turn.shows (turn : Turn before op outcome after) (stands : before.Stands values) (met : before.Coherent op) :
    ∃ values', Shown values (.call op outcome) values' ∧ after.Stands values' := by
  cases op with
  | set key value =>
    have holds : wp (serve (.set key value)) (fun result after => result = none ∧
        Leaves (Function.update values key.toList value.toList) after)
        (fun reason after => (reason = .failed ∨ after.dbf.toFile.Outgrown) ∧
          Leaves (Function.update values key.toList value.toList) after) before :=
      wp_bind (set_stands stands met turn.small.2) fun _ _ leaves => wp_pure ⟨rfl, leaves⟩
    rcases holds.run turn.run with ⟨_, rfl, rfl, leaves⟩ | ⟨_, rfl, ended, leaves⟩
    · exact ⟨_, .set (.inl rfl), leaves.resolve_right turn.bounded⟩
    · obtain rfl := ended.resolve_right turn.bounded
      exact ⟨_, .set (.inr rfl), leaves.resolve_right turn.bounded⟩
  | del key =>
    have short : key.len < 2 ^ 15 := turn.small
    have holds : wp (serve (.del key)) (fun result after => result = none ∧
        Leaves (Function.update values key.toList []) after)
        (fun reason after => (reason = .failed ∨ after.dbf.toFile.Outgrown) ∧
          Leaves (Function.update values key.toList []) after) before :=
      wp_bind (del_stands stands met (by omega)) fun _ _ leaves => wp_pure ⟨rfl, leaves⟩
    rcases holds.run turn.run with ⟨_, rfl, rfl, leaves⟩ | ⟨_, rfl, ended, leaves⟩
    · exact ⟨_, .del (.inl rfl), leaves.resolve_right turn.bounded⟩
    · obtain rfl := ended.resolve_right turn.bounded
      exact ⟨_, .del (.inr rfl), leaves.resolve_right turn.bounded⟩
  | get key =>
    have short : key.len < 2 ^ 15 := turn.small
    rcases (get_stands stands met (by omega)).run turn.run with ⟨found, rfl, same, stands', _⟩ | ⟨_, rfl, rfl, stands', _⟩
    · exact ⟨values, .get (.inl ⟨_, rfl, same⟩), stands'⟩
    · exact ⟨values, .get (.inr rfl), stands'⟩

/-- Whatever callers see of an index, they would see of its map. -/
theorem simulates : Simulates Happens Shown Stands := by
  intro before values event after stands happens
  cases happens with
  | call met turn =>
    obtain ⟨values', step, later⟩ := turn.shows stands met
    exact ⟨values', step, later⟩
  | refuse serves => exact ⟨values, .refuse, Holds.quiet stands ⟨rfl, rfl, fun _ => serves, id⟩⟩
  | reopen junk serves opens flushes =>
    obtain ⟨rows, tree, disk, roomy, same⟩ := stands
    rcases openObject_serves _ _ _ _ _ disk serves with ⟨⟨_, refused⟩, _⟩ | ⟨_, ran, disk', _⟩
    · cases refused.symm.trans opens
    · obtain rfl := congrArg Prod.snd (ran.symm.trans opens)
      obtain ⟨_, _, flushed, quiet, _⟩ := flushBlocks_ready disk'.storing.ready
      obtain ⟨rfl, rfl⟩ := Prod.mk.inj (flushed.symm.trans flushes)
      exact ⟨values, .reopen, rows, tree, disk'.quiet quiet, roomy, same⟩

theorem Shown.writes (shown : Shown values event values') (key : List UInt8) :
    values' key = (event.writes key).getD (values key) := by
  cases shown with
  | @set other value | @del other =>
    simp only [Event.writes]
    by_cases same : other.toList = key
    · subst same
      simp
    · rw [if_neg same, Function.update_of_ne (Ne.symm same)]
      rfl
  | get | refuse | reopen => rfl

theorem fresh_stands (fresh : Fresh file) (junk : Nat → Mem) : (KvIndex.opened file junk).Stands fun _ => [] := fresh.holds

/-- In a run of coherent calls from a new index every `get` that returns answers with the value of the
last `set` of its key, whatever was refused and opened again in between. -/
theorem remembers {earlier later : List Event} {last : KvIndex} (fresh : Fresh file) (junk : Nat → Mem)
    (trace : Trace Happens (.opened file junk) (earlier ++ .call (.get key) outcome :: later) last) :
    (∃ found, outcome = .ok found ∧ found.getD [] = lastValue key.toList earlier) ∨ outcome = .error .failed := by
  obtain ⟨_, shown, _⟩ := simulates.trace (fresh_stands fresh junk) trace
  obtain ⟨values, before, after⟩ := shown.split
  have value : values key.toList = lastValue key.toList earlier :=
    before.last_write fun shown => shown.writes key.toList
  cases after with
  | next first _ =>
    cases first with
    | get ended => exact value ▸ ended

/-- A new index whose cache lies in zeroed memory. -/
def startIndex : KvIndex := .opened start fun _ _ => 0

theorem startIndex_dbf : startIndex.dbf = start := by
  simp only [startIndex, opened]

/-- The index after one more call. -/
def served (index : KvIndex) (op : Op) : KvIndex := (serve op index).2

/-- An index opened again by a process to which every call of the system succeeds. -/
def openedAgain (index : KvIndex) : Except Stop Unit × DataFile :=
  World.openObject true true [] 1 2 (fun _ => false) (index.dbf.reopened index.dbf.toHost)

/-- The same behind the flush, again with a cache in zeroed memory. -/
def again (index : KvIndex) : KvIndex := .opened (flushBlocks (openedAgain index).2).2 fun _ _ => 0

theorem again_happens (stands : index.Stands values) (opens : (openedAgain index).1 = .ok ()) :
    Happens index .reopen (again index) := by
  obtain ⟨rows, tree, disk, _⟩ := stands
  exact .reopen (fun _ _ => 0) disk.storing.ready.serves (run_of_fst opens) Prod.mk.eta.symm

theorem served_happens (met : index.Coherent op) (small : op.Small) (ran : (serve op index).1 = outcome)
    (bounded : ¬ (served index op).dbf.toFile.Outgrown) : Happens index (.call op outcome) (served index op) :=
  .call met ⟨small, run_of_fst ran, bounded⟩

/-- The key 98 in the root. -/
private def firstSet : KvIndex := served startIndex (.set (Buf.ofList [98]) (Buf.ofList [1]))

/-- The key 97 in a node below. -/
private def secondSet : KvIndex := served firstSet (.set (Buf.ofList [97]) (Buf.ofList [2]))

/-- The key 98 with another value, after the index was opened again. -/
private def thirdSet : KvIndex := served (again secondSet) (.set (Buf.ofList [98]) (Buf.ofList [3]))

private theorem first_happens : Happens startIndex (.call (.set (Buf.ofList [98]) (Buf.ofList [1])) (.ok none)) firstSet := by
  refine served_happens ⟨fun rows tree spot disk walk => ?_, by decide +kernel⟩ (by decide) (by decide +kernel) (by decide +kernel)
  rw [startIndex_dbf] at disk
  rw [start_ends disk walk]
  exact ⟨start_unfreed disk _, show (12 + 1 : Int) ≤ freeSpace [] by decide, rfl⟩

private theorem second_happens : Happens firstSet (.call (.set (Buf.ofList [97]) (Buf.ofList [2])) (.ok none)) secondSet := by
  have read : (getNode (2 : Nat) firstSet.dbf).1.map nodeRecords = .ok [⟨[98], 0, some ⟨2, 0⟩⟩] := by decide +kernel
  refine served_happens ⟨fun rows tree spot disk walk => ?_, by decide +kernel⟩ (by decide) (by decide +kernel) (by decide +kernel)
  have root := node_read disk disk.disk.ordered.rooted read
  have ends : Walk tree [97] 2 (.gap 2 [] ⟨[98], 0, some ⟨2, 0⟩⟩ []) := .gap root (by simp) (by decide) rfl
  rw [walk.unique ends]
  exact ⟨.node root (by simp) (by simp), show (12 + 1 : Int) ≤ freeSpace [] by decide, rfl⟩

private theorem third_happens :
    Happens (again secondSet) (.call (.set (Buf.ofList [98]) (Buf.ofList [3])) (.ok none)) thirdSet := by
  have read : (getNode (2 : Nat) (again secondSet).dbf).1.map nodeRecords = .ok [⟨[98], 4, some ⟨2, 0⟩⟩] := by
    decide +kernel
  have child : (getNode (4 : Nat) (again secondSet).dbf).1.map nodeRecords = .ok [⟨[97], 0, some ⟨4, 0⟩⟩] := by
    decide +kernel
  have whole : (again secondSet).dbf.leftover stepBound ⟨2, 0⟩ 1 = 0 := by decide +kernel
  refine served_happens ⟨fun rows tree spot disk walk => ?_, by decide +kernel⟩ (by decide) (by decide +kernel) (by decide +kernel)
  have root := node_read disk disk.disk.ordered.rooted read
  have ends : Walk tree [98] 2 (.held 2 [] ⟨[98], 4, some ⟨2, 0⟩⟩ []) := .held root (by simp) rfl
  rw [walk.unique ends]
  refine ⟨.node root (by simp) fun record member _ above => ?_, trivial, whole⟩
  rw [List.mem_singleton.mp member] at above
  exact absurd above (by decide)

/-- Two keys are set, and one of them once more after the index was opened again. -/
def setsAcross : List Event := [.call (.set (Buf.ofList [98]) (Buf.ofList [1])) (.ok none),
  .call (.set (Buf.ofList [97]) (Buf.ofList [2])) (.ok none), .reopen, .call (.set (Buf.ofList [98]) (Buf.ofList [3])) (.ok none)]

theorem set_again_remembers : ∃ last, Trace Happens startIndex
    (setsAcross ++ [.call (.get (Buf.ofList [98])) (.ok (some [3]))]) last ∧ lastValue [98] setsAcross = [3] := by
  have begun : startIndex.Stands fun _ => [] := fresh_stands start_fresh _
  obtain ⟨_, _, stands⟩ := simulates begun first_happens
  obtain ⟨_, _, stands⟩ := simulates stands second_happens
  have opens : (openedAgain secondSet).1 = .ok () := by decide +kernel
  have missed : (cacheGet (Buf.ofList [98]) thirdSet).1 = .ok (none, 0) := by decide +kernel
  have found : (serve (.get (Buf.ofList [98])) thirdSet).1 = .ok (some [3]) := by decide +kernel
  have clear : thirdSet.Coherent (.get (Buf.ofList [98])) := ⟨none, 0, _, run_of_fst missed, .inl rfl⟩
  have last := served_happens clear (by decide) found (by decide +kernel)
  have trace : Trace Happens startIndex (setsAcross ++ .call (.get (Buf.ofList [98])) (.ok (some [3])) :: []) _ :=
    .next first_happens (.next second_happens (.next (again_happens stands opens) (.next third_happens (.next last (.done _)))))
  refine ⟨_, trace, ?_⟩
  rcases remembers start_fresh _ trace with ⟨found, same, value⟩ | failed
  · cases same
    exact value.symm
  · cases failed

end Cache.KvIndex

end Pingkv
