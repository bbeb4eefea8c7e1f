import Pingkv.Index.Run

/-! What runs on an index keep: the values of other keys, the end of every node,
and what `_del` leaves of a key. -/

namespace Pingkv

open SearchTree

namespace KvIndex

open Exec DataFile

variable {file after : DataFile} {rows rows' : Rows} {tree tree' : Tree} {key value other : Buf}
  {spot spot' : Spot Key Slot} {op : Op} {outcome : Except Stop (Option Buf)}

/-- `_get` answers alike where the search ends alike. -/
theorem answers_congr (index : Index file rows tree) (walk : Walk tree key.toList 2 spot) (index' : Index after rows' tree')
    (walk' : Walk tree' key.toList 2 spot') (small : key.len < 2 ^ 32) (passed : spot'.passed = spot.passed)
    (same : stored rows' spot' = stored rows spot) : answers key after = answers key file := by
  have alike : Clears spot' ↔ Clears spot := by rw [clears_iff, clears_iff, passed]
  by_cases full : key.len ≤ 8124 ∧ ¬ Clears spot
  · rw [answers_full index walk full.1 full.2, answers_full index' walk' full.1 (mt alike.mp full.2)]
  · have clears : key.len ≤ 8124 → Clears spot := fun short => not_not.mp fun not => full ⟨short, not⟩
    rw [answers_lookup index walk small clears, answers_lookup index' walk' small fun short => alike.mpr (clears short),
      lookup_walk walk, lookup_walk walk', same]

theorem Roomy.erase {before later : List Record} {record : Record} (roomy : Roomy tree)
    (node : tree 2 = some (before ++ record :: later)) :
    Roomy (replace tree 2 before { record with value := none } later) := by
  intro id records present
  by_cases same : id = 2
  · subst same
    rw [replace_same, Option.some.injEq] at present
    have space := roomy 2 _ node
    rw [← present]
    simpa [freeSpace, recordLen] using space
  · rw [replace_ne same] at present
    exact roomy id records present

/-- A deletion leaves the answers for other keys. -/
theorem Erased.answers (erased : Erased rows tree spot rows' tree') (index : Index file rows tree)
    (index' : Index after rows' tree') (walk : Walk tree key.toList 2 spot) (small : other.len < 2 ^ 32)
    (different : other.toList ≠ key.toList) : answers other after = answers other file := by
  obtain ⟨ends, walk'⟩ := index.walk other.toList
  cases erased with
  | other => exact answers_congr index walk' index' walk' small rfl rfl
  | root named =>
    obtain ⟨node, _, same⟩ := walk.here
    obtain ⟨ends', walk'', _, passed⟩ := value_walk none walk' node fun equal => different (equal.symm.trans same)
    refine answers_congr index walk' index' walk'' small passed ?_
    rw [← lookup_walk walk'', ← lookup_walk walk', lookup_erase index walk named, Function.update_of_ne different]

/-- A set meets no record that lost its value, and leaves twelve bytes behind the record it appends. -/
def Spares (file : DataFile) : Op → Prop
  | .set key _ => AtEnd file key fun _ tree spot => Unfreed tree key.toList 2 ∧ RoomFor key.len spot
  | _ => True

private theorem Reached.roomy (reached : Reached Spares file) : ∃ rows tree, Index file rows tree ∧ Roomy tree := by
  refine reached.index Roomy rootTree_roomy fun {file after rows tree op outcome} index roomy met step => ?_
  cases op with
  | set key value =>
    obtain ⟨spot, walk⟩ := index.walk key.toList
    obtain ⟨unfreed, room⟩ := met rows tree spot index walk
    obtain ⟨_, rows', tree', row, done⟩ := step.of_set index walk unfreed room.accepts
    exact ⟨rows', tree', done.index, done.roomy walk room roomy⟩
  | get key =>
    obtain ⟨spot, walk⟩ := index.walk key.toList
    obtain ⟨_, _, index'⟩ := step.of_get index walk fun _ => roomy.clears walk
    exact ⟨rows, tree, index', roomy⟩
  | del key =>
    obtain ⟨spot, walk⟩ := index.walk key.toList
    obtain ⟨_, rows', tree', index', erased⟩ := step.of_del index walk fun _ _ => roomy.clears walk
    cases erased with
    | other => exact ⟨rows, tree, index', roomy⟩
    | root named => exact ⟨_, _, index', roomy.erase walk.here.1⟩

/-- In a run whose sets meet no freed record and leave room, one more such set
leaves the answers for all other keys, and every node with as many records as it counts. -/
theorem Reached.set_keeps (reached : Reached Spares file) (met : Spares file (.set key value))
    (step : Step file (.set key value) outcome after) :
    (∀ other : Buf, other.len < 2 ^ 15 → other.toList ≠ key.toList → answers other after = answers other file) ∧
      ∃ rows tree, Index after rows tree := by
  obtain ⟨rows, tree, index, roomy⟩ := reached.roomy
  obtain ⟨spot, walk⟩ := index.walk key.toList
  obtain ⟨unfreed, room⟩ := met rows tree spot index walk
  obtain ⟨_, rows', tree', row, done⟩ := step.of_set index walk unfreed room.accepts
  have roomy' := done.roomy walk room roomy
  refine ⟨fun other short different => ?_, rows', tree', done.index⟩
  obtain ⟨ends, walk'⟩ := index.walk other.toList
  obtain ⟨ends', walk''⟩ := done.index.walk other.toList
  rw [answers_lookup index walk' (by omega) fun _ => roomy.clears walk',
    answers_lookup done.index walk'' (by omega) fun _ => roomy'.clears walk'', done.lookup index walk,
    Function.update_of_ne different]

private theorem third_set : Step twoKeys (.set (Buf.ofList [97, 1]) (Buf.ofList [3])) (.ok none)
    (perform twoKeys (.set (Buf.ofList [97, 1]) (Buf.ofList [3]))) := by
  have returned : (Inner.set (Buf.ofList [97, 1]) (Buf.ofList [3]) twoKeys).1 = .ok () := by decide +kernel
  exact step_set (by decide) returned (by decide +kernel)

private theorem oneKey_unfreed (index : Index oneKey rows tree) (key : Key) : Unfreed tree key 2 :=
  .node (oneKey_root index) (by simp) (by simp)

private theorem twoKeys_unfreed (index : Index twoKeys rows tree) (key : Key) : Unfreed tree key 2 := by
  refine .node (twoKeys_root index) (by simp) fun record member _ _ => ?_
  rw [List.mem_singleton.mp member]
  exact .node (twoKeys_child index) (by simp) (by simp)

theorem third_key_keeps : answers (Buf.ofList [97]) (perform twoKeys (.set (Buf.ofList [97, 1]) (Buf.ofList [3]))) =
    answers (Buf.ofList [97]) twoKeys := by
  have first : Spares start (.set (Buf.ofList [98]) (Buf.ofList [1])) := by
    intro rows tree spot index walk
    rw [start_ends index walk]
    exact ⟨start_unfreed index _, show (12 + 1 : Int) ≤ freeSpace [] by decide⟩
  have second : Spares oneKey (.set (Buf.ofList [97]) (Buf.ofList [1])) := by
    intro rows tree spot index walk
    rw [walk.unique (oneKey_ends index)]
    exact ⟨oneKey_unfreed index _, show (12 + 1 : Int) ≤ freeSpace [] by decide⟩
  have met : Spares twoKeys (.set (Buf.ofList [97, 1]) (Buf.ofList [3])) := by
    intro rows tree spot index walk
    rw [walk.unique (twoKeys_ends index)]
    exact ⟨twoKeys_unfreed index _, show (12 + 2 : Int) ≤ freeSpace [⟨[97], 0, some ⟨4, 0⟩⟩] by decide⟩
  exact (Reached.set_keeps (twoKeys_reached first second) met third_set).1 _ (by decide) (by decide)

/-- A key that was deleted from the root and is set again loses the node on its left. -/
theorem freed_record_loses_left : ∃ file after, Reached (fun _ _ => True) file ∧
    ((getNode 2 >>= fun node => nodeFreeSpace node) file).1 = .ok 8111 ∧
    ((getNode 4 >>= fun node => nodeFreeSpace node) file).1 = .ok 8111 ∧
    Step file (.set (Buf.ofList [98]) (Buf.ofList [1])) (.ok none) after ∧
    answers (Buf.ofList [97]) file = .ok (some [1]) ∧ answers (Buf.ofList [97]) after = .ok none := by
  have deleted : (Inner.del (Buf.ofList [98]) twoKeys).1 = .ok () := by decide +kernel
  have returned : (Inner.set (Buf.ofList [98]) (Buf.ofList [1]) (perform twoKeys (.del (Buf.ofList [98])))).1 = .ok () := by
    decide +kernel
  have third := step_del (by decide) deleted (by decide +kernel)
  have fourth := step_set (by decide) returned (by decide +kernel)
  exact ⟨_, _, .step (twoKeys_reached trivial trivial) trivial third, by decide +kernel, by decide +kernel,
    fourth, by decide +kernel, by decide +kernel⟩

/-- A call finds twelve bytes behind the last record where its search ends there,
with those of the key where it appends one, and sets meet no record that lost its value. -/
def Fits (file : DataFile) : Op → Prop
  | .set key _ => AtEnd file key fun _ tree spot => Unfreed tree key.toList 2 ∧ Accepts key.len spot
  | .get key => AtEnd file key fun _ _ spot => key.len ≤ 8124 → Clears spot
  | .del key => AtEnd file key fun _ _ spot => spot.id = 2 → key.len ≤ 8124 → Clears spot

private theorem Fits.returns (met : Fits file op) (index : Index file rows tree) (step : Step file op outcome after) :
    (∃ result, outcome = .ok result) ∧ ∃ rows' tree', Index after rows' tree' := by
  cases op with
  | set key value =>
    obtain ⟨spot, walk⟩ := index.walk key.toList
    obtain ⟨unfreed, accepts⟩ := met rows tree spot index walk
    obtain ⟨ended, rows', tree', row, done⟩ := step.of_set index walk unfreed accepts
    exact ⟨⟨none, ended⟩, rows', tree', done.index⟩
  | get key =>
    obtain ⟨spot, walk⟩ := index.walk key.toList
    obtain ⟨result, ended, index'⟩ := step.of_get index walk (met rows tree spot index walk)
    exact ⟨⟨result, ended⟩, rows, tree, index'⟩
  | del key =>
    obtain ⟨spot, walk⟩ := index.walk key.toList
    obtain ⟨ended, rows', tree', index', _⟩ := step.of_del index walk (met rows tree spot index walk)
    exact ⟨⟨none, ended⟩, rows', tree', index'⟩

/-- In a run whose calls find room no call touches a byte outside a node: each one returns. -/
theorem Reached.stays_inside (reached : Reached Fits file) (met : Fits file op) (step : Step file op outcome after) :
    ∃ result, outcome = .ok result := by
  obtain ⟨rows, tree, index, _⟩ := reached.index (fun _ => True) trivial fun index _ met step => by
    obtain ⟨_, rows', tree', index'⟩ := met.returns index step
    exact ⟨rows', tree', index', trivial⟩
  exact (met.returns index step).1

theorem third_key_stays_inside : ∃ result,
    ((Op.set (Buf.ofList [97, 1]) (Buf.ofList [3])).run twoKeys).1 = .ok result := by
  have first : Fits start (.set (Buf.ofList [98]) (Buf.ofList [1])) := by
    intro rows tree spot index walk
    rw [start_ends index walk]
    exact ⟨start_unfreed index _, show 16 + 0 + 12 + 1 ≤ 8152 by decide⟩
  have second : Fits oneKey (.set (Buf.ofList [97]) (Buf.ofList [1])) := by
    intro rows tree spot index walk
    rw [walk.unique (oneKey_ends index)]
    exact ⟨oneKey_unfreed index _, show 16 + 12 + 1 ≤ 8152 by decide⟩
  have met : Fits twoKeys (.set (Buf.ofList [97, 1]) (Buf.ofList [3])) := by
    intro rows tree spot index walk
    rw [walk.unique (twoKeys_ends index)]
    exact ⟨twoKeys_unfreed index _, show 16 + span [⟨[97], 0, some ⟨4, 0⟩⟩] + 12 + 2 ≤ 8152 by decide⟩
  obtain ⟨result, ended⟩ := Reached.stays_inside (twoKeys_reached first second) met third_set
  exact ⟨result, by rw [third_set.run, ended]⟩

/-- A second key of 8112 bytes, greater than the first, is written past the end of the root. -/
theorem second_key_past_end : ∃ file after, Reached (fun _ op => op.key.len ≤ 8112) file ∧
    Step file (.set ⟨8112, fun _ => 99⟩ (Buf.ofList [1])) (.error .fault) after := by
  have returned : (Inner.set ⟨8112, fun _ => 98⟩ (Buf.ofList [1]) start).1 = .ok () := by decide +kernel
  have faulted : (Inner.set ⟨8112, fun _ => 99⟩ (Buf.ofList [1])
    (perform start (.set ⟨8112, fun _ => 98⟩ (Buf.ofList [1])))).1 = .error .fault := by decide +kernel
  have first := step_set (by decide) returned (by decide +kernel)
  have second := step_set (by decide) faulted (by decide +kernel)
  exact ⟨_, _, .step (.fresh start_fresh) (by decide) first, second⟩

/-- Sets only, each with room for the record it appends. -/
def Appends (file : DataFile) : Op → Prop
  | .set key _ => AtEnd file key fun _ _ spot => Accepts key.len spot
  | _ => False

private theorem Reached.full (reached : Reached Appends file) : ∃ rows tree, Index file rows tree ∧ Full tree := by
  refine reached.index Full rootTree_full fun {file after rows tree op outcome} index full met step => ?_
  cases op with
  | set key value =>
    obtain ⟨spot, walk⟩ := index.walk key.toList
    obtain ⟨_, rows', tree', row, done⟩ := step.of_set index walk full.unfreed (met rows tree spot index walk)
    exact ⟨rows', tree', done.index, done.full walk full⟩
  | get | del => exact met.elim

/-- A key `_get` finds is held where its search ends. -/
private theorem held_stored {bytes : List UInt8} (index : Index file rows tree) (walk : Walk tree key.toList 2 spot)
    (small : key.len < 2 ^ 32) (held : answers key file = .ok (some bytes)) :
    (key.len ≤ 8124 → Clears spot) ∧ stored rows spot = some bytes := by
  have clears : key.len ≤ 8124 → Clears spot := by
    intro short
    by_contra full
    rw [answers_full index walk short full] at held
    cases held
  rw [answers_lookup index walk small clears, lookup_walk walk] at held
  exact ⟨clears, Except.ok.inj held⟩

theorem stored_some {bytes : List UInt8} (kept : stored rows spot = some bytes) :
    ∃ row, spot.value = some (some row) := by
  unfold stored at kept
  split at kept
  · exact ⟨_, ‹_›⟩
  · cases kept

/-- A key that was deleted is gone, with every other key as it was, exactly when
its record lies in the root or its value was empty. -/
theorem Reached.del_iff {bytes : List UInt8} (reached : Reached Appends file) (held : answers key file = .ok (some bytes))
    (step : Step file (.del key) (.ok none) after) :
    ((∃ left, answers key after = .ok left ∧ left.getD [] = []) ∧
      ∀ other : Buf, other.len < 2 ^ 15 → other.toList ≠ key.toList → answers other after = answers other file) ↔
    AtEnd file key (fun _ _ spot => spot.id = 2) ∨ bytes = [] := by
  have small : key.len < 2 ^ 15 := step.small
  constructor
  · rintro ⟨⟨left, gone, empty⟩, _⟩
    by_contra neither
    obtain ⟨inside, nonempty⟩ := not_or.mp neither
    refine inside fun rows tree spot index walk => ?_
    by_contra below
    obtain ⟨clears, kept⟩ := held_stored index walk (by omega) held
    obtain ⟨last, deleted, quiet⟩ := del_other index walk (by omega) (fun root => absurd root below) fun root => below root.1
    obtain ⟨_, rfl⟩ := Prod.mk.inj (step.run.symm.trans (bind_ok deleted))
    rw [answers_lookup (index.quiet quiet) walk (by omega) clears, lookup_walk walk, kept, Except.ok.injEq] at gone
    rw [← gone] at empty
    exact nonempty empty
  · intro condition
    obtain ⟨rows, tree, index, _⟩ := reached.full
    obtain ⟨spot, walk⟩ := index.walk key.toList
    obtain ⟨clears, kept⟩ := held_stored index walk (by omega) held
    obtain ⟨_, rows', tree', index', erased⟩ := step.of_del index walk fun _ => clears
    refine ⟨?_, fun other short different => erased.answers index index' walk (by omega) different⟩
    cases erased with
    | other outside =>
      refine ⟨some bytes, ?_, ?_⟩
      · rw [answers_lookup index' walk (by omega) clears, lookup_walk walk, kept]
      · rcases condition with root | empty
        · exact absurd ⟨root rows tree spot index walk, stored_some kept⟩ outside
        · simp [empty]
    | root named =>
      refine ⟨none, ?_, rfl⟩
      rw [answers_lookup index' (value_walk_self none walk) (by omega) fun _ => trivial,
        lookup_erase index walk named, Function.update_self]

theorem root_key_del : (∃ left, answers (Buf.ofList [98]) (perform twoKeys (.del (Buf.ofList [98]))) = .ok left ∧
      left.getD [] = []) ∧ ∀ other : Buf, other.len < 2 ^ 15 → other.toList ≠ (Buf.ofList [98]).toList →
        answers other (perform twoKeys (.del (Buf.ofList [98]))) = answers other twoKeys := by
  have first : Appends start (.set (Buf.ofList [98]) (Buf.ofList [1])) := by
    intro rows tree spot index walk
    rw [start_ends index walk]
    exact show 16 + 0 + 12 + 1 ≤ 8152 by decide
  have second : Appends oneKey (.set (Buf.ofList [97]) (Buf.ofList [1])) := by
    intro rows tree spot index walk
    rw [walk.unique (oneKey_ends index)]
    exact show 16 + 12 + 1 ≤ 8152 by decide
  have held : answers (Buf.ofList [98]) twoKeys = .ok (some [1]) := by decide +kernel
  have inRoot : AtEnd twoKeys (Buf.ofList [98]) fun _ _ spot => spot.id = 2 := by
    intro rows tree spot index walk
    have here : Walk tree [98] 2 (.held 2 [] ⟨[98], 4, some ⟨2, 0⟩⟩ []) := .held (twoKeys_root index) (by simp) rfl
    rw [walk.unique here]
    rfl
  have deleted : (Inner.del (Buf.ofList [98]) twoKeys).1 = .ok () := by decide +kernel
  have step := step_del (by decide) deleted (by decide +kernel)
  exact (Reached.del_iff (twoKeys_reached first second) held step).mpr (.inl inRoot)

/-- A key below the root is still there after its deletion. -/
theorem below_root_survives_del : ∃ file after, Reached (fun _ op => ∃ key value, op = .set key value) file ∧
    ((getNode 2 >>= fun node => nodeFreeSpace node) file).1 = .ok 8111 ∧
    ((getNode 4 >>= fun node => nodeFreeSpace node) file).1 = .ok 8111 ∧
    Step file (.del (Buf.ofList [97])) (.ok none) after ∧ answers (Buf.ofList [97]) after = .ok (some [1]) := by
  have deleted : (Inner.del (Buf.ofList [97]) twoKeys).1 = .ok () := by decide +kernel
  have third := step_del (by decide) deleted (by decide +kernel)
  exact ⟨_, _, twoKeys_reached ⟨_, _, rfl⟩ ⟨_, _, rfl⟩, by decide +kernel, by decide +kernel, third,
    by decide +kernel⟩

end KvIndex

end Pingkv
