import Pingkv.Conf.Passes
import Pingkv.Lib.LastWrite

/-! What the lines of a configuration file mean for a server, and when `read_conf`
makes just that of them. -/

namespace Pingkv

namespace KvConf

open Exec

variable {lines : List Text} {id : Int} {entries : List (Text × Text)} {pv : Text × Text} {v : Text} {param : Param}

/-- The value that a line gives a parameter. -/
def valueOf (param : Param) (pv : Text × Text) : Option Text := if pv.1 = param.name then some pv.2 else none

/-- The value of the last line for a parameter. -/
def lastValue (param : Param) (entries : List (Text × Text)) : Option Text := (entries.filterMap (valueOf param)).getLast?

/-- The value that counts for a server: that of its own last line for the parameter, or
else that of the last `all.` line for it, wherever these stand. -/
def said (lines : List Text) (id : Int) (param : Param) : Option Text :=
  (lastValue param (serverLines lines id)).or (lastValue param (allLines lines))

/-- `create_file` means true for yes, YES, Yes or a positive number, and false for any other value. -/
def meansCreate (v : Text) : Bool := isYes v || isNum v && 0 < number v

/-- The record that the lines mean for a server. A number means itself, a size its bytes. -/
def meant (lines : List Text) (id : Int) : KvConfData :=
  let default : KvConfData := {}
  { serverId := (said lines id .serverId).elim default.serverId fun v => number v
    dbName := (said lines id .dbName).elim default.dbName fun v => v
    ip := (said lines id .ip).elim default.ip fun v => v
    port := (said lines id .port).elim default.port fun v => number v
    createFile := (said lines id .createFile).elim default.createFile meansCreate
    filePath := (said lines id .filePath).elim default.filePath fun v => v
    serverCount := (said lines id .serverCount).elim default.serverCount fun v => number v
    fileCount := (said lines id .fileCount).elim default.fileCount fun v => number v
    lruCacheSize := (said lines id .lruCacheSize).elim default.lruCacheSize fun v => sizeInBytes v
    lruMaxElemSize := (said lines id .lruMaxElemSize).elim default.lruMaxElemSize fun v => sizeInBytes v }

/-- The values of `create_file` for a server, in the order in which they are set. -/
def createValues (lines : List Text) (id : Int) : List Text :=
  (allLines lines ++ serverLines lines id).filterMap (valueOf .createFile)

/-- The values that the branch for `create_file` acts on. -/
def decides (v : Text) : Bool := isYes v || isNum v

/-- The last value is a yes, or a number that does not turn from positive to something else
as an `int`, or some other one behind a last yes or number that was a number below one. -/
def CreateClear (values : List Text) : Prop := ∀ v, values.getLast? = some v →
  isYes v ∨ isNum v ∧ (number v = 0 ∨ 0 < atoi v) ∨
    decides v = false ∧ ∃ w, (values.filter decides).getLast? = some w ∧ isYes w = false ∧ atoi w ≤ 0

/-- The numbers and sizes that count fit an `int`, and `create_file` is clear. -/
structure Clear (lines : List Text) (id : Int) : Prop where
  numbers : ∀ param ∈ Param.numbers, ∀ v, said lines id param = some v → number v < 2 ^ 31
  sizes : ∀ param ∈ Param.sizes, ∀ v, said lines id param = some v → sizeInBytes v < 2 ^ 31
  createFile : CreateClear (createValues lines id)

theorem apply_taken {conf : KvConfData} (named : pv.1 = param.name) (takes : param.Takes pv.2) :
    apply conf pv = param.assign pv.2 conf := by
  rcases conf.setServerParam_name param pv.2 with ⟨_, ran⟩ | ⟨refused, _⟩
  · rw [apply, named, ran, Option.getD_some]
  · exact absurd takes refused

theorem valueOf_name {other : Param} (named : pv.1 = other.name) :
    valueOf param pv = if other = param then some pv.2 else none := by
  rw [valueOf, named]
  by_cases same : other = param
  · rw [if_pos same, if_pos (congrArg Param.name same)]
  · rw [if_neg same, if_neg fun equal => same (Param.name_injective equal)]

/-- The last line for a parameter decides about a field that each of them sets. -/
theorem record_field {α : Type} {view : KvConfData → α} {meaning : Text → α}
    (taken : ∀ pv ∈ allLines lines ++ serverLines lines id, Taken pv)
    (sets : ∀ other v conf, view (Param.assign v conf other) = if other = param then meaning v else view conf) :
    view ((allLines lines ++ serverLines lines id).foldl apply {}) =
      (said lines id param).elim (view {}) meaning := by
  have writes : Writes apply view (fun pv => (valueOf param pv).map meaning)
      (allLines lines ++ serverLines lines id) := by
    intro pv member conf
    obtain ⟨other, named, takes⟩ := taken pv member
    dsimp only
    rw [apply_taken named takes, sets, valueOf_name named]
    split <;> rfl
  rw [writes.said, List.filterMap_append, List.getLast?_append]
  rfl

theorem said_taken (taken : ∀ pv ∈ allLines lines ++ serverLines lines id, Taken pv)
    (counts : said lines id param = some v) : param.Takes v := by
  have last : ((allLines lines ++ serverLines lines id).filterMap (valueOf param)).getLast? = some v := by
    rw [List.filterMap_append, List.getLast?_append]
    exact counts
  obtain ⟨pv, member, value⟩ := List.mem_filterMap.mp (List.mem_of_getLast? last)
  obtain ⟨other, named, takes⟩ := taken pv member
  rw [valueOf_name named] at value
  split at value
  · cases value
    subst other
    exact takes
  · cases value

private theorem elim_eq_iff {α : Type} {counts : Option Text} {default : α} {first second : Text → α} :
    counts.elim default first = counts.elim default second ↔ ∀ v, counts = some v → first v = second v := by
  cases counts <;> simp

/-- What the branch for `create_file` sets. -/
def createEffect (v : Text) : Option Bool := if decides v then some (isYes v || 0 < atoi v) else none

theorem setCreateFile_eq (conf : KvConfData) (v : Text) :
    conf.setCreateFile v = { conf with createFile := (createEffect v).getD conf.createFile } := by
  unfold KvConfData.setCreateFile createEffect decides
  by_cases yes : isYes v = true
  · simp [yes]
  · by_cases num : isNum v = true
    · by_cases positive : atoi v > 0 <;> simp [yes, num, positive]
    · simp [yes, num]

private theorem createEffects (values : List Text) :
    values.filterMap createEffect = (values.filter decides).map fun v => isYes v || 0 < atoi v := by
  induction values with
  | nil => rfl
  | cons v rest ih =>
    cases acts : decides v <;> simp [createEffect, acts, ih]

/-- `create_file` comes out as it is meant exactly when its values are clear. -/
theorem create_iff (values : List Text) :
    (values.filterMap createEffect).getLast?.getD true = values.getLast?.elim true meansCreate ↔ CreateClear values := by
  rcases List.eq_nil_or_concat values with rfl | ⟨before, v, rfl⟩
  · simp [CreateClear]
  have last : (before ++ [v]).getLast? = some v := List.getLast?_concat
  unfold CreateClear
  rw [List.concat_eq_append, createEffects, last]
  simp only [Option.some.injEq, forall_eq', Option.elim_some]
  cases acts : decides v with
  | true =>
    rw [List.filter_append, List.filter_cons_of_pos acts, List.filter_nil, List.map_append, List.map_singleton,
      List.getLast?_concat, Option.getD_some, meansCreate]
    cases yes : isYes v with
    | true => simp
    | false =>
      have num : isNum v = true := by simpa [decides, yes] using acts
      have zero := atoi_zero num
      simp only [num, Bool.false_or, Bool.true_and, decide_eq_decide]
      grind
  | false =>
    have same : (before ++ [v]).filter decides = before.filter decides := by simp [acts]
    obtain ⟨yes, num⟩ : isYes v = false ∧ isNum v = false := by simpa [decides] using acts
    rw [same, List.getLast?_map]
    cases ends : (before.filter decides).getLast? with
    | none => simp [meansCreate, yes, num]
    | some w => simp [meansCreate, yes, num]

/-- The values of `create_file` decide about the field. -/
theorem record_create (taken : ∀ pv ∈ allLines lines ++ serverLines lines id, Taken pv) :
    ((allLines lines ++ serverLines lines id).foldl apply {}).createFile =
      ((createValues lines id).filterMap createEffect).getLast?.getD true := by
  have writes : Writes apply KvConfData.createFile (fun pv => (valueOf .createFile pv).bind createEffect)
      (allLines lines ++ serverLines lines id) := by
    intro pv member conf
    obtain ⟨other, named, takes⟩ := taken pv member
    dsimp only
    rw [apply_taken named takes, valueOf_name named]
    cases other
    case createFile => exact congrArg KvConfData.createFile (setCreateFile_eq conf pv.2)
    all_goals rfl
  rw [writes.foldl, createValues, List.filterMap_filterMap]

private theorem said_create : (createValues lines id).getLast? = said lines id .createFile := by
  rw [createValues, List.filterMap_append, List.getLast?_append]
  rfl

/-- The record that the passes make of the values that count. -/
theorem record_eq (taken : ∀ pv ∈ allLines lines ++ serverLines lines id, Taken pv) :
    (allLines lines ++ serverLines lines id).foldl apply {} = {
      serverId := (said lines id .serverId).elim 0 atoi
      dbName := (said lines id .dbName).elim [] fun v => v
      ip := (said lines id .ip).elim [] fun v => v
      port := (said lines id .port).elim 7000 atoi
      createFile := ((createValues lines id).filterMap createEffect).getLast?.getD true
      filePath := (said lines id .filePath).elim [] fun v => v
      serverCount := (said lines id .serverCount).elim 1 atoi
      fileCount := (said lines id .fileCount).elim 1 atoi
      lruCacheSize := (said lines id .lruCacheSize).elim (1024 * 1024 * 10) strToBytes
      lruMaxElemSize := (said lines id .lruMaxElemSize).elim (1024 * 256) strToBytes } := by
  apply KvConfData.ext
  case createFile => exact record_create taken
  all_goals exact record_field taken fun other v conf => by cases other <;> simp [Param.assign, setCreateFile_eq]

/-- A number that counts comes out as itself exactly when it fits. -/
theorem numbers_iff (taken : ∀ pv ∈ allLines lines ++ serverLines lines id, Taken pv) (numeric : param ∈ Param.numbers)
    (default : Int) : (said lines id param).elim default atoi = (said lines id param).elim default (fun v => (number v : Int)) ↔
      ∀ v, said lines id param = some v → number v < 2 ^ 31 := by
  have num (v : Text) (takes : param.Takes v) : isNum v = true := by
    simp only [Param.numbers, List.mem_cons, List.not_mem_nil, or_false] at numeric
    rcases numeric with rfl | rfl | rfl | rfl <;> exact takes.1
  rw [elim_eq_iff]
  exact forall₂_congr fun v counts => atoi_eq_iff (num v (said_taken taken counts))

theorem sizes_iff (taken : ∀ pv ∈ allLines lines ++ serverLines lines id, Taken pv) (sized : param ∈ Param.sizes)
    (default : Int) : (said lines id param).elim default strToBytes =
      (said lines id param).elim default (fun v => (sizeInBytes v : Int)) ↔
      ∀ v, said lines id param = some v → sizeInBytes v < 2 ^ 31 := by
  have size (v : Text) (takes : param.Takes v) : 0 ≤ strToBytes v := by
    simp only [Param.sizes, List.mem_cons, List.not_mem_nil, or_false] at sized
    rcases sized with rfl | rfl <;> exact takes
  rw [elim_eq_iff]
  exact forall₂_congr fun v counts => strToBytes_eq_iff (size v (said_taken taken counts))

/-- After the first `read_conf` of an accepted file each field of a server is what the last
line for it means exactly when the numbers fit and `create_file` is clear. -/
theorem readConf_meant_iff {after : KvConf} (plain : ∀ line ∈ lines, Plain line)
    (accepted : readConf (some (unlines lines)) {} = (.ok (), after)) (named : serverLines lines id ≠ []) :
    getServerConf after id = some (meant lines id) ↔ Clear lines id := by
  obtain ⟨taken, made⟩ := readConf_record plain accepted named
  have create := create_iff (createValues lines id)
  rw [said_create] at create
  rw [getServerConf, made, Option.some.injEq, record_eq taken, KvConfData.ext_iff]
  constructor
  · rintro ⟨first, -, -, second, yes, -, third, fourth, fifth, sixth⟩
    refine ⟨List.forall_mem_cons.mpr ⟨?_, List.forall_mem_cons.mpr ⟨?_, List.forall_mem_cons.mpr ⟨?_,
      List.forall_mem_singleton.mpr ?_⟩⟩⟩, List.forall_mem_cons.mpr ⟨?_, List.forall_mem_singleton.mpr ?_⟩, create.mp yes⟩
    · exact (numbers_iff taken (by decide) _).mp first
    · exact (numbers_iff taken (by decide) _).mp second
    · exact (numbers_iff taken (by decide) _).mp third
    · exact (numbers_iff taken (by decide) _).mp fourth
    · exact (sizes_iff taken (by decide) _).mp fifth
    · exact (sizes_iff taken (by decide) _).mp sixth
  · rintro ⟨numbers, sizes, clear⟩
    have number {param : Param} (numeric : param ∈ Param.numbers) := (numbers_iff taken numeric · |>.mpr (numbers _ numeric))
    have size {param : Param} (sized : param ∈ Param.sizes) := (sizes_iff taken sized · |>.mpr (sizes _ sized))
    exact ⟨number (by decide) _, rfl, rfl, number (by decide) _, create.mpr clear, rfl, number (by decide) _,
      number (by decide) _, size (by decide) _, size (by decide) _⟩

/-- The lines of `testdb.conf`. -/
def testdb : List Text := [
  ascii "local.server_id = 0",
  ascii "",
  ascii "all.db_name           = testdb",
  ascii "all.server_count      = 1",
  ascii "all.file_count        = 4",
  ascii "all.lru_cache_size    = 16m",
  ascii "all.lru_max_elem_size = 2k",
  ascii "all.create_file       = yes",
  ascii "",
  ascii "server.0.db_name = testdb",
  ascii "server.0.ip               = 192.168.1.2   ",
  ascii "server.0.port             = 4444 ",
  ascii "server.0.file_path        = /tmp/testdb/serv0",
  ascii ""]

theorem testdb_meant : Clear testdb 0 := by
  have returned : (readConf (some (unlines testdb)) {}).1 = .ok () := by decide +kernel
  exact (readConf_meant_iff (by decide +kernel) (run_of_fst returned) (by decide +kernel)).mp (by decide +kernel)

-- The byte that `_load_conf` cuts off is the newline only where there is one.
example : getServerConf (readConf (some (ascii "server.1.port = 7001")) {}).2 1 = some { port := 700 } := by decide

/-- A server for which `create_file` is `no` creates its file. -/
theorem no_means_true : ∃ lines id after, (∀ line ∈ lines, Plain line) ∧
    readConf (some (unlines lines)) {} = (.ok (), after) ∧ serverLines lines id ≠ [] ∧
    getServerConf after id ≠ some (meant lines id) := by
  have returned : (readConf (some (unlines [ascii "server.1.create_file = no"])) {}).1 = .ok () := by decide
  exact ⟨[ascii "server.1.create_file = no"], 1, _, by decide, run_of_fst returned, by decide, by decide⟩

end KvConf

end Pingkv
