import Pingkv.Conf.Basic

/-! What the passes over an accepted file leave behind: the global record is made
of all `all.` lines, and each server's record of these and of its own lines. -/

namespace Pingkv

/-- The parameters of a record. -/
inductive Param where
  | serverId | dbName | filePath | ip | port | createFile | serverCount | fileCount | lruCacheSize | lruMaxElemSize
  deriving DecidableEq, Repr

namespace Param

def name : Param → Text
  | serverId => ascii "server_id"
  | dbName => ascii "db_name"
  | filePath => ascii "file_path"
  | ip => ascii "ip"
  | port => ascii "port"
  | createFile => ascii "create_file"
  | serverCount => ascii "server_count"
  | fileCount => ascii "file_count"
  | lruCacheSize => ascii "lru_cache_size"
  | lruMaxElemSize => ascii "lru_max_elem_size"

/-- The parameters that are set to a number. -/
def numbers : List Param := [.serverId, .port, .serverCount, .fileCount]

/-- The parameters that are set to a size. -/
def sizes : List Param := [.lruCacheSize, .lruMaxElemSize]

/-- The values that a parameter takes. -/
def Takes (v : Text) : Param → Prop
  | serverId | port => KvConf.isNum v ∧ 0 ≤ atoi v
  | serverCount | fileCount => KvConf.isNum v ∧ 1 ≤ atoi v
  | dbName | filePath => v.length ≤ 127 ∧ v.length ≠ 0
  | ip => v.length ≤ 15 ∧ 7 ≤ v.length
  | createFile => True
  | lruCacheSize | lruMaxElemSize => 0 ≤ KvConf.strToBytes v

/-- The record with one parameter set. -/
def assign (v : Text) (conf : KvConfData) : Param → KvConfData
  | serverId => { conf with serverId := atoi v }
  | dbName => { conf with dbName := v }
  | filePath => { conf with filePath := v }
  | ip => { conf with ip := v }
  | port => { conf with port := atoi v }
  | createFile => conf.setCreateFile v
  | serverCount => { conf with serverCount := atoi v }
  | fileCount => { conf with fileCount := atoi v }
  | lruCacheSize => { conf with lruCacheSize := KvConf.strToBytes v }
  | lruMaxElemSize => { conf with lruMaxElemSize := KvConf.strToBytes v }

theorem name_injective {param other : Param} (same : param.name = other.name) : param = other := by
  revert same
  cases param <;> cases other <;> decide

end Param

variable {conf after : KvConfData} {p v : Text}

/-- The setter by the name of a parameter. -/
theorem KvConfData.setServerParam_name (conf : KvConfData) (param : Param) (v : Text) :
    param.Takes v ∧ conf.setServerParam param.name v = some (param.assign v conf) ∨
      ¬ param.Takes v ∧ conf.setServerParam param.name v = none := by
  unfold KvConfData.setServerParam
  by_cases takes : param.Takes v
  · refine .inl ⟨takes, ?_⟩
    cases param <;> simp only [Param.Takes] at takes <;> simp [Param.name, Param.assign, takes, ascii]
  · refine .inr ⟨takes, ?_⟩
    cases param
    case createFile => exact absurd trivial takes
    all_goals simpa [Param.name, Param.Takes, ascii] using takes

/-- A setter that returns has set one of the parameters to a value it takes. -/
theorem KvConfData.setServerParam_some (set : conf.setServerParam p v = some after) :
    ∃ param : Param, p = param.name ∧ param.Takes v ∧ after = param.assign v conf := by
  have named : ∃ param : Param, p = param.name := by
    by_contra unnamed
    have other (param : Param) : p ≠ param.name := fun same => unnamed ⟨param, same⟩
    have refused : conf.setServerParam p v = none := by
      rw [KvConfData.setServerParam, if_neg (show p ≠ ascii "server_id" from other .serverId),
        if_neg (show p ≠ ascii "db_name" from other .dbName), if_neg (show p ≠ ascii "file_path" from other .filePath),
        if_neg (show p ≠ ascii "ip" from other .ip), if_neg (show p ≠ ascii "port" from other .port),
        if_neg (show p ≠ ascii "create_file" from other .createFile), if_neg (show p ≠ ascii "server_count" from other .serverCount),
        if_neg (show p ≠ ascii "file_count" from other .fileCount), if_neg (show p ≠ ascii "lru_cache_size" from other .lruCacheSize),
        if_neg (show p ≠ ascii "lru_max_elem_size" from other .lruMaxElemSize)]
    rw [refused] at set
    cases set
  obtain ⟨param, rfl⟩ := named
  rcases conf.setServerParam_name param v with ⟨takes, ran⟩ | ⟨_, refused⟩
  · exact ⟨param, rfl, takes, Option.some.inj (set.symm.trans ran)⟩
  · rw [refused] at set
    cases set

namespace KvConf

open Exec

variable {type : ConfType} {line : Text} {lines : List Text} {before : KvConf} {id : Int}

/-- The parameter and the value in a line with this head. -/
def entry (head line : Text) : Option (Text × Text) :=
  if head.isPrefixOf line then some ((getParamVal line).1.drop head.length, (getParamVal line).2) else none

/-- The `all.` lines. -/
def allLines (lines : List Text) : List (Text × Text) := lines.filterMap (entry (ascii "all."))

def serverEntry (id : Int) (line : Text) : Option (Text × Text) :=
  (entry (ascii "server.") line).bind fun pv =>
    if (splitServidParam pv.1).1 = id then some ((splitServidParam pv.1).2, pv.2) else none

/-- The `server.N` lines of one server. -/
def serverLines (lines : List Text) (id : Int) : List (Text × Text) := lines.filterMap (serverEntry id)

/-- One more line for a record. -/
def apply (conf : KvConfData) (pv : Text × Text) : KvConfData := (conf.setServerParam pv.1 pv.2).getD conf

/-- The `local.` lines. -/
def localLines (lines : List Text) : List (Text × Text) := lines.filterMap (entry (ascii "local."))

/-- A line that a record takes. -/
def Taken (pv : Text × Text) : Prop := ∃ param : Param, pv.1 = param.name ∧ param.Takes pv.2

private theorem syntaxError_stops (line : Text) (conf : KvConf) : ∃ reason, syntaxError line conf = (.error reason, conf) := by
  unfold syntaxError
  split
  · exact ⟨_, rfl⟩
  · exact ⟨_, rfl⟩

/-- A line that is accepted has another head, or was handed to the setter of the pass. -/
theorem loadLine_ok {after : KvConf} (ran : loadLine type line before = (.ok (), after)) :
    entry type.lineHead line = none ∧ after = before ∨
      ∃ pv, entry type.lineHead line = some pv ∧ type.setParam pv.1 pv.2 before = (.ok (), after) := by
  unfold loadLine at ran
  unfold entry
  by_cases head : type.lineHead.isPrefixOf line = true
  · rw [if_pos head] at ran
    refine .inr ⟨_, if_pos head, ?_⟩
    dsimp only at ran ⊢
    split at ran
    · cases ran
    · split at ran
      · obtain ⟨reason, stopped⟩ := syntaxError_stops line before
        rw [bind_error stopped] at ran
        cases ran
      · obtain ⟨outcome, last, attempted, rest⟩ := bind_eq_ok ran
        cases outcome with
        | none =>
          obtain ⟨reason, stopped⟩ := syntaxError_stops line last
          cases stopped.symm.trans rest
        | some =>
          rw [attempt_eq_some attempted]
          exact rest
  · rw [if_neg head] at ran
    exact .inl ⟨if_neg head, (congrArg Prod.snd ran).symm⟩

/-- The global record after an accepted `all.` line. -/
theorem setGlobalParam_ok {after : KvConf} (ran : setGlobalParam p v before = (.ok (), after)) :
    Taken (p, v) ∧ after = { before with globalConf := apply before.globalConf (p, v) } := by
  unfold setGlobalParam at ran
  split at ran
  · cases ran
  · dsimp only at ran
    rw [read_bind_run] at ran
    cases set : before.globalConf.setServerParam p v with
    | none =>
      rw [set] at ran
      cases ran
    | some data =>
      obtain ⟨param, named, takes, _⟩ := KvConfData.setServerParam_some set
      rw [set] at ran
      cases ran
      exact ⟨⟨param, named, takes⟩, by rw [apply, set, Option.getD_some]⟩

/-- The record of a server after an accepted line of it. -/
theorem setServerParam_ok {after : KvConf} (ran : setServerParam p v before = (.ok (), after)) :
    Taken ((splitServidParam p).2, v) ∧ after = { before with
      serverConf := Function.update before.serverConf (splitServidParam p).1 (some (apply
        ((before.serverConf (splitServidParam p).1).getD before.globalConf) ((splitServidParam p).2, v))) } := by
  unfold setServerParam at ran
  generalize splitServidParam p = split at ran ⊢
  obtain ⟨id, param⟩ := split
  split at ran
  · cases ran
  · dsimp only at ran ⊢
    split at ran
    · cases ran
    · rw [read_bind_run, putServer, update_bind_run] at ran
      cases set : ((before.serverConf id).getD before.globalConf).setServerParam param v with
      | none =>
        rw [set] at ran
        cases ran
      | some data =>
        obtain ⟨parameter, named, takes, _⟩ := KvConfData.setServerParam_some set
        rw [set] at ran
        cases ran
        refine ⟨⟨parameter, named, takes⟩, ?_⟩
        simp only [apply, set, Option.getD_some, Function.update_idem]

/-- The number of the local server after a `local.` line. -/
def assignLocal (id : Int) (pv : Text × Text) : Int := if pv.1 = ascii "server_id" then atoi pv.2 else id

theorem setLocalParam_ok {after : KvConf} (ran : setLocalParam p v before = (.ok (), after)) :
    after = { before with localServerId := assignLocal before.localServerId (p, v) } := by
  unfold setLocalParam at ran
  unfold assignLocal
  split at ran
  · cases ran
  · dsimp only at ran ⊢
    split at ran
    · rename_i named
      rw [if_pos named]
      split at ran
      · cases ran
      · rw [update_bind_run] at ran
        split at ran
        · cases ran
        · cases ran
          rfl
    · rename_i other
      rw [if_neg other]
      cases ran
      rfl

/-- The first pass puts all `all.` lines into the global record. -/
theorem allPass {after : KvConf} (ran : lines.forM (loadLine .global) before = (.ok (), after)) :
    (∀ pv ∈ allLines lines, Taken pv) ∧
      after = { before with globalConf := (allLines lines).foldl apply before.globalConf } := by
  induction lines generalizing before with
  | nil =>
    cases ran
    exact ⟨by simp [allLines], rfl⟩
  | cons line rest ih =>
    obtain ⟨_, mid, first, later⟩ := bind_eq_ok ran
    obtain ⟨taken, rfl⟩ := ih later
    rcases loadLine_ok first with ⟨none, rfl⟩ | ⟨pv, found, set⟩
    · rw [show allLines (line :: rest) = allLines rest from List.filterMap_cons_none none]
      exact ⟨taken, rfl⟩
    · obtain ⟨own, rfl⟩ := setGlobalParam_ok set
      rw [show allLines (line :: rest) = pv :: allLines rest from List.filterMap_cons_some found]
      exact ⟨List.forall_mem_cons.mpr ⟨own, taken⟩, rfl⟩

/-- The second pass makes the record of each server that has a line from the global one
and its own lines. -/
theorem serverPass {after : KvConf} (ran : lines.forM (loadLine .server) before = (.ok (), after)) :
    (after.globalConf = before.globalConf ∧ after.localServerId = before.localServerId) ∧
    ∀ id, (∀ pv ∈ serverLines lines id, Taken pv) ∧
      after.serverConf id = if serverLines lines id = [] then before.serverConf id
        else some ((serverLines lines id).foldl apply ((before.serverConf id).getD before.globalConf)) := by
  induction lines generalizing before with
  | nil =>
    cases ran
    exact ⟨⟨rfl, rfl⟩, fun id => ⟨by simp [serverLines], rfl⟩⟩
  | cons line rest ih =>
    obtain ⟨_, mid, first, later⟩ := bind_eq_ok ran
    obtain ⟨same, servers⟩ := ih later
    rcases loadLine_ok first with ⟨none, rfl⟩ | ⟨pv, found, set⟩
    · refine ⟨same, fun id => ?_⟩
      have missing : serverEntry id line = Option.none := by
        rw [serverEntry, show entry (ascii "server.") line = Option.none from none, Option.bind_none]
      rw [show serverLines (line :: rest) id = serverLines rest id from List.filterMap_cons_none missing]
      exact servers id
    · obtain ⟨own, rfl⟩ := setServerParam_ok set
      refine ⟨same, fun id => ?_⟩
      obtain ⟨taken, record⟩ := servers id
      have here : serverEntry id line =
          if (splitServidParam pv.1).1 = id then some ((splitServidParam pv.1).2, pv.2) else none := by
        rw [serverEntry, show entry (ascii "server.") line = some pv from found, Option.bind_some]
      by_cases same : (splitServidParam pv.1).1 = id
      · rw [if_pos same] at here
        rw [show serverLines (line :: rest) id = _ :: serverLines rest id from List.filterMap_cons_some here]
        refine ⟨List.forall_mem_cons.mpr ⟨own, taken⟩, ?_⟩
        subst same
        rw [record, if_neg (List.cons_ne_nil _ _), List.foldl_cons]
        dsimp only
        rw [Function.update_self, Option.getD_some]
        by_cases last : serverLines rest (splitServidParam pv.1).1 = []
        · rw [if_pos last, last, List.foldl_nil]
        · rw [if_neg last]
      · rw [if_neg same] at here
        rw [show serverLines (line :: rest) id = serverLines rest id from List.filterMap_cons_none here]
        refine ⟨taken, ?_⟩
        rw [record]
        dsimp only
        rw [Function.update_of_ne (Ne.symm same)]

/-- The last pass only sets the number of the local server. -/
theorem localPass {after : KvConf} (ran : lines.forM (loadLine .local) before = (.ok (), after)) :
    after = { before with localServerId := (localLines lines).foldl assignLocal before.localServerId } := by
  induction lines generalizing before with
  | nil =>
    cases ran
    rfl
  | cons line rest ih =>
    obtain ⟨_, mid, first, later⟩ := bind_eq_ok ran
    rw [ih later]
    rcases loadLine_ok first with ⟨none, rfl⟩ | ⟨pv, found, set⟩
    · rw [show localLines (line :: rest) = localLines rest from List.filterMap_cons_none none]
    · obtain rfl := setLocalParam_ok set
      rw [show localLines (line :: rest) = pv :: localLines rest from List.filterMap_cons_some found, List.foldl_cons]

/-- A pass over a file takes its lines one after the other, and then what is left. -/
theorem loadLoop_lines (type : ConfType) (plain : ∀ line ∈ lines, Plain line) (tail : Text) :
    ∀ calls, (unlines lines ++ tail).length ≤ calls → ∃ left, tail.length ≤ left ∧
      loadLoop type calls (unlines lines ++ tail) = lines.forM (loadLine type) >>= fun _ => loadLoop type left tail := by
  induction lines with
  | nil => exact fun calls enough => ⟨calls, enough, rfl⟩
  | cons line rest ih =>
    obtain ⟨own, others⟩ := List.forall_mem_cons.mp plain
    have text : unlines (line :: rest) ++ tail = line ++ 10 :: (unlines rest ++ tail) := by
      simp [unlines]
    rintro (_ | calls) enough
    · simp [text] at enough
    · have short := own.short
      have taken := fgets_line own.noNewline (unlines rest ++ tail) (bufSize - 1) (by omega)
      have whole : (line ++ [10]).takeWhile (· ≠ 0) = line ++ [10] := by
        rw [List.takeWhile_append_of_pos]
        · rfl
        · intro byte member
          exact decide_eq_true fun zero => own.noZero (zero ▸ member)
      have enter : loadLoop type (calls + 1) (unlines (line :: rest) ++ tail) =
          loadLine type line >>= fun _ => loadLoop type calls (unlines rest ++ tail) := by
        rw [text]
        obtain ⟨byte, more, same⟩ : ∃ byte more, line ++ 10 :: (unlines rest ++ tail) = byte :: more := by
          cases line <;> exact ⟨_, _, rfl⟩
        rw [same, loadLoop, ← same]
        · simp only [taken, whole, List.dropLast_concat]
          simp
        · simp
      obtain ⟨left, enough, later⟩ := ih others calls (by simp [text] at enough ⊢; omega)
      refine ⟨left, enough, ?_⟩
      rw [enter, later]
      exact (bind_assoc _ _ _).symm

theorem loadConf_lines (type : ConfType) (plain : ∀ line ∈ lines, Plain line) :
    loadConf (unlines lines) type = lines.forM (loadLine type) := by
  obtain ⟨left, _, ran⟩ := loadLoop_lines type plain [] _ (Nat.le_refl _)
  rw [List.append_nil] at ran
  rw [loadConf, ran, loadLoop, bind_pure_unit]

/-- The three passes over the lines of a file. -/
def passes (lines : List Text) : Exec KvConf Unit :=
  [ConfType.global, .server, .local].forM fun type => lines.forM (loadLine type)

theorem passes_three (lines : List Text) : passes lines = (do
    lines.forM (loadLine .global)
    lines.forM (loadLine .server)
    lines.forM (loadLine .local)) := by
  simp only [passes, List.forM_eq_forM, List.forM_cons, List.forM_nil, bind_pure_unit]

/-- The global record made of all `all.` lines. -/
def globalOf (lines : List Text) (before : KvConf) : KvConfData := (allLines lines).foldl apply before.globalConf

/-- The record of a server that has a line is made of the global one and of its own lines. -/
def recordOf (lines : List Text) (before : KvConf) (id : Int) : KvConfData :=
  (serverLines lines id).foldl apply ((before.serverConf id).getD (globalOf lines before))

def serverOf (lines : List Text) (before : KvConf) (id : Int) : Option KvConfData :=
  if serverLines lines id = [] then before.serverConf id else some (recordOf lines before id)

def localOf (lines : List Text) (before : KvConf) : Int := (localLines lines).foldl assignLocal before.localServerId

/-- The object after three passes that accepted all lines. -/
structure Passed (lines : List Text) (before after : KvConf) : Prop where
  taken : ∀ pv ∈ allLines lines, Taken pv
  servers_taken : ∀ id, ∀ pv ∈ serverLines lines id, Taken pv
  global : after.globalConf = globalOf lines before
  servers : ∀ id, after.serverConf id = serverOf lines before id
  localId : after.localServerId = localOf lines before

theorem passes_ok {after : KvConf} (ran : passes lines before = (.ok (), after)) : Passed lines before after := by
  obtain ⟨_, first, all, ran⟩ := bind_eq_ok ran
  obtain ⟨_, second, servers, ran⟩ := bind_eq_ok ran
  obtain ⟨_, third, locals, ran⟩ := bind_eq_ok ran
  cases ran
  obtain ⟨taken, rfl⟩ := allPass all
  obtain ⟨⟨global, localId⟩, record⟩ := serverPass servers
  obtain rfl := localPass locals
  exact ⟨taken, fun id => (record id).1, global, fun id => (record id).2, by rw [localId]; rfl⟩

/-- `read_conf` of a file whose passes take these lines accepts it when they all do. -/
theorem readConf_ok {text : Text} {after : KvConf} (reads : ∀ type, loadConf text type = lines.forM (loadLine type))
    (accepted : readConf (some text) before = (.ok (), after)) : Passed lines before after := by
  unfold readConf at accepted
  obtain ⟨loaded, last, attempted, rest⟩ := bind_eq_ok accepted
  cases loaded with
  | none => cases rest
  | some =>
    cases rest
    have ran := attempt_eq_some attempted
    simp only [reads] at ran
    obtain ⟨taken, servers_taken, global, servers, localId⟩ := passes_ok ((congrFun (passes_three lines) before).trans ran)
    exact ⟨taken, servers_taken, global, servers, localId⟩

/-- The record of a server after the first `read_conf` of an accepted file: the defaults,
changed by all `all.` lines and then by the lines of the server. -/
theorem readConf_record {after : KvConf} (plain : ∀ line ∈ lines, Plain line)
    (accepted : readConf (some (unlines lines)) {} = (.ok (), after)) (named : serverLines lines id ≠ []) :
    (∀ pv ∈ allLines lines ++ serverLines lines id, Taken pv) ∧
      after.serverConf id = some ((allLines lines ++ serverLines lines id).foldl apply {}) := by
  have passed := readConf_ok (fun type => loadConf_lines type plain) accepted
  refine ⟨fun pv member => (List.mem_append.mp member).elim (passed.taken pv) (passed.servers_taken id pv), ?_⟩
  rw [passed.servers, serverOf, if_neg named, recordOf, List.foldl_append]
  rfl

end KvConf

end Pingkv
