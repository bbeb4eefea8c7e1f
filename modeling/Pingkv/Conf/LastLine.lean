import Mathlib.Data.List.TakeWhile
import Pingkv.Conf.Meaning
import Pingkv.Conf.Outcome

/-! Reading a file with and without the newline of its last line. `_load_conf` cuts the
last byte off whatever `fgets` hands out, so without the newline the last line loses a byte. -/

namespace Pingkv

/-- Two values that give a parameter the same, where `create_file` has been `create` so far. -/
def Param.Alike (create : Bool) (v w : Text) : Param → Prop
  | serverId | port | serverCount | fileCount => atoi v = atoi w
  | dbName | filePath | ip => v = w
  | createFile => (KvConf.createEffect v).getD create = (KvConf.createEffect w).getD create
  | lruCacheSize | lruMaxElemSize => KvConf.strToBytes v = KvConf.strToBytes w

theorem Param.assign_eq_iff (param : Param) (conf : KvConfData) (v w : Text) :
    param.assign v conf = param.assign w conf ↔ param.Alike conf.createFile v w := by
  cases param <;> simp [Param.assign, Param.Alike, KvConf.setCreateFile_eq, KvConfData.ext_iff]

namespace KvConf

open Exec

variable {type other : ConfType} {text line last p v w name val rest : Text} {lines : List Text} {conf : KvConf}

/-- The lines before the last one. -/
def front (text : Text) : List Text := (text.splitOn 10).dropLast

/-- The last line, behind which there is no newline. -/
def lastLine (text : Text) : Text := (text.splitOn 10).getLastD []

private theorem intercalate_unlines (some : lines ≠ []) : [10].intercalate lines = unlines lines.dropLast ++ lines.getLastD [] := by
  induction lines with
  | nil => exact absurd rfl some
  | cons line rest ih =>
    cases rest with
    | nil => simp [unlines]
    | cons next rest =>
      rw [List.intercalate_cons_of_ne_nil (List.cons_ne_nil _ _), ih (List.cons_ne_nil _ _)]
      simp [unlines]

theorem unlines_front (text : Text) : unlines (front text) ++ lastLine text = text :=
  (intercalate_unlines (List.splitOn_ne_nil 10 text)).symm.trans (List.intercalate_splitOn (10 : UInt8))

theorem unlines_whole (text : Text) : unlines (front text ++ [lastLine text]) = text ++ [10] := by
  conv_rhs => rw [← unlines_front text]
  simp [unlines]

theorem front_lastLine (text : Text) : front text ++ [lastLine text] = text.splitOn 10 := by
  have some := List.splitOn_ne_nil 10 text
  rw [front, lastLine, List.getLastD_eq_getLast?, List.getLast?_eq_some_getLast some, Option.getD_some]
  exact List.dropLast_concat_getLast some

private theorem newline_split (text : Text) : ∀ line ∈ text.splitOn 10, 10 ∉ line := by
  induction text with
  | nil => simp
  | cons byte rest ih =>
    rw [List.splitOn_cons_eq_if_modifyHead]
    split
    · exact List.forall_mem_cons.mpr ⟨List.not_mem_nil, ih⟩
    · rename_i other
      cases split : rest.splitOn 10 with
      | nil => exact absurd split (List.splitOn_ne_nil 10 rest)
      | cons head tail =>
        rw [split] at ih
        obtain ⟨first, later⟩ := List.forall_mem_cons.mp ih
        refine List.forall_mem_cons.mpr ⟨fun member => ?_, later⟩
        rcases List.mem_cons.mp member with same | inside
        · simp [← same] at other
        · exact first inside

/-- A file of lines of at most 8000 bytes, without zero bytes. -/
theorem plain_split (noZero : 0 ∉ text) (short : ∀ line ∈ text.splitOn 10, line.length ≤ 8000) :
    ∀ line ∈ text.splitOn 10, Plain line := by
  intro line member
  have small := short line member
  refine ⟨by unfold bufSize; omega, newline_split text line member, fun zero => ?_⟩
  have inside : (0 : UInt8) ∈ unlines (front text ++ [lastLine text]) := by
    rw [front_lastLine]
    exact List.mem_flatMap.mpr ⟨line, member, List.mem_append_left _ zero⟩
  rw [unlines_whole] at inside
  simp [noZero] at inside

/-- What `fgets` makes of the end of a file that has no newline. -/
theorem fgets_end (noNewline : 10 ∉ line) : ∀ size, line.length ≤ size → fgets size line = (line, []) := by
  induction line with
  | nil => rintro (_ | size) _ <;> rfl
  | cons byte line ih =>
    rintro (_ | size) enough
    · simp at enough
    · have different : byte ≠ 10 := fun same => noNewline (by simp [same])
      have taken := ih (fun member => noNewline (List.mem_cons_of_mem _ member)) size (by simpa using enough)
      simp only [fgets, taken, if_neg different]

/-- A pass that comes to the last line takes a byte off it. -/
theorem loadLoop_last (type : ConfType) (plain : Plain last) (calls : Nat) (enough : last.length ≤ calls) :
    loadLoop type calls last = loadLine type last.dropLast := by
  cases last with
  | nil => cases type <;> cases calls <;> rfl
  | cons byte rest =>
    cases calls with
    | zero => simp at enough
    | succ calls =>
      have short := plain.short
      have taken := fgets_end plain.noNewline (bufSize - 1) (by omega)
      have whole : (byte :: rest).takeWhile (· ≠ 0) = byte :: rest :=
        List.takeWhile_eq_self_iff.mpr fun byte member => decide_eq_true fun zero => plain.noZero (zero ▸ member)
      rw [loadLoop]
      · simp only [taken, whole]
        simp [loadLoop]
      · simp

/-- Without the newline the passes take the last line without its last byte. -/
theorem loadConf_cut (type : ConfType) (plain : ∀ line ∈ text.splitOn 10, Plain line) :
    loadConf text type = (front text ++ [(lastLine text).dropLast]).forM (loadLine type) := by
  rw [← front_lastLine] at plain
  obtain ⟨left, enough, ran⟩ := loadLoop_lines type (fun line member => plain line (List.mem_append_left _ member))
    (lastLine text) _ (Nat.le_refl _)
  rw [loadLoop_last type (plain _ (by simp)) left enough, unlines_front] at ran
  rw [loadConf, ran, List.forM_eq_forM, List.forM_append]
  simp

theorem loadConf_whole (type : ConfType) (plain : ∀ line ∈ text.splitOn 10, Plain line) :
    loadConf (text ++ [10]) type = (front text ++ [lastLine text]).forM (loadLine type) := by
  rw [← front_lastLine] at plain
  rw [← unlines_whole]
  exact loadConf_lines type plain

/-- A name ends in front of the first blank or equals sign, if it has no equals sign itself. -/
def isName (byte : UInt8) : Bool := !isSpace byte && byte ≠ 61

theorem matchVal_some (found : matchVal rest = some val) : ∃ blanks tail, rest = blanks ++ 61 :: tail ∧
    (∀ byte ∈ blanks, isSpace byte = true) ∧ tail ≠ [] ∧ (61 ∉ val → 61 ∉ tail) := by
  unfold matchVal at found
  split at found
  · rename_i tail behind
    dsimp only at found
    split at found
    · rename_i some
      cases found
      refine ⟨rest.takeWhile isSpace, tail, ?_, fun byte member => List.mem_takeWhile_imp member, ?_, fun none inside => ?_⟩
      · rw [← behind]
        exact List.takeWhile_append_dropWhile.symm
      · rintro rfl
        exact some.1 rfl
      · rw [← List.takeWhile_append_dropWhile (p := isSpace) (l := tail)] at inside
        rcases List.mem_append.mp inside with blank | inside
        · exact absurd (List.mem_takeWhile_imp blank) (by decide)
        · rw [← List.takeWhile_append_dropWhile (p := fun byte => !isSpace byte) (l := tail.dropWhile isSpace)] at inside
          rcases List.mem_append.mp inside with inside | blank
          · exact none inside
          · exact absurd (List.all_eq_true.mp some.2 61 blank) (by decide)
    · cases found
  · cases found

/-- A line of the form `name = value`, as the expression takes it apart. -/
structure Parted (line name val blanks tail : Text) : Prop where
  whole : line = name ++ (blanks ++ 61 :: tail)
  unspaced : ∀ byte ∈ name, isSpace byte = false
  blank : ∀ byte ∈ blanks, isSpace byte = true
  some : tail ≠ []
  clean : 61 ∉ val → 61 ∉ tail

theorem nameValue_parted (head : type.lineHead.isPrefixOf line = true) (found : nameValue line = some (name, val)) :
    ∃ blanks tail, Parted line name val blanks tail := by
  rw [nameValue, dropWhile_lineHead head] at found
  obtain ⟨rest, split, value, unspaced⟩ := matchParam_split found
  obtain ⟨blanks, tail, rfl, blank, some, clean⟩ := matchVal_some value
  exact ⟨blanks, tail, split, unspaced, blank, some, clean⟩

variable {name' val' blanks tail blanks' tail' : Text}

theorem Parted.takeWhile (parted : Parted line name val blanks tail) (none : 61 ∉ name) (more : Text) :
    (line ++ more).takeWhile isName = name := by
  have inside : ∀ byte ∈ name, isName byte = true := by
    intro byte member
    have other : byte ≠ 61 := fun same => none (same ▸ member)
    simp [isName, parted.unspaced byte member, other]
  have ends : (blanks ++ 61 :: tail ++ more).takeWhile isName = [] := by
    cases blanks with
    | nil => rfl
    | cons byte blanks =>
      have space := parted.blank byte List.mem_cons_self
      simp [isName, space]
  rw [parted.whole, List.append_assoc, List.takeWhile_append_of_pos inside, ends, List.append_nil]

/-- A line and the same line without its last byte have the same name, if there is no equals sign in either name. -/
theorem Parted.same_name (parted : Parted line name val blanks tail) (cut : Parted line.dropLast name' val' blanks' tail')
    (none : 61 ∉ name) (none' : 61 ∉ name') : name = name' := by
  have some : line ≠ [] := by
    rw [parted.whole]
    simp
  have own := parted.takeWhile none []
  have other := cut.takeWhile none' [line.getLast some]
  rw [List.append_nil] at own
  rw [List.dropLast_concat_getLast some] at other
  exact own.symm.trans other

/-- One equals sign is not enough for two names. -/
theorem Parted.once (parted : Parted line name val blanks tail) (cut : Parted line.dropLast name' val' blanks' tail')
    (once : 61 ∉ name ∧ 61 ∉ val ∨ 61 ∉ name' ∧ 61 ∉ val') : 61 ∉ name ∧ 61 ∉ name' := by
  have blank (blanks : Text) (spaces : ∀ byte ∈ blanks, isSpace byte = true) : blanks.count 61 = 0 :=
    List.count_eq_zero.mpr fun member => absurd (spaces 61 member) (by decide)
  have fewer : name.count 61 + 1 ≤ line.dropLast.count 61 := by
    rw [parted.whole, List.dropLast_append_of_ne_nil (by simp), List.dropLast_append_of_ne_nil (by simp),
      List.dropLast_cons_of_ne_nil parted.some, List.count_append, List.count_append, List.count_cons_self]
    omega
  have count' : line.dropLast.count 61 = name'.count 61 + 1 + tail'.count 61 := by
    rw [cut.whole, List.count_append, List.count_append, List.count_cons_self, blank blanks' cut.blank]
    omega
  simp only [← List.count_eq_zero] at once ⊢
  rcases once with ⟨none, clean⟩ | ⟨none, clean⟩
  · have whole : line.count 61 = name.count 61 + 1 + tail.count 61 := by
      conv_lhs => rw [parted.whole]
      rw [List.count_append, List.count_append, List.count_cons_self, blank blanks parted.blank]
      omega
    have empty := List.count_eq_zero.mpr (parted.clean (List.count_eq_zero.mp clean))
    have less := (List.dropLast_sublist line).count_le 61
    omega
  · have empty := List.count_eq_zero.mpr (cut.clean (List.count_eq_zero.mp clean))
    omega

/-- How the pass over some lines ends, where one of them stops it. -/
def firstStop (type : ConfType) (lines : List Text) : Option Stop := lines.findSome? (verdict type)

/-- How the three passes end. -/
def stops (lines : List Text) : Option Stop := [ConfType.global, .server, .local].findSome? fun type => firstStop type lines

/-- The first stop up to where a pass comes to the end of the lines. -/
def earlier : ConfType → List Text → Option Stop
  | .global, lines => firstStop .global lines
  | .server, lines => (firstStop .global lines).or (firstStop .server lines)
  | .local, lines => (firstStop .global lines).or ((firstStop .server lines).or (firstStop .local lines))

/-- The first stop in the passes behind. -/
def later : ConfType → List Text → Option Stop
  | .global, lines => (firstStop .server lines).or (firstStop .local lines)
  | .server, lines => firstStop .local lines
  | .local, _ => none

theorem lineHead_unique (head : type.lineHead.isPrefixOf line = true) (head' : other.lineHead.isPrefixOf line = true) :
    other = type := by
  have first (type : ConfType) (head : type.lineHead.isPrefixOf line = true) : line.head? = type.lineHead.head? := by
    obtain ⟨tail, rfl⟩ := List.isPrefixOf_iff_prefix.mp head
    cases type <;> rfl
  have same := (first other head').symm.trans (first type head)
  revert same
  cases type <;> cases other <;> decide

theorem stops_eq (lines : List Text) :
    stops lines = (firstStop .global lines).or ((firstStop .server lines).or (firstStop .local lines)) := by
  simp only [stops, List.findSome?_cons, List.findSome?_nil]
  cases firstStop .global lines <;> cases firstStop .server lines <;> cases firstStop .local lines <;> rfl

/-- One more line, which only one of the passes looks at. -/
theorem stops_concat (alone : ∀ other, other ≠ type → verdict other line = none) :
    stops (lines ++ [line]) = (earlier type lines).or ((verdict type line).or (later type lines)) := by
  have concat (type : ConfType) : firstStop type (lines ++ [line]) = (firstStop type lines).or (verdict type line) := by
    rw [firstStop, List.findSome?_append, List.findSome?_cons, List.findSome?_nil]
    cases verdict type line <;> rfl
  rw [stops_eq, concat, concat, concat]
  cases type with
  | global => simp only [alone .server (by decide), alone .local (by decide), Option.or_none, Option.or_assoc, earlier, later]
  | server => simp only [alone .global (by decide), alone .local (by decide), Option.or_none, Option.or_assoc, earlier, later]
  | «local» => simp only [alone .global (by decide), alone .server (by decide), Option.or_none, Option.or_assoc, earlier, later]

theorem ending_injective {first second : Option Stop} (same : ending first = ending second) : first = second := by
  cases first <;> cases second <;> simp_all [ending]

/-- `read_conf` of a file whose passes take these lines. -/
theorem readConf_stops (reads : ∀ type, loadConf text type = lines.forM (loadLine type)) :
    (readConf (some text) conf).1 = ending (stops lines) := by
  apply readConf_ending
  · simp only [reads]
    rw [← passes_three]
    exact forM_fst (fun type => forM_fst (fun line => loadLine_fst type line)) conf
  · intro exhausted
    obtain ⟨_, type, _, _, exhausted, _⟩ := List.findSome?_eq_some_iff.mp exhausted
    obtain ⟨_, line, _, _, exhausted, _⟩ := List.findSome?_eq_some_iff.mp exhausted
    exact verdict_returns type line exhausted

/-- With and without a newline at the end `read_conf` returns the same and, where it
accepts the file, leaves the same configuration. -/
structure SameReading (text : Text) (conf : KvConf) : Prop where
  outcome : (readConf (some text) conf).1 = (readConf (some (text ++ [10])) conf).1
  global : (readConf (some text) conf).1 = .ok () →
    (readConf (some text) conf).2.globalConf = (readConf (some (text ++ [10])) conf).2.globalConf
  localId : (readConf (some text) conf).1 = .ok () →
    (readConf (some text) conf).2.localServerId = (readConf (some (text ++ [10])) conf).2.localServerId
  servers : (readConf (some text) conf).1 = .ok () → ∀ id,
    getServerConf (readConf (some text) conf).2 id = getServerConf (readConf (some (text ++ [10])) conf).2 id

/-- Lines that leave the same configuration. -/
structure SameConf (first second : List Text) (conf : KvConf) : Prop where
  global : globalOf first conf = globalOf second conf
  localId : localOf first conf = localOf second conf
  servers : ∀ id, serverOf first conf id = serverOf second conf id

theorem SameConf.symm {first second : List Text} (same : SameConf first second conf) : SameConf second first conf :=
  ⟨same.global.symm, same.localId.symm, fun id => (same.servers id).symm⟩

theorem sameReading_iff {first second : List Text} (reads : ∀ type, loadConf text type = first.forM (loadLine type))
    (reads' : ∀ type, loadConf (text ++ [10]) type = second.forM (loadLine type)) :
    SameReading text conf ↔ stops first = stops second ∧ (stops first = none → SameConf first second conf) := by
  have outcome : (readConf (some text) conf).1 = _ := readConf_stops reads
  have outcome' : (readConf (some (text ++ [10])) conf).1 = _ := readConf_stops reads'
  constructor
  · rintro ⟨same, global, localId, servers⟩
    rw [outcome, outcome'] at same
    have stop := ending_injective same
    refine ⟨stop, fun none => ?_⟩
    have ok : (readConf (some text) conf).1 = .ok () := by rw [outcome, none]; rfl
    have ok' : (readConf (some (text ++ [10])) conf).1 = .ok () := by rw [outcome', ← stop, none]; rfl
    have passed := readConf_ok reads (run_of_fst ok)
    have passed' := readConf_ok reads' (run_of_fst ok')
    exact ⟨passed.global.symm.trans ((global ok).trans passed'.global),
      passed.localId.symm.trans ((localId ok).trans passed'.localId),
      fun id => (passed.servers id).symm.trans ((servers ok id).trans (passed'.servers id))⟩
  · rintro ⟨stop, same⟩
    have accepted (ok : (readConf (some text) conf).1 = .ok ()) : SameConf first second conf ∧
        Passed first conf (readConf (some text) conf).2 ∧ Passed second conf (readConf (some (text ++ [10])) conf).2 := by
      have none : stops first = none := ending_injective (outcome.symm.trans ok)
      have ok' : (readConf (some (text ++ [10])) conf).1 = .ok () := by rw [outcome', ← stop, none]; rfl
      exact ⟨same none, readConf_ok reads (run_of_fst ok), readConf_ok reads' (run_of_fst ok')⟩
    refine ⟨by rw [outcome, outcome', stop], fun ok => ?_, fun ok => ?_, fun ok id => ?_⟩
    all_goals obtain ⟨same, passed, passed'⟩ := accepted ok
    · rw [passed.global, passed'.global, same.global]
    · rw [passed.localId, passed'.localId, same.localId]
    · rw [getServerConf, getServerConf, passed.servers, passed'.servers, same.servers]

/-- Two values of the last line set the same, after the lines before it. -/
def SetAlike (lines : List Text) (conf : KvConf) (p v w : Text) : ConfType → Prop
  | .global => ∀ param : Param, p = param.name → param.Alike (globalOf lines conf).createFile v w
  | .server => ∀ param : Param, (splitServidParam p).2 = param.name →
      param.Alike (recordOf lines conf (splitServidParam p).1).createFile v w
  | .local => p = ascii "server_id" → atoi v = atoi w

theorem entry_other (head : type.lineHead.isPrefixOf line = true) (differs : other ≠ type) : entry other.lineHead line = none :=
  if_neg fun head' => differs (lineHead_unique head head')

theorem verdict_other (head : type.lineHead.isPrefixOf line = true) (differs : other ≠ type) : verdict other line = none :=
  if_neg fun head' => differs (lineHead_unique head head')

theorem allLines_concat (lines : List Text) (line : Text) :
    allLines (lines ++ [line]) = allLines lines ++ (entry (ascii "all.") line).toList := by
  rw [allLines, List.filterMap_append, List.filterMap_cons]
  cases entry (ascii "all.") line <;> rfl

theorem serverLines_concat (lines : List Text) (line : Text) (id : Int) :
    serverLines (lines ++ [line]) id = serverLines lines id ++ (serverEntry id line).toList := by
  rw [serverLines, List.filterMap_append, List.filterMap_cons]
  cases serverEntry id line <;> rfl

theorem localLines_concat (lines : List Text) (line : Text) :
    localLines (lines ++ [line]) = localLines lines ++ (entry (ascii "local.") line).toList := by
  rw [localLines, List.filterMap_append, List.filterMap_cons]
  cases entry (ascii "local.") line <;> rfl

section Accepted

variable {line' : Text}

/-- Two `all.` lines leave the same behind the same lines when they set the same. -/
theorem sameConf_global (found : entry (ascii "all.") line = some (p, v)) (found' : entry (ascii "all.") line' = some (p, w))
    (head : ConfType.global.lineHead.isPrefixOf line = true) (head' : ConfType.global.lineHead.isPrefixOf line' = true)
    (taken : Taken (p, v)) (taken' : Taken (p, w)) :
    SameConf (lines ++ [line]) (lines ++ [line']) conf ↔ SetAlike lines conf p v w .global := by
  obtain ⟨param, rfl, takes⟩ := taken
  obtain ⟨other, named, takes'⟩ := taken'
  obtain rfl := Param.name_injective named
  have global : globalOf (lines ++ [line]) conf = param.assign v (globalOf lines conf) := by
    rw [globalOf, allLines_concat, found, Option.toList_some, List.foldl_concat]
    exact apply_taken rfl takes
  have global' : globalOf (lines ++ [line']) conf = param.assign w (globalOf lines conf) := by
    rw [globalOf, allLines_concat, found', Option.toList_some, List.foldl_concat]
    exact apply_taken rfl takes'
  have servers (id : Int) : serverLines (lines ++ [line]) id = serverLines (lines ++ [line']) id := by
    rw [serverLines_concat, serverLines_concat, serverEntry, serverEntry,
      show entry (ascii "server.") line = none from entry_other head (by decide : ConfType.server ≠ .global),
      show entry (ascii "server.") line' = none from entry_other head' (by decide : ConfType.server ≠ .global)]
  have locals : localLines (lines ++ [line]) = localLines (lines ++ [line']) := by
    rw [localLines_concat, localLines_concat,
      show entry (ascii "local.") line = none from entry_other head (by decide : ConfType.local ≠ .global),
      show entry (ascii "local.") line' = none from entry_other head' (by decide : ConfType.local ≠ .global)]
  have alike := param.assign_eq_iff (globalOf lines conf) v w
  constructor
  · intro same other named
    obtain rfl := Param.name_injective named
    exact alike.mp (global.symm.trans (same.global.trans global'))
  · intro same
    have whole : globalOf (lines ++ [line]) conf = globalOf (lines ++ [line']) conf :=
      global.trans ((alike.mpr (same param rfl)).trans global'.symm)
    exact ⟨whole, by rw [localOf, localOf, locals], fun id => by rw [serverOf, serverOf, recordOf, recordOf, servers, whole]⟩

/-- Two lines of one server. -/
theorem sameConf_server (found : entry (ascii "server.") line = some (p, v)) (found' : entry (ascii "server.") line' = some (p, w))
    (head : ConfType.server.lineHead.isPrefixOf line = true) (head' : ConfType.server.lineHead.isPrefixOf line' = true)
    (taken : Taken ((splitServidParam p).2, v)) (taken' : Taken ((splitServidParam p).2, w)) :
    SameConf (lines ++ [line]) (lines ++ [line']) conf ↔ SetAlike lines conf p v w .server := by
  obtain ⟨param, named, takes⟩ := taken
  obtain ⟨other, named', takes'⟩ := taken'
  obtain rfl := Param.name_injective (named.symm.trans named')
  have all (line : Text) (head : ConfType.server.lineHead.isPrefixOf line = true) :
      allLines (lines ++ [line]) = allLines lines := by
    rw [allLines_concat, show entry (ascii "all.") line = none from entry_other head (by decide : ConfType.global ≠ .server)]
    exact List.append_nil _
  have locals (line : Text) (head : ConfType.server.lineHead.isPrefixOf line = true) :
      localLines (lines ++ [line]) = localLines lines := by
    rw [localLines_concat, show entry (ascii "local.") line = none from entry_other head (by decide : ConfType.local ≠ .server)]
    exact List.append_nil _
  have own {line v : Text} (found : entry (ascii "server.") line = some (p, v)) (id : Int) : serverLines (lines ++ [line]) id =
      serverLines lines id ++ if (splitServidParam p).1 = id then [((splitServidParam p).2, v)] else [] := by
    rw [serverLines_concat, serverEntry, found, Option.bind_some]
    dsimp only
    split <;> rfl
  have record {line v : Text} (found : entry (ascii "server.") line = some (p, v)) (takes : param.Takes v)
      (head : ConfType.server.lineHead.isPrefixOf line = true) : serverOf (lines ++ [line]) conf (splitServidParam p).1 =
        some (param.assign v (recordOf lines conf (splitServidParam p).1)) := by
    rw [serverOf, recordOf, own found, if_pos rfl, if_neg (List.concat_ne_nil _ _), List.foldl_concat, globalOf, all line head]
    exact congrArg some (apply_taken named takes)
  have alike := param.assign_eq_iff (recordOf lines conf (splitServidParam p).1) v w
  constructor
  · intro same other named'
    obtain rfl := Param.name_injective (named.symm.trans named')
    exact alike.mp (Option.some.inj ((record found takes head).symm.trans ((same.servers _).trans (record found' takes' head'))))
  · intro same
    refine ⟨by rw [globalOf, globalOf, all line head, all line' head'], by rw [localOf, localOf, locals line head, locals line' head'],
      fun id => ?_⟩
    by_cases here : (splitServidParam p).1 = id
    · rw [← here, record found takes head, record found' takes' head', alike.mpr (same param named)]
    · rw [serverOf, serverOf, recordOf, recordOf, own found, own found', if_neg here, if_neg here, globalOf, globalOf, all line head,
        all line' head']

/-- Two `local.` lines. -/
theorem sameConf_local {p' : Text} (found : entry (ascii "local.") line = some (p, v))
    (found' : entry (ascii "local.") line' = some (p', w))
    (head : ConfType.local.lineHead.isPrefixOf line = true) (head' : ConfType.local.lineHead.isPrefixOf line' = true)
    (both : p = ascii "server_id" ↔ p' = ascii "server_id") :
    SameConf (lines ++ [line]) (lines ++ [line']) conf ↔ SetAlike lines conf p v w .local := by
  have all (line : Text) (head : ConfType.local.lineHead.isPrefixOf line = true) :
      allLines (lines ++ [line]) = allLines lines := by
    rw [allLines_concat, show entry (ascii "all.") line = none from entry_other head (by decide : ConfType.global ≠ .local)]
    exact List.append_nil _
  have servers (line : Text) (head : ConfType.local.lineHead.isPrefixOf line = true) (id : Int) :
      serverLines (lines ++ [line]) id = serverLines lines id := by
    rw [serverLines_concat, serverEntry,
      show entry (ascii "server.") line = none from entry_other head (by decide : ConfType.server ≠ .local)]
    exact List.append_nil _
  have own {line : Text} {pv : Text × Text} (found : entry (ascii "local.") line = some pv) :
      localOf (lines ++ [line]) conf = assignLocal (localOf lines conf) pv := by
    rw [localOf, localLines_concat, found, Option.toList_some, List.foldl_concat, localOf]
  have same : SameConf (lines ++ [line]) (lines ++ [line']) conf ↔
      assignLocal (localOf lines conf) (p, v) = assignLocal (localOf lines conf) (p', w) := by
    rw [← own found, ← own found']
    refine ⟨fun same => same.localId, fun same => ⟨?_, same, fun id => ?_⟩⟩
    · rw [globalOf, globalOf, all line head, all line' head']
    · rw [serverOf, serverOf, recordOf, recordOf, servers line head, servers line' head', globalOf, globalOf, all line head,
        all line' head']
  rw [same, assignLocal, assignLocal, SetAlike]
  by_cases named : p = ascii "server_id"
  · rw [if_pos named, if_pos (both.mp named)]
    exact ⟨fun same _ => same, fun same => same named⟩
  · rw [if_neg named, if_neg (mt both.mpr named)]
    exact ⟨fun _ named' => absurd named' named, fun _ => rfl⟩

end Accepted

/-- A line that a pass goes past. -/
structure Passing (type : ConfType) (line name val : Text) : Prop where
  found : nameValue line = some (name, val)
  accepted : type.accepts (name.drop type.lineHead.length) val = true
  entered : entry type.lineHead line = some (name.drop type.lineHead.length, val)
  whole : name = type.lineHead ++ name.drop type.lineHead.length

theorem passing_of_verdict (head : type.lineHead.isPrefixOf line = true) (none : verdict type line = none) :
    ∃ name val, Passing type line name val := by
  unfold verdict at none
  rw [if_pos head] at none
  split at none
  · cases none
  · rename_i name val found
    have long := lineHead_le head found
    have pair : getParamVal line = (name, val) := congrArg (Option.getD · ([], [])) found
    refine ⟨name, val, found, ?_, ?_, ?_⟩
    · by_contra refused
      rw [if_neg refused] at none
      split at none <;> cases none
    · rw [entry, if_pos head, pair]
    · obtain ⟨blanks, tail, parted⟩ := nameValue_parted head found
      have prefixed : type.lineHead <+: name := List.prefix_of_prefix_length_le (List.isPrefixOf_iff_prefix.mp head)
        (parted.whole ▸ List.prefix_append name _) long
      exact (List.prefix_iff_eq_append.mp prefixed).symm

theorem taken_of_takes (takes : takes p v = true) : Taken (p, v) := by
  obtain ⟨after, set⟩ := Option.isSome_iff_exists.mp takes
  obtain ⟨param, named, taken, _⟩ := KvConfData.setServerParam_some set
  exact ⟨param, named, taken⟩

theorem name_clean (param : Param) : 61 ∉ param.name := by
  cases param <;> decide

theorem Taken.clean (taken : Taken (p, v)) : 61 ∉ p := by
  obtain ⟨param, named, _⟩ := taken
  rw [show p = param.name from named]
  exact name_clean param

/-- A parameter of a server stands behind digits and a dot. -/
theorem splitServid_some (some : (splitServidParam p).2 ≠ []) : p = p.takeWhile isDigit ++ 46 :: (splitServidParam p).2 := by
  have whole : p = p.takeWhile isDigit ++ p.dropWhile isDigit := List.takeWhile_append_dropWhile.symm
  have same : p.dropWhile isDigit = 46 :: (splitServidParam p).2 := by
    unfold splitServidParam at some ⊢
    split
    · rename_i rest behind
      simp only [behind] at some
      split at some
      · rename_i formed
        rw [if_pos formed]
        exact behind
      · exact absurd rfl some
    · rename_i other
      split at some
      · rename_i rest behind
        exact absurd behind (other rest)
      · exact absurd rfl some
  rw [← same]
  exact whole

theorem splitServid_clean (clean : 61 ∉ (splitServidParam p).2) (some : (splitServidParam p).2 ≠ []) : 61 ∉ p := by
  rw [splitServid_some some]
  intro member
  rcases List.mem_append.mp member with digit | member
  · exact absurd (List.mem_takeWhile_imp digit) (by decide)
  · rcases List.mem_cons.mp member with same | inside
    · exact absurd same (by decide)
    · exact clean inside

theorem isNum_clean (num : isNum v = true) : 61 ∉ v := fun member => absurd ((isNum_iff.mp num).2 61 member) (by decide)

/-- Without its last byte a line that a pass goes past still has the head of the pass. -/
theorem Passing.cut_head (passing : Passing type line name val) (head : type.lineHead.isPrefixOf line = true) :
    type.lineHead.isPrefixOf line.dropLast = true := by
  obtain ⟨blanks, tail, parted⟩ := nameValue_parted head passing.found
  rw [List.isPrefixOf_iff_prefix, parted.whole, List.dropLast_append_of_ne_nil (by simp), passing.whole, List.append_assoc]
  exact List.prefix_append _ _

/-- The last line leaves the same with and without its last byte when it sets the same. -/
theorem sameConf_iff (head : type.lineHead.isPrefixOf line = true) (passes : verdict type line = none)
    (passes' : verdict type line.dropLast = none) : SameConf (lines ++ [line]) (lines ++ [line.dropLast]) conf ↔
      SetAlike lines conf ((getParamVal line).1.drop type.lineHead.length) (getParamVal line).2 (getParamVal line.dropLast).2 type := by
  obtain ⟨name, v, passing⟩ := passing_of_verdict head passes
  have head' := passing.cut_head head
  obtain ⟨name', w, passing'⟩ := passing_of_verdict head' passes'
  obtain ⟨blanks, tail, parted⟩ := nameValue_parted head passing.found
  obtain ⟨blanks', tail', parted'⟩ := nameValue_parted head' passing'.found
  have pair : getParamVal line = (name, v) := congrArg (Option.getD · ([], [])) passing.found
  have pair' : getParamVal line.dropLast = (name', w) := congrArg (Option.getD · ([], [])) passing'.found
  have clean {name : Text} (whole : name = type.lineHead ++ name.drop type.lineHead.length)
      (behind : 61 ∉ name.drop type.lineHead.length) : 61 ∉ name := by
    rw [whole]
    intro member
    rcases List.mem_append.mp member with member | member
    · exact (lineHead_bytes type 61 member).2 rfl
    · exact behind member
  rw [pair, pair']
  dsimp only
  have found := passing.entered
  have found' := passing'.entered
  have accepted := passing.accepted
  have accepted' := passing'.accepted
  cases type with
  | global =>
    simp only [ConfType.accepts, Bool.and_eq_true] at accepted accepted'
    have taken := taken_of_takes accepted.2
    have taken' := taken_of_takes accepted'.2
    have same : name = name' := parted.same_name parted' (clean passing.whole taken.clean) (clean passing'.whole taken'.clean)
    subst same
    exact sameConf_global found found' head head' taken taken'
  | server =>
    simp only [ConfType.accepts, Bool.and_eq_true, decide_eq_true_eq] at accepted accepted'
    have taken := taken_of_takes accepted.2
    have taken' := taken_of_takes accepted'.2
    have same : name = name' := parted.same_name parted'
      (clean passing.whole (splitServid_clean taken.clean accepted.1.2))
      (clean passing'.whole (splitServid_clean taken'.clean accepted'.1.2))
    subst same
    exact sameConf_server found found' head head' taken taken'
  | «local» =>
    have number {name v : Text} (whole : name = ConfType.local.lineHead ++ name.drop ConfType.local.lineHead.length)
        (accepted : ConfType.accepts .local (name.drop ConfType.local.lineHead.length) v = true)
        (named : name.drop ConfType.local.lineHead.length = ascii "server_id") : 61 ∉ name ∧ 61 ∉ v := by
      simp only [ConfType.accepts, named, ne_eq, not_true, decide_false, Bool.false_or, Bool.and_eq_true] at accepted
      exact ⟨clean whole (by rw [named]; decide), isNum_clean accepted.2.1⟩
    refine sameConf_local found found' head head' ⟨fun named => ?_, fun named => ?_⟩
    · obtain ⟨none, none'⟩ := parted.once parted' (.inl (number passing.whole accepted named))
      rw [← parted.same_name parted' none none', named]
    · obtain ⟨none, none'⟩ := parted.once parted' (.inr (number passing'.whole accepted' named))
      rw [parted.same_name parted' none none', named]

theorem sameConf_past {line' : Text} (past : ∀ type : ConfType, entry type.lineHead line = none)
    (past' : ∀ type : ConfType, entry type.lineHead line' = none) : SameConf (lines ++ [line]) (lines ++ [line']) conf := by
  have all : allLines (lines ++ [line]) = allLines (lines ++ [line']) := by
    rw [allLines_concat, allLines_concat, show entry (ascii "all.") line = _ from past .global,
      show entry (ascii "all.") line' = _ from past' .global]
  have servers (id : Int) : serverLines (lines ++ [line]) id = serverLines (lines ++ [line']) id := by
    rw [serverLines_concat, serverLines_concat, serverEntry, serverEntry,
      show entry (ascii "server.") line = _ from past .server, show entry (ascii "server.") line' = _ from past' .server]
  have locals : localLines (lines ++ [line]) = localLines (lines ++ [line']) := by
    rw [localLines_concat, localLines_concat, show entry (ascii "local.") line = _ from past .local,
      show entry (ascii "local.") line' = _ from past' .local]
  exact ⟨by rw [globalOf, globalOf, all], by rw [localOf, localOf, locals],
    fun id => by rw [serverOf, serverOf, recordOf, recordOf, servers, globalOf, globalOf, all]⟩

/-- The last line has no head of a pass; or the passes stop before they come to it; or they stop
in the same way with and without its last byte, and where they go through it sets the same. -/
def Spared (text : Text) (conf : KvConf) : Prop := ∀ type : ConfType, type.lineHead.isPrefixOf (lastLine text) = true →
  (earlier type (front text)).isSome ∨
    (verdict type (lastLine text)).or (later type (front text)) =
      (verdict type (lastLine text).dropLast).or (later type (front text)) ∧
    ((verdict type (lastLine text)).or (later type (front text)) = none →
      SetAlike (front text) conf ((getParamVal (lastLine text)).1.drop type.lineHead.length)
        (getParamVal (lastLine text)).2 (getParamVal (lastLine text).dropLast).2 type)

/-- The newline of the last line does not count exactly when its last byte does not. -/
theorem sameReading_iff_spared (noZero : 0 ∉ text) (short : ∀ line ∈ text.splitOn 10, line.length ≤ 8000) (conf : KvConf) :
    SameReading text conf ↔ Spared text conf := by
  have plain := plain_split noZero short
  rw [sameReading_iff (fun type => loadConf_cut type plain) (fun type => loadConf_whole type plain), Spared]
  generalize front text = lines
  generalize lastLine text = last
  have cut {type : ConfType} (head : type.lineHead.isPrefixOf last.dropLast = true) : type.lineHead.isPrefixOf last = true :=
    List.isPrefixOf_iff_prefix.mpr ((List.isPrefixOf_iff_prefix.mp head).trans (List.dropLast_prefix last))
  by_cases some : ∃ type : ConfType, type.lineHead.isPrefixOf last = true
  · obtain ⟨type, head⟩ := some
    have whole : stops (lines ++ [last]) = _ := stops_concat fun other differs => verdict_other head differs
    have short : stops (lines ++ [last.dropLast]) = _ :=
      stops_concat fun other differs => if_neg fun head' => differs (lineHead_unique head (cut head'))
    have own : (∀ other : ConfType, other.lineHead.isPrefixOf last = true → (earlier other lines).isSome ∨
        (verdict other last).or (later other lines) = (verdict other last.dropLast).or (later other lines) ∧
        ((verdict other last).or (later other lines) = none → SetAlike lines conf
          ((getParamVal last).1.drop other.lineHead.length) (getParamVal last).2 (getParamVal last.dropLast).2 other)) ↔ _ :=
      ⟨fun all => all type head, fun one other head' => lineHead_unique head head' ▸ one⟩
    rw [own, whole, short]
    cases first : earlier type lines with
    | some reason => simp
    | none =>
      rw [Option.none_or, Option.none_or, Option.isSome_none]
      simp only [Bool.false_eq_true, false_or]
      refine ⟨fun ⟨same, leaves⟩ => ⟨same.symm, fun through => ?_⟩, fun ⟨same, alike⟩ => ⟨same.symm, fun through => ?_⟩⟩
      · have passes := Option.or_eq_none_iff.mp through
        have passes' := Option.or_eq_none_iff.mp (same.trans through)
        exact (sameConf_iff head passes.1 passes'.1).mp (leaves (same.trans through)).symm
      · have passes' := Option.or_eq_none_iff.mp through
        have passes := Option.or_eq_none_iff.mp (same.trans through)
        exact ((sameConf_iff head passes.1 passes'.1).mpr (alike (same.trans through))).symm
  · have past (type : ConfType) : ¬ type.lineHead.isPrefixOf last = true := fun head => some ⟨type, head⟩
    have past' (type : ConfType) : ¬ type.lineHead.isPrefixOf last.dropLast = true := fun head => past type (cut head)
    have whole : stops (lines ++ [last]) = (earlier .global lines).or ((verdict .global last).or (later .global lines)) :=
      stops_concat fun other _ => if_neg (past other)
    have short : stops (lines ++ [last.dropLast]) =
        (earlier .global lines).or ((verdict .global last.dropLast).or (later .global lines)) :=
      stops_concat fun other _ => if_neg (past' other)
    refine ⟨fun _ type head => absurd head (past type), fun _ => ⟨?_, fun _ => ?_⟩⟩
    · rw [whole, short, verdict, verdict, if_neg (past .global), if_neg (past' .global)]
    · exact sameConf_past (fun type => if_neg (past' type)) fun type => if_neg (past type)

/-- A last line that ends in a blank. -/
theorem blank_spares : SameReading (ascii "all.ip = 10.0.0.1\nserver.1.port = 7001 ") {} := by
  refine (sameReading_iff_spared (by decide) (by decide) {}).mpr fun type head => ?_
  cases type
  case server =>
    refine .inr ⟨by decide, fun _ param _ => ?_⟩
    have same : (getParamVal (lastLine (ascii "all.ip = 10.0.0.1\nserver.1.port = 7001 ")).dropLast).2 =
        (getParamVal (lastLine (ascii "all.ip = 10.0.0.1\nserver.1.port = 7001 "))).2 := by decide
    rw [same]
    cases param <;> rfl
  all_goals exact absurd head (by decide)

/-- The port 7001 becomes 700. -/
theorem last_digit_lost : 0 ∉ ascii "server.1.port = 7001" ∧
    (∀ line ∈ (ascii "server.1.port = 7001").splitOn 10, line.length ≤ 8000) ∧
    ¬ SameReading (ascii "server.1.port = 7001") {} := by
  refine ⟨by decide, by decide, fun same => ?_⟩
  have accepted : (readConf (some (ascii "server.1.port = 7001")) {}).1 = .ok () := by decide
  have ports := same.servers accepted 1
  revert ports
  decide

end KvConf

end Pingkv
