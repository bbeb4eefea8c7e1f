import Pingkv.Conf.Passes

/-! How the reading of a configuration file ends: at the first line that stops one of
the passes, if there is one. -/

namespace Pingkv

namespace KvConf

open Exec

/-- The name and the value of a line of the form `name = value`. -/
def nameValue (line : Text) : Option (Text × Text) := matchParam (line.dropWhile isSpace)

/-- Whether a record takes a parameter with this value, whatever it holds. -/
def takes (p v : Text) : Bool := (({} : KvConfData).setServerParam p v).isSome

/-- Whether the setter of a pass takes a parameter with this value. -/
def ConfType.accepts : ConfType → Text → Text → Bool
  | .local, p, v => p ≠ [] && v ≠ [] && (p ≠ ascii "server_id" || isNum v && 0 ≤ atoi v)
  | .global, p, v => p ≠ [] && v ≠ [] && takes p v
  | .server, p, v =>
    p ≠ [] && v ≠ [] && (splitServidParam p).1 ≠ -1 && (splitServidParam p).2 ≠ [] && takes (splitServidParam p).2 v

/-- How a line stops a pass, where it does. One with the head of the pass that is not of the
form `name = value` makes `substr` throw; the report of one that is refused may not fit, or
ask `fprintf` for an argument. -/
def verdict (type : ConfType) (line : Text) : Option Stop :=
  if type.lineHead.isPrefixOf line then
    match nameValue line with
    | none => some .fault
    | some (name, val) =>
      if type.accepts (name.drop type.lineHead.length) val then none
      else if reports line then some .failed
      else some .fault
  else none

/-- How a piece of the file stops a pass that `fgets` hands it out to. -/
def chunkVerdict (type : ConfType) (chunk : Text) : Option Stop :=
  let buf := chunk.takeWhile (· ≠ 0)
  if buf = [] then some .fault else verdict type buf.dropLast

/-- The pieces in which `fgets` hands out a file, for as many calls as are given. -/
def chunksWithin : Nat → Text → List Text
  | 0, _ => []
  | _, [] => []
  | calls + 1, text => (fgets (bufSize - 1) text).1 :: chunksWithin calls (fgets (bufSize - 1) text).2

def chunks (text : Text) : List Text := chunksWithin text.length text

/-- A piece of the file in one of the passes. -/
structure Visit where
  type : ConfType
  chunk : Text
  deriving DecidableEq, Repr

/-- What the passes come by, one after the other. -/
def visits (text : Text) : List Visit :=
  [ConfType.global, .server, .local].flatMap fun type => (chunks text).map fun chunk => ⟨type, chunk⟩

def Visit.verdict (visit : Visit) : Option Stop := chunkVerdict visit.type visit.chunk

variable {type : ConfType} {line text p v name val rest : Text} {conf : KvConf}

theorem takes_eq (conf : KvConfData) (p v : Text) : (conf.setServerParam p v).isSome = takes p v := by
  have carry {first second : KvConfData} (some : (first.setServerParam p v).isSome = true) :
      (second.setServerParam p v).isSome = true := by
    obtain ⟨after, set⟩ := Option.isSome_iff_exists.mp some
    obtain ⟨param, rfl, taken, _⟩ := KvConfData.setServerParam_some set
    rcases second.setServerParam_name param v with ⟨_, ran⟩ | ⟨refused, _⟩
    · rw [ran]
      rfl
    · exact absurd taken refused
  exact Bool.eq_iff_iff.mpr ⟨carry, carry⟩

private theorem accepts_empty (type : ConfType) (empty : p = [] ∨ v = []) : type.accepts p v = false := by
  cases type <;> rcases empty with rfl | rfl <;> simp [ConfType.accepts]

/-- What a setter returns does not depend on the object. -/
theorem setParam_fst (type : ConfType) (p v : Text) (conf : KvConf) :
    (type.setParam p v conf).1 = if type.accepts p v then .ok () else .error .failed := by
  by_cases empty : p = [] ∨ v = []
  · rw [accepts_empty type empty]
    cases type <;> simp only [ConfType.setParam, setLocalParam, setGlobalParam, setServerParam, empty, if_true] <;> rfl
  have some := not_or.mp empty
  cases type with
  | «local» =>
    simp only [ConfType.setParam, setLocalParam, empty, if_false]
    by_cases id : p = ascii "server_id"
    · cases num : isNum v with
      | false => simp [ConfType.accepts, id, num]; rfl
      | true =>
        by_cases negative : atoi v < 0
        · have below : ¬ 0 ≤ atoi v := by omega
          simp [ConfType.accepts, id, num, negative, some.2, below]
        · have above : 0 ≤ atoi v := by omega
          have named : ascii "server_id" ≠ [] := by decide
          simp [ConfType.accepts, id, num, negative, some.2, above, named]
    · simp [ConfType.accepts, id, some]
  | global =>
    have same := takes_eq conf.globalConf p v
    simp only [ConfType.setParam, setGlobalParam, empty, if_false, read_bind_run]
    cases set : conf.globalConf.setServerParam p v with
    | none => simp [ConfType.accepts, some, ← same, set]
    | some data => simp [ConfType.accepts, some, ← same, set]
  | server =>
    by_cases bad : (splitServidParam p).1 = -1 ∨ (splitServidParam p).2 = []
    · have refused : ConfType.accepts .server p v = false := by
        rcases bad with bad | bad <;> simp [ConfType.accepts, bad]
      simp only [refused, ConfType.setParam, setServerParam, empty, if_false, bad, if_true]
      rfl
    · have same := takes_eq ((conf.serverConf (splitServidParam p).1).getD conf.globalConf) (splitServidParam p).2 v
      simp only [ConfType.setParam, setServerParam, empty, bad, if_false, read_bind_run, putServer, update_bind_run]
      rw [not_or] at bad
      cases set : ((conf.serverConf (splitServidParam p).1).getD conf.globalConf).setServerParam (splitServidParam p).2 v with
      | none => simp [ConfType.accepts, some, bad, ← same, set]
      | some data => simp [ConfType.accepts, some, bad, ← same, set]

/-- What has to follow the name starts with a blank or with the equals sign. -/
theorem matchVal_none {byte : UInt8} (unspaced : isSpace byte = false) (other : byte ≠ 61) (rest : Text) :
    matchVal (byte :: rest) = none := by
  rw [matchVal, List.dropWhile_cons_of_neg (by simp [unspaced])]
  split
  · rename_i same
    exact absurd (List.cons.inj same).1 other
  · rfl

/-- The name is what stands before the part with the value, and has no blanks in it. -/
theorem matchParam_split (found : matchParam text = some (name, val)) :
    ∃ rest, text = name ++ rest ∧ matchVal rest = some val ∧ ∀ byte ∈ name, isSpace byte = false := by
  induction text generalizing name with
  | nil => cases found
  | cons byte rest ih =>
    rw [matchParam] at found
    split at found
    · cases found
    · rename_i unspaced
      have own : isSpace byte = false := Bool.eq_false_iff.mpr unspaced
      split at found
      · rename_i later
        cases found
        obtain ⟨behind, rfl, val, clean⟩ := ih later
        exact ⟨behind, rfl, val, List.forall_mem_cons.mpr ⟨own, clean⟩⟩
      · obtain ⟨val, value, same⟩ := Option.map_eq_some_iff.mp found
        cases same
        exact ⟨rest, rfl, value, List.forall_mem_singleton.mpr own⟩

theorem lineHead_bytes (type : ConfType) : ∀ byte ∈ type.lineHead, isSpace byte = false ∧ byte ≠ 61 := by
  cases type <;> decide +kernel

/-- No blanks stand in front of the head of a pass. -/
theorem dropWhile_lineHead (head : type.lineHead.isPrefixOf line = true) : line.dropWhile isSpace = line := by
  obtain ⟨tail, rfl⟩ := List.isPrefixOf_iff_prefix.mp head
  cases own : type.lineHead with
  | nil => exact absurd own (by cases type <;> decide)
  | cons byte rest =>
    have unspaced := (lineHead_bytes type byte (own ▸ List.mem_cons_self)).1
    rw [List.cons_append, List.dropWhile_cons_of_neg (by simp [unspaced])]

/-- The name in a line of a pass is no shorter than the head of the pass. -/
theorem lineHead_le (head : type.lineHead.isPrefixOf line = true) (found : nameValue line = some (name, val)) :
    type.lineHead.length ≤ name.length := by
  have bytes := lineHead_bytes type
  rw [nameValue, dropWhile_lineHead head] at found
  obtain ⟨tail, rfl⟩ := List.isPrefixOf_iff_prefix.mp head
  obtain ⟨rest, split, value, _⟩ := matchParam_split found
  by_contra short
  obtain ⟨more, own⟩ : name <+: type.lineHead :=
    List.prefix_of_prefix_length_le ⟨rest, split.symm⟩ (List.prefix_append _ _) (by omega)
  cases more with
  | nil =>
    rw [List.append_nil] at own
    rw [own] at short
    exact short (Nat.le_refl _)
  | cons byte more =>
    have inside : byte ∈ type.lineHead := own ▸ List.mem_append_right name List.mem_cons_self
    rw [← own, List.append_assoc, List.cons_append] at split
    rw [← List.append_cancel_left split, matchVal_none (bytes byte inside).1 (bytes byte inside).2] at value
    cases value

theorem syntaxError_fst (line : Text) (conf : KvConf) : (syntaxError line conf).1 =
    ending (if reports line then some .failed else some .fault) := by
  unfold syntaxError
  split <;> rfl

/-- Nothing comes behind a report. -/
theorem syntaxError_bind (line : Text) (conf : KvConf) (next : Unit → Exec KvConf Unit) :
    ((syntaxError line >>= next) conf).1 = ending (if reports line then some .failed else some .fault) := by
  have report := syntaxError_fst line conf
  by_cases fits : reports line = true
  · rw [if_pos fits] at report ⊢
    rw [bind_error (run_of_fst report)]
    rfl
  · rw [if_neg fits] at report ⊢
    rw [bind_error (run_of_fst report)]
    rfl

/-- A pass stops at a line as its verdict says. -/
theorem loadLine_fst (type : ConfType) (line : Text) (conf : KvConf) : (loadLine type line conf).1 = ending (verdict type line) := by
  unfold loadLine verdict
  by_cases head : type.lineHead.isPrefixOf line = true
  · rw [if_pos head, if_pos head]
    cases found : nameValue line with
    | none =>
      have pair : getParamVal line = ([], []) := congrArg (Option.getD · ([], [])) found
      have short : ([] : Text).length < type.lineHead.length := by cases type <;> decide
      simp only [pair, short, if_true]
      rfl
    | some pair =>
      obtain ⟨name, val⟩ := pair
      have same : getParamVal line = (name, val) := congrArg (Option.getD · ([], [])) found
      have long := lineHead_le head found
      have set := setParam_fst type (name.drop type.lineHead.length) val conf
      simp only [same, not_lt.mpr long, if_false]
      by_cases empty : name.drop type.lineHead.length = [] ∨ val = []
      · simp only [empty, if_true, accepts_empty type empty, Bool.false_eq_true, if_false]
        exact syntaxError_bind line conf _
      · simp only [empty, if_false]
        cases taken : type.accepts (name.drop type.lineHead.length) val with
        | true =>
          rw [taken, if_pos rfl] at set
          rw [bind_ok (attempt_ok (run_of_fst set))]
          rfl
        | false =>
          rw [taken, if_neg Bool.false_ne_true] at set
          rw [bind_ok (attempt_failed (run_of_fst set))]
          exact syntaxError_fst line _
  · rw [if_neg head, if_neg head]
    rfl

/-- What a pass does with one piece of the file. -/
def loadChunk (type : ConfType) (chunk : Text) : Exec KvConf Unit := do
  let buf := chunk.takeWhile (· ≠ 0)
  if buf = [] then fault
  loadLine type buf.dropLast

theorem loadChunk_fst (type : ConfType) (chunk : Text) (conf : KvConf) :
    (loadChunk type chunk conf).1 = ending (chunkVerdict type chunk) := by
  unfold loadChunk chunkVerdict
  by_cases empty : chunk.takeWhile (· ≠ 0) = []
  · simp only [empty, if_true]
    rfl
  · simp only [empty, if_false]
    exact loadLine_fst type _ conf

/-- `fgets` takes a byte at least. -/
theorem fgets_shorter (size : Nat) (byte : UInt8) (text : Text) : (fgets (size + 1) (byte :: text)).2.length ≤ text.length := by
  induction size generalizing byte text with
  | zero =>
    rw [fgets]
    split <;> simp [fgets]
  | succ size ih =>
    rw [fgets]
    split
    · exact Nat.le_refl _
    · cases text with
      | nil => simp [fgets]
      | cons next rest => exact Nat.le_succ_of_le (ih next rest)

/-- A pass takes the pieces of a file one after the other. -/
theorem loadLoop_chunks (type : ConfType) (calls : Nat) (text : Text) (enough : text.length ≤ calls) :
    loadLoop type calls text = (chunksWithin calls text).forM (loadChunk type) := by
  induction calls generalizing text with
  | zero =>
    obtain rfl := List.length_eq_zero_iff.mp (Nat.le_zero.mp enough)
    rfl
  | succ calls ih =>
    cases text with
    | nil => rfl
    | cons byte rest =>
      have shorter := fgets_shorter 8190 byte rest
      have later := ih (fgets (bufSize - 1) (byte :: rest)).2 (Nat.le_trans shorter (by simpa using enough))
      rw [loadLoop, chunksWithin, List.forM_eq_forM, List.forM_cons, ← List.forM_eq_forM, ← later, loadChunk]
      · by_cases empty : (fgets (bufSize - 1) (byte :: rest)).1.takeWhile (· ≠ 0) = []
        · simp only [empty, if_true]
          rfl
        · simp only [empty, if_false]
      · simp
      · simp

def Visit.load (visit : Visit) : Exec KvConf Unit := loadChunk visit.type visit.chunk

/-- The three passes of `read_conf` are one walk over what they come by. -/
theorem passes_eq (text : Text) : (do loadConf text .global; loadConf text .server; loadConf text .local) =
    (visits text).forM Visit.load := by
  simp only [loadConf, loadLoop_chunks _ _ text (Nat.le_refl _), visits, List.flatMap_cons, List.flatMap_nil, List.append_nil,
    List.forM_eq_forM, List.forM_append, List.forM_map]
  rfl

theorem verdict_returns (type : ConfType) (line : Text) : verdict type line ≠ some .exhausted := by
  unfold verdict
  split
  · split
    · simp
    · split_ifs <;> simp
  · simp

theorem chunkVerdict_returns (type : ConfType) (chunk : Text) : chunkVerdict type chunk ≠ some .exhausted := by
  unfold chunkVerdict
  dsimp only
  split
  · simp
  · exact verdict_returns type _

/-- `read_conf` ends as its passes do. -/
theorem readConf_ending {stops : Option Stop} (passes : ((do loadConf text .global; loadConf text .server; loadConf text .local :
    Exec KvConf Unit) conf).1 = ending stops) (returns : stops ≠ some .exhausted) : (readConf (some text) conf).1 = ending stops := by
  unfold readConf
  dsimp only
  rcases stops with _ | _ | _ | _
  · rw [bind_ok (attempt_ok (run_of_fst passes))]
    rfl
  · rw [bind_ok (attempt_failed (run_of_fst passes))]
    rfl
  · rw [bind_error (attempt_error (run_of_fst passes) (by decide))]
    rfl
  · exact absurd rfl returns

/-- `read_conf` ends as the first piece that stops a pass says. -/
theorem readConf_fst (text : Text) (conf : KvConf) :
    (readConf (some text) conf).1 = ending ((visits text).findSome? Visit.verdict) := by
  apply readConf_ending
  · rw [passes_eq]
    exact forM_fst (fun visit : Visit => loadChunk_fst visit.type visit.chunk) conf
  · intro first
    obtain ⟨_, visit, _, _, exhausted, _⟩ := List.findSome?_eq_some_iff.mp first
    exact chunkVerdict_returns visit.type visit.chunk exhausted

/-- Whatever was refused, `is_read_ok` is false. -/
theorem readConf_failed (text : Text) (conf : KvConf) (failed : (readConf (some text) conf).1 = .error .failed) :
    (readConf (some text) conf).2.readOk = false := by
  unfold readConf at failed ⊢
  dsimp only at failed ⊢
  generalize (do loadConf text .global; loadConf text .server; loadConf text .local : Exec KvConf Unit) = passes at failed ⊢
  cases ran : passes conf with
  | mk outcome after =>
    rcases outcome with (_ | _ | _) | _
    · rw [bind_ok (attempt_failed ran)]
      rfl
    · rw [bind_error (attempt_error ran (by decide))] at failed
      cases failed
    · rw [bind_error (attempt_error ran (by decide))] at failed
      cases failed
    · rw [bind_ok (attempt_ok ran)] at failed
      cases failed

/-- Some line with the head of a pass is not of the form `name = value`. -/
def Malformed (text : Text) : Prop :=
  ∃ line ∈ text.splitOn 10, (∃ type : ConfType, type.lineHead.isPrefixOf line = true) ∧ nameValue line = none

/-- `read_conf` returns, and a malformed file is refused. -/
structure Reported (text : Text) (conf : KvConf) : Prop where
  returns : (readConf (some text) conf).1 = .ok () ∨ (readConf (some text) conf).1 = .error .failed
  malformed : Malformed text → (readConf (some text) conf).1 = .error .failed ∧ (readConf (some text) conf).2.readOk = false

/-- A piece of the file is refused before any other one makes a pass throw, write outside its
buffers or print an argument that is not there; and there is such a piece in a malformed file. -/
structure RefusedFirst (text : Text) : Prop where
  before : ∀ earlier visit later, visits text = earlier ++ visit :: later → visit.verdict = some .fault →
    ∃ refused ∈ earlier, refused.verdict = some .failed
  malformed : Malformed text → ∃ refused ∈ visits text, refused.verdict = some .failed

/-- The first piece that stops a pass, where it is refused: it comes before all that break one. -/
theorem first_refused {text : Text} (first : (visits text).findSome? Visit.verdict = some .failed) :
    (∃ refused ∈ visits text, refused.verdict = some .failed) ∧
      ∀ earlier visit later, visits text = earlier ++ visit :: later → visit.verdict = some .fault →
        ∃ refused ∈ earlier, refused.verdict = some .failed := by
  obtain ⟨passed, refused, rest, split, failed, none⟩ := List.findSome?_eq_some_iff.mp first
  refine ⟨⟨refused, split ▸ List.mem_append_right passed List.mem_cons_self, failed⟩, ?_⟩
  intro earlier visit later same broken
  have both := split.symm.trans same
  rcases List.append_eq_append_iff.mp both with ⟨more, rfl, tail⟩ | ⟨more, rfl, tail⟩
  · cases more with
    | nil =>
      obtain ⟨rfl, _⟩ := List.cons.inj tail
      rw [failed] at broken
      cases broken
    | cons head more =>
      obtain ⟨rfl, _⟩ := List.cons.inj tail
      exact ⟨refused, List.mem_append_right passed List.mem_cons_self, failed⟩
  · cases more with
    | nil =>
      obtain ⟨rfl, _⟩ := List.cons.inj tail
      rw [failed] at broken
      cases broken
    | cons head more =>
      obtain ⟨rfl, _⟩ := List.cons.inj tail
      rw [none visit (List.mem_append_right earlier List.mem_cons_self)] at broken
      cases broken

/-- What is malformed is reported exactly when a refused piece comes first. -/
theorem reported_iff (text : Text) (conf : KvConf) : Reported text conf ↔ RefusedFirst text := by
  have outcome := readConf_fst text conf
  have failed := readConf_failed text conf
  generalize first : (visits text).findSome? Visit.verdict = stops at outcome
  constructor
  · rintro ⟨returns, malformed⟩
    rcases stops with _ | _ | _ | _
    · have none := List.findSome?_eq_none_iff.mp first
      refine ⟨fun earlier visit later same broken => ?_, fun wrong => ?_⟩
      · rw [none visit (same ▸ List.mem_append_right earlier List.mem_cons_self)] at broken
        cases broken
      · exact absurd (outcome.symm.trans (malformed wrong).1) (by simp [ending])
    · obtain ⟨some, before⟩ := first_refused first
      exact ⟨before, fun _ => some⟩
    · rw [outcome] at returns
      simp [ending] at returns
    · rw [outcome] at returns
      simp [ending] at returns
  · rintro ⟨before, malformed⟩
    rcases stops with _ | _ | _ | _
    · have none := List.findSome?_eq_none_iff.mp first
      refine ⟨.inl outcome, fun wrong => ?_⟩
      obtain ⟨refused, member, stopped⟩ := malformed wrong
      rw [none refused member] at stopped
      cases stopped
    · exact ⟨.inr outcome, fun _ => ⟨outcome, failed outcome⟩⟩
    · obtain ⟨earlier, visit, later, same, broken, none⟩ := List.findSome?_eq_some_iff.mp first
      obtain ⟨refused, member, stopped⟩ := before earlier visit later same broken
      rw [none refused member] at stopped
      cases stopped
    · obtain ⟨_, visit, _, _, exhausted, _⟩ := List.findSome?_eq_some_iff.mp first
      exact absurd exhausted (chunkVerdict_returns visit.type visit.chunk)

/-- The report on a refused value is a format. -/
example : ¬ RefusedFirst (ascii "all.port = %s\n") := fun first => by
  obtain ⟨_, member, _⟩ := first.before [] ⟨.global, ascii "all.port = %s\n"⟩ _ rfl (by decide)
  cases member

/-- A line without an equals sign makes `read_conf` throw. -/
theorem no_value_throws : (readConf (some (ascii "all.port 80\n")) {}).1 = .error .fault ∧
    ¬ Reported (ascii "all.port 80\n") {} := by
  have throws : (readConf (some (ascii "all.port 80\n")) {}).1 = .error .fault := by decide +kernel
  refine ⟨throws, fun reported => ?_⟩
  have returns := reported.returns
  rw [throws] at returns
  simp at returns

end KvConf

end Pingkv
