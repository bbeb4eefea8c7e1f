import Mathlib.Logic.Function.Basic
import Pingkv.Conf.Syntax
import Pingkv.Lib.Exec

/-! The `kv_conf` class: three passes over the lines of a configuration file, each
for the lines with one head. -/

namespace Pingkv

@[ext]
structure KvConfData where
  serverId : Int := 0
  dbName : Text := []
  ip : Text := []
  port : Int := 7000
  createFile : Bool := true
  filePath : Text := []
  serverCount : Int := 1
  fileCount : Int := 1
  lruCacheSize : Int := 1024 * 1024 * 10
  lruMaxElemSize : Int := 1024 * 256
  deriving DecidableEq, Repr

/-- The object. `server_conf` has one record for each number in its domain. -/
structure KvConf where
  readOk : Bool := false
  localServerId : Int := -1
  serverConf : Int → Option KvConfData := fun _ => none
  globalConf : KvConfData := {}

/-- The three values of `create_file` that are no number and mean true. -/
def isYes (v : Text) : Bool := v = ascii "yes" || v = ascii "YES" || v = ascii "Yes"

/-- The branch for `create_file`. The `else` belongs to the test of the number. -/
def KvConfData.setCreateFile (conf : KvConfData) (v : Text) : KvConfData :=
  if isYes v then { conf with createFile := true }
  else if KvConf.isNum v then
    if atoi v > 0 then { conf with createFile := true } else { conf with createFile := false }
  else conf

/-- `kv_conf::_set_server_param` on one record: nothing where it returns -1. -/
def KvConfData.setServerParam (conf : KvConfData) (p v : Text) : Option KvConfData :=
  let isnum := KvConf.isNum v
  let i := atoi v
  let len := v.length
  if p = ascii "server_id" then
    if !isnum || i < 0 then none else some { conf with serverId := i }
  else if p = ascii "db_name" then
    if len > 127 || len = 0 then none else some { conf with dbName := v }
  else if p = ascii "file_path" then
    if len > 127 || len = 0 then none else some { conf with filePath := v }
  else if p = ascii "ip" then
    if len > 15 || len < 7 then none else some { conf with ip := v }
  else if p = ascii "port" then
    if !isnum || i < 0 then none else some { conf with port := i }
  else if p = ascii "create_file" then
    some (conf.setCreateFile v)
  else if p = ascii "server_count" then
    if !isnum || i < 1 then none else some { conf with serverCount := i }
  else if p = ascii "file_count" then
    if !isnum || i < 1 then none else some { conf with fileCount := i }
  else if p = ascii "lru_cache_size" then
    if KvConf.strToBytes v < 0 then none else some { conf with lruCacheSize := KvConf.strToBytes v }
  else if p = ascii "lru_max_elem_size" then
    if KvConf.strToBytes v < 0 then none else some { conf with lruMaxElemSize := KvConf.strToBytes v }
  else none

namespace KvConf

open Exec

inductive ConfType where
  | global | server | «local»
  deriving DecidableEq, Repr

/-- `kv_conf::_set_local_param`. -/
def setLocalParam (p v : Text) : Exec KvConf Unit := do
  if p = [] ∨ v = [] then failed
  if p = ascii "server_id" then
    if !isNum v then failed
    update fun conf => { conf with localServerId := atoi v }
    if atoi v < 0 then failed

/-- `kv_conf::_set_global_param`. -/
def setGlobalParam (p v : Text) : Exec KvConf Unit := do
  if p = [] ∨ v = [] then failed
  match (← read KvConf.globalConf).setServerParam p v with
  | some data => update fun conf => { conf with globalConf := data }
  | none => failed

/-- `_server_conf[id] = ...`. -/
def putServer (id : Int) (data : KvConfData) : Exec KvConf Unit :=
  update fun conf => { conf with serverConf := Function.update conf.serverConf id (some data) }

/-- `kv_conf::_set_server_param`. The first line of a server copies the global record. -/
def setServerParam (p v : Text) : Exec KvConf Unit := do
  if p = [] ∨ v = [] then failed
  let (id, param) := splitServidParam p
  if id = -1 ∨ param = [] then failed
  let data ← read fun conf => (conf.serverConf id).getD conf.globalConf
  putServer id data
  match data.setServerParam param v with
  | some data => putServer id data
  | none => failed

/-- A line is reported and refused. -/
def syntaxError (line : Text) : Exec KvConf Unit := if reports line then failed else fault

/-- `line_head`. -/
def ConfType.lineHead : ConfType → Text
  | .server => ascii "server."
  | .global => ascii "all."
  | .local => ascii "local."

def ConfType.setParam : ConfType → Text → Text → Exec KvConf Unit
  | .server => setServerParam
  | .global => setGlobalParam
  | .local => setLocalParam

/-- What `_load_conf` does with one line. `substr` throws where the first group is
shorter than the head of the line. -/
def loadLine (type : ConfType) (line : Text) : Exec KvConf Unit :=
  if type.lineHead.isPrefixOf line then do
    let pv := getParamVal line
    if pv.1.length < type.lineHead.length then fault
    let first := pv.1.drop type.lineHead.length
    if first = [] ∨ pv.2 = [] then syntaxError line
    match ← attempt (type.setParam first pv.2) with
    | some _ => pure ()
    | none => syntaxError line
  else pure ()

/-- The loop of `_load_conf`, for as many calls of `fgets` as there are bytes. An empty
string in `buf` puts the final zero in front of it. -/
def loadLoop (type : ConfType) : Nat → Text → Exec KvConf Unit
  | _, [] => pure ()
  | 0, _ => exhausted
  | calls + 1, text => do
    let buf := (fgets (bufSize - 1) text).1.takeWhile (· ≠ 0)
    if buf = [] then fault
    loadLine type buf.dropLast
    loadLoop type calls (fgets (bufSize - 1) text).2

/-- `kv_conf::_load_conf`. -/
def loadConf (text : Text) (type : ConfType) : Exec KvConf Unit := loadLoop type text.length text

/-- `kv_conf::read_conf`, given what the file holds; nothing where it cannot be opened. -/
def readConf (file : Option Text) : Exec KvConf Unit := do
  let loaded ← attempt (match file with
    | none => failed
    | some text => do
      loadConf text .global
      loadConf text .server
      loadConf text .local)
  update fun conf => { conf with readOk := loaded.isSome }
  if loaded = none then failed

/-- `kv_conf::get_server_conf`. Without a record the process exits. -/
def getServerConf (conf : KvConf) (id : Int) : Option KvConfData := conf.serverConf id

end KvConf

end Pingkv
