import Pingkv.Index.Run

/-! How the data files of a server are opened, one after another in one process. -/

namespace Pingkv

namespace File

/-- The file with a process entered in its head. -/
def owned (file : File) (pid : Int) : File := { file with info := { file.info with currPid := pid } }

/-- What `_open` takes for a file in which the index has no root yet. -/
def Rootless (file : File) : Prop := file.info.usedBlockCount = 2 ∧ (file.block 1).free = 8152

theorem owned_self (file : File) : file.owned file.info.currPid = file := rfl

theorem owned_rootless {file : File} {pid : Int} : (file.owned pid).Rootless ↔ file.Rootless := Iff.rfl

end File

/-- A process among the files of a machine. -/
structure World extends Host where
  pid : Int
  pidExists : Int → Bool
  file : List UInt8 → Option File

namespace World

open Exec DataFile

/-- A `data_file` object for the file a path names. -/
def object (path : List UInt8) (world : World) : DataFile where
  toFile := (world.file path).getD noFile
  toHost := world.toHost
  cache := []
  initOk := false

/-- `open(path, O_RDWR)`. -/
def openPath (path : List UInt8) : Exec World Bool := do
  match ← read fun world => world.file path with
  | none =>
    update fun world => { world with errno := enoent }
    return false
  | some _ => within (object path) (fun dbf world => { world with toHost := dbf.toHost }) (osCall .open)

/-- `data_file::exists`. What `errno` holds is looked at after an `open` that succeeded as well. -/
def fileExists (path : List UInt8) : Exec World Bool := do
  let opened ← openPath path
  let errno ← read fun world => world.errno
  if opened = false ∧ errno ≠ enoent then failed
  else if errno = enoent then return false
  else return true

/-- `kv_index::_open` once `exists` has answered. -/
def openObject (found create : Bool) (dbName : List UInt8) (fileId pid : Int) (pidExists : Int → Bool) :
    Exec DataFile Unit := do
  if found then openFile pid pidExists
  else if create then createFile dbName fileId pid
  else failed
  if (← read DataFile.usedBlockCount) = 2 then
    if (← freeBytes 2) = nodeLen then KvIndex.create

/-- The world once an object is done with the file of a path. `O_CREAT` makes one where there was none. -/
def save (path : List UInt8) (created : Bool) (dbf : DataFile) (world : World) : World where
  toHost := dbf.toHost
  pid := world.pid
  pidExists := world.pidExists
  file := fun other =>
    if other = path then
      if world.file path = none ∧ created = false then none else some dbf.toFile
    else world.file other

/-- `kv_index::open_index`. -/
def openIndex (path dbName : List UInt8) (fileId : Int) (create : Bool) : Exec World Unit := do
  let found ← fileExists path
  let world ← read id
  within (object path) (save path (create && world.os .open 0)) do
    openObject found create dbName fileId world.pid world.pidExists
    flushBlocks

variable {world after : World} {path : List UInt8} {file : File} {dbf : DataFile} {found create : Bool}

/-- A path without a file leaves `ENOENT` in `errno`. -/
theorem fileExists_missing (missing : world.file path = none) :
    fileExists path world = (.ok false, { world with errno := enoent }) := by
  unfold fileExists openPath
  simp only [bind_assoc, read_bind_run, missing]
  rfl

/-- A file that is there is found unless `errno` holds `ENOENT` from before, or the system refuses to open it. -/
theorem fileExists_there (there : world.file path = some file) (clear : world.errno ≠ enoent) :
    ∃ last, (fileExists path world = (.ok true, last) ∨ fileExists path world = (.error .failed, last)) ∧
      last.file = world.file ∧ last.pid = world.pid := by
  refine ⟨{ world with toHost := (osCall .open (world.object path)).2.toHost }, ?_, rfl, rfl⟩
  have ran : openPath path world = (.ok (world.os .open 0),
      { world with toHost := (osCall .open (world.object path)).2.toHost }) := by
    simp only [openPath, read_bind_run, there]
    rfl
  have errno : (osCall .open (world.object path)).2.errno =
      if world.os .open 0 then world.errno else (world.code 0).val := rfl
  unfold fileExists
  rw [bind_ok ran]
  simp only [read_bind_run, errno]
  cases world.os .open 0 with
  | true => simp [clear]
  | false => simp [(world.code 0).property]

/-- `_block_free_bytes` of a mapped block, in a file of any shape. -/
theorem wp_blockFreeBytes (dbf : DataFile) (page : Nat) : wp (blockFreeBytes (.page page))
    (fun fre after => after = dbf ∧ (fre = 8152 → (dbf.block page).free = 8152)) (fun _ after => after = dbf) dbf := by
  unfold blockFreeBytes
  by_cases inside : 0 < page ∧ page < dbf.size
  · refine wp_bind_ok (load_page inside.1 inside.2) ?_
    by_cases empty : (dbf.block page).recordCount = 0
    · rw [if_pos empty]
      exact wp_pure ⟨rfl, fun _ => by simp [Block.free, empty]⟩
    · rw [if_neg empty]
      refine wp_bind (wp_attempt (wp_rowGetRecord (dbf.block page) (dbf.block page).recordCount dbf)
        (fun record after same => ?_) (fun after same => ?_)) fun _ _ rest => rest
      · obtain ⟨rfl, positive, rfl⟩ := same
        have pred : (after.block page).count = ((after.block page).recordCount - 1).toNat + 1 := by
          unfold Block.count
          omega
        dsimp only
        split
        · exact wp_pure ⟨rfl, fun impossible => by cases impossible⟩
        · refine wp_pure ⟨rfl, fun whole => ?_⟩
          have more : ¬ (recordAt (after.block page).data ((after.block page).recordCount - 1).toNat).offset ≤
            ((after.block page).recordCount + 1) * 16 := ‹_›
          rw [Block.free, if_neg empty, pred, Block.offset, if_neg more]
          exact whole
      · exact wp_pure ⟨same, fun impossible => by cases impossible⟩
  · exact wp_of_error (bind_error (show load (.page page) dbf = (.error .fault, dbf) by simp [load, inside])) rfl

/-- What an opened object leaves of its file: a process may be entered in the head. -/
def Owned (before after : File) : Prop := ∃ pid, after = before.owned pid

/-- An object still over the same bytes and with the same blocks mapped. -/
def Untouched (before after : DataFile) : Prop := after.toFile = before.toFile ∧ after.cache = before.cache

theorem Untouched.trans {mid last : DataFile} (first : Untouched dbf mid) (second : Untouched mid last) :
    Untouched dbf last :=
  ⟨second.1.trans first.1, second.2.trans first.2⟩

/-- A call into the operating system, and -1 where it fails. -/
theorem wp_osCall {α : Type} {next : Bool → Exec DataFile α} {post : α → DataFile → Prop} {halt : Stop → DataFile → Prop}
    {call : OsCall} (rest : ∀ served after, Untouched dbf after → wp (next served) post halt after) :
    wp (osCall call >>= next) post halt dbf := by
  obtain ⟨after, called, quiet, cache, _⟩ := osCall_run dbf call
  exact wp_bind_ok called (rest _ after ⟨quiet.file, cache⟩)

theorem wp_readFileHead (dbf : DataFile) :
    wp readFileHead (fun _ after => Untouched dbf after) (fun _ after => Untouched dbf after) dbf := by
  refine wp_osCall fun served after same => ?_
  cases served with
  | true => exact wp_pure same
  | false => exact wp_of_error rfl same

theorem attempt_flushFileHead (dbf : DataFile) :
    ∃ ended after, attempt flushFileHead dbf = (.ok ended, after) ∧ Untouched dbf after := by
  obtain ⟨after, called, quiet, cache, _⟩ := osCall_run dbf .msync
  cases served : dbf.os .msync 0 with
  | true =>
    exact ⟨some (), after, attempt_ok (by rw [flushFileHead, bind_ok called, served]; rfl), quiet.file, cache⟩
  | false =>
    exact ⟨none, after, attempt_failed (by rw [flushFileHead, bind_ok called, served]; rfl), quiet.file, cache⟩

theorem wp_openFile (dbf : DataFile) (pid : Int) (pidExists : Int → Bool) : wp (openFile pid pidExists)
    (fun _ after => Owned dbf.toFile after.toFile ∧ after.cache = dbf.cache)
    (fun _ after => Owned dbf.toFile after.toFile) dbf := by
  have owned {after : DataFile} (same : Untouched dbf after) : Owned dbf.toFile after.toFile := ⟨_, same.1⟩
  unfold openFile
  refine wp_osCall fun served opened same => ?_
  cases served with
  | false => exact wp_of_error rfl (owned same)
  | true =>
    refine wp_bind ((wp_readFileHead opened).mono (fun _ _ => id) fun _ _ same' => owned (same.trans same')) ?_
    intro _ mapped same'
    have kept := same.trans same'
    refine wp_bind_ok (read_run _ _) ?_
    split
    · exact wp_of_error rfl (owned kept)
    · split
      · exact wp_of_error rfl (owned kept)
      · obtain ⟨ended, flushed, ran, same''⟩ := attempt_flushFileHead
          { mapped with info := { mapped.info with currPid := pid } }
        refine wp_bind_ok (update_run _ _) (wp_bind_ok ran (wp_of_ok (update_run _ _) ⟨⟨pid, ?_⟩, same''.2.trans kept.2⟩))
        rw [← kept.1]
        exact same''.1

/-- `block_free_bytes(2)` of an object that has no block mapped. -/
theorem wp_freeBytes (dbf : DataFile) (cache : dbf.cache = []) : wp (freeBytes 2)
    (fun fre after => after.toFile = dbf.toFile ∧ (fre = 8152 → (dbf.block 1).free = 8152))
    (fun _ after => after.toFile = dbf.toFile) dbf := by
  have missed : cacheAt 2 dbf = (.ok .null, { dbf with cache := cachePut 2 .null dbf.cache }) := by
    unfold cacheAt
    simp only [read_bind_run, cache, List.lookup_nil, update_bind_run]
    rfl
  unfold freeBytes readBlock
  rw [bind_assoc]
  refine wp_bind_ok missed ?_
  rw [if_pos rfl, bind_assoc]
  refine wp_osCall fun served after same => ?_
  cases served with
  | false => exact wp_pure ⟨same.1, fun impossible => by cases impossible⟩
  | true =>
    have offset : (true && decide (0 ≤ mapOffset 2)) = true := by decide
    have page : (mapOffset 2 / blockSize).toNat = 1 := by decide
    rw [if_pos offset, page]
    refine wp_bind_ok (show _ = (Except.ok (BlockPtr.page 1),
      { after with cache := cachePut 2 (.page 1) after.cache }) from rfl) ?_
    refine (wp_blockFreeBytes _ 1).mono ?_ ?_
    · rintro fre freed ⟨rfl, full⟩
      exact ⟨same.1, fun whole => same.1 ▸ full whole⟩
    · rintro _ freed rfl
      exact same.1

/-- Opening a file that has its root enters the process and leaves the rest. -/
theorem wp_openObject (dbf : DataFile) (cache : dbf.cache = []) (rooted : ¬ dbf.toFile.Rootless) (create : Bool)
    (dbName : List UInt8) (fileId pid : Int) (pidExists : Int → Bool) :
    wp (openObject true create dbName fileId pid pidExists) (fun _ after => Owned dbf.toFile after.toFile)
      (fun _ after => Owned dbf.toFile after.toFile) dbf := by
  unfold openObject
  refine wp_bind ((wp_openFile dbf pid pidExists).mono (fun _ _ => id) fun _ _ => id) ?_
  rintro _ opened ⟨⟨owner, owned⟩, kept⟩
  refine wp_bind_ok (read_run _ _) ?_
  split
  · refine wp_bind ((wp_freeBytes opened (kept.trans cache)).mono (fun _ _ => id) fun _ _ same => ⟨owner, same.trans owned⟩) ?_
    rintro fre freed ⟨same, full⟩
    have root : fre ≠ nodeLen := by
      rintro rfl
      have used : opened.usedBlockCount = 2 := ‹_›
      unfold usedBlockCount at used
      split at used
      · have rootless : opened.toFile.Rootless := ⟨used, full rfl⟩
        rw [owned] at rootless
        exact rooted (File.owned_rootless.mp rootless)
      · cases used
    rw [if_neg root]
    exact wp_pure ⟨owner, same.trans owned⟩
  · exact wp_pure ⟨owner, owned⟩

theorem wp_flushBlocks_file (dbf : DataFile) : wp flushBlocks (fun _ after => after.toFile = dbf.toFile)
    (fun _ after => after.toFile = dbf.toFile) dbf := by
  have kept := flushBlocks_file dbf
  cases ran : flushBlocks dbf with
  | mk outcome after =>
    rw [ran] at kept
    cases outcome with
    | ok => exact wp_of_ok ran kept
    | error => exact wp_of_error ran kept

/-- Every file that has its root is as it was but for the process in its head. -/
def Keeps (before after : World) : Prop := ∀ path file, before.file path = some file → ¬ file.Rootless →
  ∃ pid, after.file path = some (file.owned pid)

theorem Keeps.refl (world : World) : world.Keeps world := fun _ file there _ => ⟨file.info.currPid, there⟩

theorem Keeps.trans {mid last : World} (first : world.Keeps mid) (second : mid.Keeps last) : world.Keeps last := by
  intro path file there rooted
  obtain ⟨pid, owned⟩ := first path file there rooted
  exact second path (file.owned pid) owned (mt File.owned_rootless.mp rooted)

/-- An object leaves all other files. -/
theorem save_keeps {created : Bool} (files : after.file = world.file)
    (own : ∀ file, world.file path = some file → ¬ file.Rootless → Owned file dbf.toFile) :
    world.Keeps (after.save path created dbf) := by
  intro other file there rooted
  by_cases same : other = path
  · subst same
    obtain ⟨pid, owned⟩ := own file there rooted
    refine ⟨pid, ?_⟩
    simp [save, files, there, owned]
  · exact ⟨file.info.currPid, by simp [save, same, files, there, File.owned_self]⟩

/-- Opening an index keeps the files, where `errno` does not hold `ENOENT` before a file that is there is opened. -/
theorem openIndex_keeps (clear : world.file path ≠ none → world.errno ≠ enoent) (dbName : List UInt8) (fileId : Int)
    (create : Bool) : wp (openIndex path dbName fileId create) (fun _ after => world.Keeps after)
      (fun _ after => world.Keeps after) world := by
  have any {call : Exec DataFile Unit} {mid : World} {created : Bool} (files : mid.file = world.file)
      (own : wp call (fun _ dbf => ∀ file, world.file path = some file → ¬ file.Rootless → Owned file dbf.toFile)
        (fun _ dbf => ∀ file, world.file path = some file → ¬ file.Rootless → Owned file dbf.toFile) (mid.object path)) :
      wp (within (object path) (save path created) call) (fun _ after => world.Keeps after)
        (fun _ after => world.Keeps after) mid :=
    wp_within (own.mono (fun _ _ => save_keeps files) fun _ _ => save_keeps files)
  unfold openIndex
  cases there : world.file path with
  | none =>
    refine wp_bind_ok (fileExists_missing there) (wp_bind_ok (read_run _ _) (any rfl ?_))
    refine wp_always.mono (fun _ _ _ file present => ?_) fun _ _ _ file present => ?_ <;> simp [there] at present
  | some file =>
    obtain ⟨mid, found | refused, files, _⟩ := fileExists_there there (clear (by simp [there]))
    · refine wp_bind_ok found (wp_bind_ok (read_run _ _) (any files ?_))
      have same : (mid.object path).toFile = file := by simp [object, files, there]
      by_cases rootless : file.Rootless
      · refine wp_always.mono (fun _ _ _ other same rooted => ?_) fun _ _ _ other same rooted => ?_ <;>
          exact absurd (Option.some.inj (there.symm.trans same) ▸ rootless) rooted
      · have opens := wp_openObject (mid.object path) rfl (same ▸ rootless) create dbName fileId mid.pid mid.pidExists
        rw [same] at opens
        refine (wp_bind opens fun _ opened owned => (wp_flushBlocks_file opened).mono
          (fun _ _ same => same ▸ owned) fun _ _ same => same ▸ owned).mono ?_ ?_
        · intro _ dbf owned other same _
          exact Option.some.inj (there.symm.trans same) ▸ owned
        · intro _ dbf owned other same _
          exact Option.some.inj (there.symm.trans same) ▸ owned
    · exact wp_of_error (bind_error refused) fun other file there _ => ⟨file.info.currPid, files ▸ there⟩

/-- Worlds that openings lead to, each made in a state that meets a condition. Between
two openings anything may happen to `errno` and to what the system answers. -/
inductive Runs (meets : World → List UInt8 → Prop) (first : World) : World → Prop where
  | start : Runs meets first first
  | opening {world after : World} {path dbName : List UInt8} {fileId : Int} {outcome : Except Stop Unit}
      (runs : Runs meets first world) (met : meets world path)
      (ran : openIndex path dbName fileId true world = (outcome, after)) : Runs meets first after
  | turn {world : World} {host : Host} {pidExists : Int → Bool} (runs : Runs meets first world) :
      Runs meets first { world with toHost := host, pidExists := pidExists }

/-- `errno` does not hold `ENOENT` when a file that is there is about to be opened. -/
def Clear (world : World) (path : List UInt8) : Prop := world.file path ≠ none → world.errno ≠ enoent

/-- In a run with clear openings every file with its root stays as it was but for the
process in its head, and `exists` never answers that a file is missing which is there. -/
theorem Runs.keeps_files {first : World} (runs : Runs Clear first world) : first.Keeps world ∧
    ∀ path, world.file path ≠ none → world.Clear path → (fileExists path world).1 ≠ .ok false := by
  constructor
  · induction runs with
    | start => exact Keeps.refl first
    | opening _ met ran kept =>
      rcases (openIndex_keeps met _ _ true).run ran with ⟨_, _, next⟩ | ⟨_, _, next⟩ <;> exact kept.trans next
    | turn _ kept => exact kept
  · intro path present clear
    obtain ⟨file, there⟩ := Option.ne_none_iff_exists'.mp present
    obtain ⟨last, found | refused, _⟩ := fileExists_there there (clear present)
    · simp [found]
    · simp [refused]

/-- A process that has opened nothing, over one file. -/
def oneFile (path : List UInt8) (file : File) : World where
  errno := 0
  os := fun _ _ => true
  code := fun _ => noCode
  junk := fun _ _ => 0
  pid := 1
  pidExists := fun _ => false
  file := fun other => if other = path then some file else none

/-- A data file with one key. -/
def keyFile : File := (KvIndex.perform KvIndex.start (.set (Buf.ofList [97]) (Buf.ofList [1]))).toFile

theorem opened_keeps : ∃ pid, (openIndex [98] [] 1 true (oneFile [98] keyFile)).2.file [98] = some (keyFile.owned pid) := by
  have runs := Runs.opening .start (show (oneFile [98] keyFile).Clear [98] from fun _ => by decide)
    (show openIndex [98] [] 1 true (oneFile [98] keyFile) = (_, _) from rfl)
  have used : keyFile.info.usedBlockCount = 3 := by decide +kernel
  exact (Runs.keeps_files runs).1 [98] keyFile rfl fun rootless => by simp [File.Rootless, used] at rootless

/-- A file that is opened after a missing one loses its head: block 3 counts as unused again. -/
theorem missing_then_present : ∃ first second, openIndex [97] [] 1 true (oneFile [98] keyFile) = (.ok (), first) ∧
    openIndex [98] [] 1 true first = (.ok (), second) ∧ first.errno = enoent ∧
    (first.file [98]).map (fun file => (file.info.usedBlockCount, file.size)) = some (3, 129) ∧
    (second.file [98]).map (fun file => (file.info.usedBlockCount, file.size)) = some (2, 257) :=
  ⟨_, _, run_of_fst (by decide +kernel), run_of_fst (by decide +kernel), by decide +kernel, by decide +kernel,
    by decide +kernel⟩

end World

end Pingkv
