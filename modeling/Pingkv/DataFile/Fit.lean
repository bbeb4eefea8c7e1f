import Pingkv.DataFile.Survive

/-! Data files over an operating system that may refuse any call: what is left of a
ready file, how far it can grow, and which blocks can be mapped. -/

namespace Pingkv

/-- How a file can grow: the blocks it has behind the used one, and what the coming
calls of `_extend_file` are answered. -/
structure Supply where
  spare : Int
  lseek : Nat → Bool
  write : Nat → Bool

namespace Supply

/-- The loop of `_extend_file`. -/
def append : Nat → Supply → Supply
  | 0, supply => supply
  | blocks + 1, supply =>
    let rest : Supply := { supply with write := fun n => supply.write (n + 1) }
    if supply.write 0 then append blocks { rest with spare := rest.spare + 1 } else rest

/-- What `_extend_file` is called for where the two counters meet. -/
def extend (supply : Supply) : Supply :=
  if supply.spare = 0 then
    let rest : Supply := { supply with lseek := fun n => supply.lseek (n + 1) }
    if supply.lseek 0 then rest.append 128 else rest
  else supply

def move (supply : Supply) : Supply := { supply with spare := supply.spare - 1 }

/-- Each of so many next blocks is there when it is moved on to. -/
def Grants : Nat → Supply → Prop
  | 0, _ => True
  | blocks + 1, supply => 0 < supply.extend.spare ∧ Grants blocks supply.extend.move

theorem grants_succ {blocks : Nat} {supply : Supply} :
    Grants (blocks + 1) supply ↔ 0 < supply.extend.spare ∧ Grants blocks supply.extend.move := Iff.rfl

instance Grants.decidable : (blocks : Nat) → (supply : Supply) → Decidable (Grants blocks supply)
  | 0, _ => isTrue trivial
  | blocks + 1, supply =>
    have := Grants.decidable blocks supply.extend.move
    inferInstanceAs (Decidable (_ ∧ _))

/-- How a file can grow where no call is refused. -/
structure Ample (supply : Supply) : Prop where
  spare : 0 ≤ supply.spare
  lseek : ∀ n, supply.lseek n = true
  write : ∀ n, supply.write n = true

theorem Ample.append {supply : Supply} (ample : Ample supply) (blocks : Nat) :
    Ample (supply.append blocks) ∧ (supply.append blocks).spare = supply.spare + blocks := by
  induction blocks generalizing supply with
  | zero => exact ⟨ample, (Int.add_zero _).symm⟩
  | succ blocks ih =>
    have spare := ample.spare
    obtain ⟨rest, more⟩ := ih (show Ample ⟨supply.spare + 1, supply.lseek, fun n => supply.write (n + 1)⟩ from
      ⟨by change 0 ≤ supply.spare + 1; omega, ample.lseek, fun n => ample.write (n + 1)⟩)
    rw [Supply.append, if_pos (ample.write 0)]
    refine ⟨rest, ?_⟩
    rw [more]
    push_cast
    omega

theorem Ample.extend {supply : Supply} (ample : Ample supply) : Ample supply.extend ∧ 0 < supply.extend.spare := by
  have spare := ample.spare
  unfold Supply.extend
  split
  · rename_i none
    rw [if_pos (ample.lseek 0)]
    obtain ⟨rest, more⟩ := Ample.append (show Ample ⟨supply.spare, fun n => supply.lseek (n + 1), supply.write⟩ from
      ⟨spare, fun n => ample.lseek (n + 1), ample.write⟩) 128
    exact ⟨rest, by rw [more]; push_cast; omega⟩
  · exact ⟨ample, by omega⟩

theorem Ample.grants {supply : Supply} (ample : Ample supply) (blocks : Nat) : Grants blocks supply := by
  induction blocks generalizing supply with
  | zero => trivial
  | succ blocks ih =>
    obtain ⟨rest, some⟩ := ample.extend
    exact ⟨some, ih ⟨by simp only [move]; omega, rest.lseek, rest.write⟩⟩

end Supply

namespace DataFile

open Exec

variable {file after : DataFile} {blockId other : Int} {block : BlockPtr} {cache : List (Int × BlockPtr)} {page : Nat}

/-- The object once every call into the operating system succeeds, with nothing mapped. -/
def mend (file : DataFile) : DataFile := { file with os := fun _ _ => true, cache := [] }

@[simp] theorem mend_toFile (file : DataFile) : file.mend.toFile = file.toFile := rfl

/-- A block that could not be mapped has a null entry. -/
def Patchy (file : DataFile) : Prop := ∀ entry ∈ file.cache,
  entry.2 = .null ∨ ∃ page, 0 < page ∧ page < file.size ∧ page < 262144 ∧ entry = ((page : Int) + 1, BlockPtr.page page)

/-- What a file stays when calls into the operating system are refused. -/
structure Fit (file : DataFile) : Prop where
  formed : file.toFile.Formed
  cached : file.Patchy

/-- No block is missing in the cache because it could not be mapped. -/
def Clean (file : DataFile) : Prop := ∀ entry ∈ file.cache, entry.2 ≠ .null

theorem Ready.fit (ready : file.Ready) : file.Fit := ⟨ready.formed, fun entry member => .inr (ready.cached entry member)⟩

theorem Ready.clean (ready : file.Ready) : file.Clean := by
  intro entry member null
  obtain ⟨page, _, _, _, rfl⟩ := ready.cached entry member
  cases null

theorem Fit.mend_ready (fit : file.Fit) : file.mend.Ready := by
  refine ⟨fit.formed, fun entry member => ?_, fun _ _ _ => rfl⟩
  cases member

/-- A call through pointers does in a mended object what it does in the object. -/
theorem confined_mend {α : Type} {call : Exec DataFile α} {outcome : Except Stop α} (confined : blocks.Confines call)
    (ran : call file.mend = (outcome, after)) :
    ∃ left contents, call file = (outcome, left) ∧ left = blocks.put contents file ∧ left.mend = after := by
  have same := confined.same (show blocks.look file = blocks.look file.mend from rfl) rfl
  have left := confined.left file.mend
  rw [ran] at same left
  exact ⟨_, _, same, rfl, left.symm⟩

/-- The cache and the host are as they were. -/
theorem Fit.put (fit : file.Fit) (contents : Nat → Int × Mem) (ready : (blocks.put contents file).mend.Ready) :
    (blocks.put contents file).Fit := ⟨ready.formed, fit.cached⟩

/-- The blocks a data file can still grow by. -/
def supply (file : DataFile) : Supply :=
  ⟨file.info.blockCount - file.info.usedBlockCount, file.os .lseek, file.os .write⟩

/-- What an extension leaves, whether or not it was refused. -/
structure Grown (before after : DataFile) : Prop where
  fit : after.Fit
  initOk : after.initOk = before.initOk
  opens : before.toFile.Opens after.toFile
  used : after.info.usedBlockCount = before.info.usedBlockCount
  cache : after.cache = before.cache
  mmap : after.os .mmap = before.os .mmap

theorem Fit.append (fit : file.Fit) {content : Block} (next : content.blockId = file.info.blockCount + 1)
    (empty : content.recordCount = 0) : (file.append content).Fit := by
  have formed := fit.formed
  have size := formed.size_eq
  have upper := formed.used_upper
  have isNew {page : Nat} (old : ¬ page < file.size) (within : page < file.size + 1) : page = file.size := by omega
  have appended (page : Nat) : (file.append content).block page = if page = file.size then content else file.block page := rfl
  have kept {page : Nat} (old : page < file.size) : (file.append content).block page = file.block page :=
    (appended page).trans (if_neg (Nat.ne_of_lt old))
  refine ⟨⟨formed.used_lower, ?_, formed.used_mapped, ?_, ?_, ?_, ?_⟩, fun entry member => ?_⟩
  · change file.info.usedBlockCount ≤ file.info.blockCount + 1
    omega
  · change ((file.size + 1 : Nat) : Int) = file.info.blockCount + 1
    omega
  · intro page positive within
    by_cases old : page < file.size
    · rw [kept old]
      exact formed.blockId page positive old
    · rw [appended, if_pos (isNew old within), next, isNew old within]
      omega
  · intro page positive within
    by_cases old : page < file.size
    · rw [kept old]
      exact formed.block page positive old
    · rw [appended, if_pos (isNew old within)]
      exact Block.formed_of_empty empty
  · intro page above within
    by_cases old : page < file.size
    · rw [kept old]
      exact formed.unused page above old
    · rw [appended, if_pos (isNew old within), empty]
  · refine (fit.cached entry member).imp_right fun ⟨page, positive, within, mapped, same⟩ => ?_
    exact ⟨page, positive, Nat.lt_succ_of_lt within, mapped, same⟩

theorem Grown.append {before : DataFile} (grown : Grown before file) {content : Block}
    (next : content.blockId = file.info.blockCount + 1) (empty : content.recordCount = 0) :
    Grown before (file.append content) := by
  have size := grown.opens.size
  have appended (page : Nat) : (file.append content).block page = if page = file.size then content else file.block page := rfl
  refine ⟨grown.fit.append next empty, grown.initOk, ⟨Nat.le_succ_of_le size, grown.opens.used, ?_, ?_⟩, grown.used,
    grown.cache, grown.mmap⟩
  · intro page within
    rw [appended, if_neg (by omega)]
    exact grown.opens.kept page within
  · intro page lower upper
    change page < file.size + 1 at upper
    by_cases last : page = file.size
    · rw [appended, if_pos last, empty]
    · rw [appended, if_neg last]
      exact grown.opens.fresh page lower (by omega)

private theorem extends_grown (before : DataFile) : Extends (Grown before) where
  sought _ grown := ⟨⟨grown.fit.formed, grown.fit.cached⟩, grown.initOk, grown.opens, grown.used, grown.cache, grown.mmap⟩
  wrote _ grown := ⟨⟨grown.fit.formed, grown.fit.cached⟩, grown.initOk, grown.opens, grown.used, grown.cache, grown.mmap⟩
  drawn _ grown := ⟨⟨grown.fit.formed, grown.fit.cached⟩, grown.initOk, grown.opens, grown.used, grown.cache, grown.mmap⟩
  append _ _ next empty grown := grown.append next empty

/-- How much the loop of `_extend_file` adds before it is refused. -/
private theorem extendLoop_supply (data : Mem) (number : Int) (count : Nat) : ∀ (file : DataFile) (next : Int),
    wp (extendLoop data number count next) (fun _ after => after.supply = file.supply.append count)
      (fun reason after => reason = .failed ∧ after.supply = file.supply.append count) file := by
  induction count with
  | zero => exact fun file _ => wp_pure rfl
  | succ count ih =>
    intro file next
    refine wp_bind_ok (osCall_eq file .write) ?_
    have rest : (file.called .write).supply = { file.supply with write := fun n => file.supply.write (n + 1) } := rfl
    by_cases served : file.os .write 0 = true
    · rw [if_pos served]
      have more : file.supply.append (count + 1) = ((file.called .write).append ⟨number + next, 0, data⟩).supply.append count := by
        rw [Supply.append, if_pos (show file.supply.write 0 = true from served)]
        congr 1
        have info : (file.called .write).info = file.info := rfl
        simp only [supply, DataFile.append, info, Supply.mk.injEq]
        exact ⟨by omega, rfl, rfl⟩
      rw [more]
      exact wp_bind_ok (update_run _ _) (ih _ _)
    · rw [if_neg served, Supply.append, if_neg (show ¬ file.supply.write 0 = true from served)]
      exact wp_of_error rfl ⟨rfl, rest⟩

private theorem extendFile_supply (file : DataFile) (meets : file.info.usedBlockCount = file.info.blockCount) :
    wp (extendFile 128) (fun _ after => after.supply = file.supply.extend)
      (fun reason after => reason = .failed ∧ after.supply = file.supply.extend) file := by
  have spare : file.supply.spare = 0 := by
    simp only [supply]
    omega
  have sought : (file.called .lseek).supply = { file.supply with lseek := fun n => file.supply.lseek (n + 1) } := rfl
  refine wp_bind_ok (osCall_eq file .lseek) ?_
  rw [Supply.extend, if_pos spare]
  by_cases served : file.os .lseek 0 = true
  · rw [if_pos served, if_pos (show file.supply.lseek 0 = true from served), ← sought]
    refine wp_bind_ok (read_run _ _) (wp_bind_ok (show uninitialised _ = _ from rfl) ?_)
    exact wp_bind (extendLoop_supply _ _ 128 _ 1) fun _ _ same => wp_pure same
  · rw [if_neg served, if_neg (show ¬ file.supply.lseek 0 = true from served)]
    exact wp_of_error rfl ⟨rfl, sought⟩

/-- Where the counters meet the file is extended as far as the operating system lets it. -/
theorem extendWhenUsed_fit (fit : file.Fit) : ∃ after, extendWhenUsed file = (.ok (), after) ∧ Grown file after ∧
    after.supply = file.supply.extend := by
  have grown : wp extendWhenUsed (fun _ => Grown file) (fun _ => Grown file) file :=
    (extends_grown file).whenUsed file ⟨fit, rfl, File.Opens.refl _, rfl, rfl, rfl⟩
  have grows : wp extendWhenUsed (fun _ after => after.supply = file.supply.extend) (fun _ _ => False) file := by
    refine wp_bind_ok (read_run _ file) ?_
    by_cases meets : file.info.usedBlockCount = file.info.blockCount
    · rw [if_pos meets]
      have extended := extendFile_supply file meets
      have attempted : wp (attempt (extendFile 128)) (fun _ after => after.supply = file.supply.extend) (fun _ _ => False) file := by
        rcases extended.cases with ⟨value, after, ran, same⟩ | ⟨reason, after, ran, rfl, same⟩
        · exact wp_of_ok (attempt_ok ran) same
        · exact wp_of_ok (attempt_failed ran) same
      exact wp_bind attempted fun _ _ same => wp_pure same
    · have spare : file.supply.spare ≠ 0 := by
        simp only [supply]
        omega
      rw [if_neg meets, Supply.extend, if_neg spare]
      exact wp_pure rfl
  rcases grows.cases with ⟨_, after, ran, same⟩ | ⟨_, _, _, never⟩
  · exact ⟨after, ran, grown.ok ran, same⟩
  · exact never.elim

theorem lookup_cachePut_ne (different : other ≠ blockId) : (cachePut blockId block cache).lookup other = cache.lookup other := by
  have apart : (other == blockId) = false := by simpa using different
  induction cache with
  | nil => simp [cachePut, List.lookup_cons, apart]
  | cons head rest ih =>
    obtain ⟨key, content⟩ := head
    rw [cachePut]
    split
    · rename_i same
      subst same
      simp [List.lookup_cons, apart]
    · split
      · rw [List.lookup_cons, apart]
      · rw [List.lookup_cons, List.lookup_cons, ih]

theorem lookup_cachePut : (cachePut blockId block cache).lookup blockId = some block := by
  induction cache with
  | nil => simp [cachePut]
  | cons head rest ih =>
    obtain ⟨key, content⟩ := head
    rw [cachePut]
    split
    · simp
    · split
      · simp
      · rename_i different _
        rw [List.lookup_cons, show (blockId == key) = false by simpa using different, ih]

/-- The block is mapped already. -/
def held (file : DataFile) (blockId : Int) : Prop := (file.cache.lookup blockId).getD .null ≠ .null

instance (file : DataFile) (blockId : Int) : Decidable (file.held blockId) := inferInstanceAs (Decidable (_ ≠ _))

/-- The block is mapped already or can be, behind a number of calls of `mmap`. -/
def Maps (file : DataFile) (blockId : Int) (calls : Nat) : Prop :=
  file.held blockId ∨ file.os .mmap calls = true ∧ 0 ≤ mapOffset blockId

instance (file : DataFile) (blockId : Int) (calls : Nat) : Decidable (file.Maps blockId calls) := inferInstanceAs (Decidable (_ ∨ _))

/-- What `_read_block` leaves of an object for a number up to the one behind the last block that can be mapped. -/
structure Opened (before after : DataFile) (blockId : Int) (block : BlockPtr) : Prop where
  file : after.toFile = before.toFile
  initOk : after.initOk = before.initOk
  junk : after.junk = before.junk
  supply : after.supply = before.supply
  found : block = .page (blockId - 1).toNat ∧ blockId ≤ 262144 ∧ before.Maps blockId 0 ∨
    block = .mapFailed ∧ ¬ before.Maps blockId 0
  mmap : after.os .mmap = if before.held blockId then before.os .mmap else fun n => before.os .mmap (n + 1)
  held : ∀ other ≠ blockId, after.held other ↔ before.held other
  holds : block ≠ .mapFailed → after.held blockId
  patchy : (block ≠ .mapFailed → (blockId - 1).toNat < before.size) → after.Patchy
  clean : before.Clean → block ≠ .mapFailed → after.Clean

theorem readBlock_patchy (cached : file.Patchy) (lower : 2 ≤ blockId) (upper : blockId ≤ 262145) :
    ∃ block after, readBlock blockId file = (.ok block, after) ∧ Opened file after blockId block := by
  have ran := readBlock_run file blockId
  by_cases missing : (file.cache.lookup blockId).getD .null = .null
  · have free : ¬ file.held blockId := fun held => held missing
    rw [if_pos missing] at ran
    by_cases served : file.os .mmap 0 = true ∧ 0 ≤ mapOffset blockId
    · rw [if_pos served] at ran
      have low : blockId ≤ 262144 := by
        by_contra past
        rw [show blockId = 262145 by omega] at served
        exact mapOffset_limit_neg served.2
      rw [mapped_eq (by omega) low] at ran
      refine ⟨_, _, ran, rfl, rfl, rfl, rfl, .inl ⟨rfl, low, .inr served⟩, ?_, ?_, ?_, ?_, ?_⟩
      · rw [if_neg free]
        rfl
      · intro other different
        simp only [DataFile.held, lookup_cachePut_ne different]
      · intro _
        simp [DataFile.held, lookup_cachePut]
      · intro within entry member
        rcases mem_cachePut member with rfl | old
        · refine .inr ⟨(blockId - 1).toNat, by omega, within (by simp), by omega, Prod.ext ?_ rfl⟩
          simp only
          omega
        · exact cached entry old
      · intro clean _ entry member
        rcases mem_cachePut member with rfl | old
        · simp
        · exact clean entry old
    · rw [if_neg served] at ran
      have left : ∀ entry ∈ looked file.cache blockId, entry.2 = .null ∨ entry ∈ file.cache := by
        intro entry member
        rw [looked] at member
        split at member
        · exact .inr member
        · exact (mem_cachePut member).imp_left (congrArg Prod.snd)
      refine ⟨_, _, ran, rfl, rfl, rfl, rfl, .inr ⟨rfl, fun maps => maps.elim free served⟩, ?_, ?_, fun found => absurd rfl found,
        ?_, ?_⟩
      · rw [if_neg free]
        rfl
      · intro other different
        simp only [DataFile.held, looked]
        split
        · rfl
        · rw [lookup_cachePut_ne different]
      · exact fun _ entry member => (left entry member).elim .inl (cached entry)
      · exact fun _ found => absurd rfl found
  · have held : file.held blockId := missing
    rw [if_neg missing] at ran
    cases found : file.cache.lookup blockId with
    | none => exact absurd (by rw [found]; rfl) missing
    | some block =>
      rw [found, Option.getD_some] at ran missing
      rcases cached (blockId, block) (mem_of_lookup found) with null | ⟨page, positive, within, low, same⟩
      · exact absurd null missing
      · obtain ⟨rfl, rfl⟩ := Prod.mk.inj same
        refine ⟨_, _, ran, rfl, rfl, rfl, rfl, .inl ⟨by simp, by omega, .inl held⟩, ?_, fun _ _ => Iff.rfl, fun _ => held,
          fun _ => cached, fun clean _ => clean⟩
        rw [if_pos held]

/-- So many coming calls of `mmap` succeed. -/
def ServesMaps (file : DataFile) (calls : Nat) : Prop := ∀ n < calls, file.os .mmap n = true

/-- The calls of `mmap` that are left for another block. -/
theorem Opened.maps {calls : Nat} (opened : Opened file after blockId block) (different : other ≠ blockId) :
    after.Maps other calls ↔ file.Maps other (calls + if file.held blockId then 0 else 1) := by
  simp only [Maps, opened.held other different, opened.mmap]
  split <;> rfl

theorem Opened.fit (opened : Opened file after blockId block) (fit : file.Fit)
    (within : block ≠ .mapFailed → (blockId - 1).toNat < file.size) : after.Fit :=
  ⟨opened.file ▸ fit.formed, opened.patchy within⟩

/-- `_find_block_can_write` gets the blocks mapped that it looks at. -/
def FirstMaps (file : DataFile) : Prop :=
  file.Maps file.info.usedBlockCount 0 ∧ ((file.block file.current).free = 0 →
    file.Maps (file.info.usedBlockCount + 1) (if file.held file.info.usedBlockCount then 0 else 1))

instance (file : DataFile) : Decidable file.FirstMaps := inferInstanceAs (Decidable (_ ∧ _))

/-- A call in which `mmap` was called a number of times at most, and never refused. -/
structure Smooth (before after : DataFile) (calls : Nat) : Prop where
  clean : before.Clean → after.Clean
  served : ∀ n, before.ServesMaps (calls + n) → after.ServesMaps n

theorem Smooth.trans {last : DataFile} {calls more : Nat} (first : Smooth file after calls) (second : Smooth after last more) :
    Smooth file last (calls + more) := by
  refine ⟨fun clean => second.clean (first.clean clean), fun n serves => second.served n (first.served _ ?_)⟩
  rwa [← Nat.add_assoc]

theorem Smooth.mono {calls more : Nat} (smooth : Smooth file after calls) (fewer : calls ≤ more) : Smooth file after more :=
  ⟨smooth.clean, fun n serves => smooth.served n fun k below => serves k (by omega)⟩

theorem Opened.smooth (opened : Opened file after blockId block) (mapped : block ≠ .mapFailed) :
    Smooth file after (if file.held blockId then 0 else 1) := by
  refine ⟨fun clean => opened.clean clean mapped, fun n serves k below => ?_⟩
  rw [opened.mmap]
  split at serves
  · rename_i held
    rw [if_pos held]
    exact serves k (by omega)
  · rename_i free
    rw [if_neg free]
    exact serves (k + 1) (by omega)

theorem Grown.smooth {before : DataFile} (grown : Grown before file) : Smooth before file 0 := by
  refine ⟨fun clean => ?_, fun n serves k below => ?_⟩
  · rw [Clean, grown.cache]
    exact clean
  · rw [grown.mmap]
    exact serves k (by omega)

/-- A block to write to was found, and mapped. -/
structure FoundFit (before after : DataFile) (block : BlockPtr) (fre : Int) : Prop where
  fit : after.Fit
  found : Found before.mend after.mend block fre
  smooth : Smooth before after ((if before.held before.info.usedBlockCount then 0 else 1) +
    if (before.block before.current).free = 0 then 1 else 0)
  held : after.held after.info.usedBlockCount
  fresh : (before.block before.current).free = 0 → fre = 8152
  supply : after.supply =
    if (before.block before.current).free = 0 then before.supply.extend.move else before.supply.extend
  used : after.info.usedBlockCount =
    before.info.usedBlockCount + if (before.block before.current).free = 0 then 1 else 0

/-- A page past the end of the file cannot be touched. -/
theorem load_outside (outside : file.size ≤ page) : load (.page page) file = (.error .fault, file) := by
  simp [load, Nat.not_lt.mpr outside]

/-- The next block becomes the used one, if it is there and can be mapped. -/
theorem readNextBlock_fit (fit : file.Fit) : ∃ block after, readNextBlock file = (.ok block, after) ∧
    Opened (file.advance.called .msync) after (file.info.usedBlockCount + 1) block := by
  have lower := fit.formed.used_lower
  have upper := fit.formed.used_mapped
  have cached : (file.advance.called .msync).Patchy := fit.cached
  obtain ⟨block, after, ran, opened⟩ := readBlock_patchy cached (show 2 ≤ file.info.usedBlockCount + 1 by omega) (by omega)
  exact ⟨block, after, (readNextBlock_eq file).trans ran, opened⟩

theorem Grown.maps {before : DataFile} {calls : Nat} (grown : Grown before file) :
    file.Maps blockId calls ↔ before.Maps blockId calls := by
  simp only [Maps, held, grown.cache, grown.mmap]

theorem Grown.held {before : DataFile} (grown : Grown before file) : file.held blockId ↔ before.held blockId := by
  rw [DataFile.held, DataFile.held, grown.cache]

theorem Grown.current {before : DataFile} (grown : Grown before file) : file.current = before.current := by
  rw [File.current, grown.used]
  rfl

/-- The next block became the used one. -/
structure MovedFit (before after : DataFile) : Prop where
  fit : after.Fit
  moved : Moved before.mend after.mend
  smooth : Smooth before after 1
  held : after.held after.info.usedBlockCount
  supply : after.supply = before.supply.move
  used : after.info.usedBlockCount = before.info.usedBlockCount + 1

/-- Whether the next block is there and can be mapped. -/
theorem Opened.moved (fit : file.Fit) (room : 0 < file.supply.spare)
    (opened : Opened (file.advance.called .msync) after (file.info.usedBlockCount + 1) block) (mapped : block ≠ .mapFailed) :
    block = .page after.current ∧ MovedFit file after := by
  have formed := fit.formed
  have moved : after.toFile = file.advance.toFile := opened.file
  have more : file.info.usedBlockCount < file.info.blockCount := by
    simp only [DataFile.supply] at room
    omega
  rcases opened.found with ⟨rfl, low, _⟩ | ⟨rfl, _⟩
  · have next := (advance_ready fit.mend_ready more (by change file.info.usedBlockCount < 262144; omega)).formed
    have within : file.advance.current < file.size := next.current_within
    have fitAfter : after.Fit := opened.fit ⟨next, fit.cached⟩ fun _ => within
    have current : after.current = file.advance.current := by rw [moved]
    have smooth := (opened.smooth mapped).mono (show _ ≤ 1 by split <;> omega)
    refine ⟨congrArg BlockPtr.page current.symm, fitAfter, ⟨fitAfter.mend_ready, opened.initOk, ?_, ?_, ?_, ?_⟩,
      ⟨smooth.clean, smooth.served⟩, ?_, ?_, ?_⟩
    · change file.toFile.Opens after.toFile
      rw [moved]
      exact advance_opens file
    · have old := formed.current_eq
      have new : file.advance.current = (file.info.usedBlockCount + 1 - 1).toNat := rfl
      change after.current = file.current + 1
      omega
    · change after.info.blockCount = _
      rw [moved]
      rfl
    · change (after.block after.current).recordCount = 0
      rw [current, moved]
      refine formed.unused _ ?_ within
      simp only [File.current, advance]
      omega
    · rw [moved]
      exact opened.holds mapped
    · rw [opened.supply]
      simp only [DataFile.supply, Supply.move, Supply.mk.injEq]
      refine ⟨?_, rfl, rfl⟩
      change file.info.blockCount - (file.info.usedBlockCount + 1) = _
      omega
    · rw [moved]
      rfl
  · exact absurd rfl mapped

theorem Opened.outside (fit : file.Fit) (none : ¬ 0 < file.supply.spare)
    (opened : Opened (file.advance.called .msync) after (file.info.usedBlockCount + 1) block) :
    load block after = (.error .fault, after) := by
  have size := fit.formed.size_eq
  have sameSize : after.size = file.size := by
    rw [opened.file]
    rfl
  rcases opened.found with ⟨rfl, _⟩ | ⟨rfl, _⟩
  · simp only [DataFile.supply] at none
    exact load_outside (by omega)
  · rfl

/-- The used block was full, and the loop of `_find_block_can_write` takes the next one. -/
private theorem findLoop_fit (fit : file.Fit) (full : BlockPtr) (steps : Nat) :
    wp (findLoop (steps + 1) full 0)
      (fun found after => found.2 = -1 ∧ found.1 = .mapFailed ∧ ¬ file.Maps (file.info.usedBlockCount + 1) 0 ∨
        (MovedFit file after ∧ found = (.page after.current, 8152)) ∧ file.Maps (file.info.usedBlockCount + 1) 0)
      (fun reason _ => reason = .fault ∧ ¬ 0 < file.supply.spare) file := by
  obtain ⟨block, after, ran, opened⟩ := readNextBlock_fit fit
  rw [findLoop, if_neg (by simp)]
  refine wp_bind_ok ran ?_
  by_cases failed : block = .mapFailed
  · rw [if_pos failed]
    rcases opened.found with ⟨rfl, _⟩ | ⟨_, unmapped⟩
    · cases failed
    · exact wp_pure (.inl ⟨rfl, failed, unmapped⟩)
  · have maps : file.Maps (file.info.usedBlockCount + 1) 0 := by
      rcases opened.found with ⟨_, _, maps⟩ | ⟨rfl, _⟩
      · exact maps
      · exact absurd rfl failed
    rw [if_neg failed]
    by_cases room : 0 < file.supply.spare
    · obtain ⟨rfl, moved⟩ := opened.moved fit room failed
      have formed := moved.fit.formed
      have empty : (after.block after.current).recordCount = 0 := moved.moved.empty
      have freeRun := blockFreeBytes_page formed.current_positive formed.current_within formed.current_block
      rw [show (after.block after.current).free = 8152 by simp [Block.free, empty]] at freeRun
      refine wp_bind_ok freeRun ?_
      rw [if_neg (by decide), findLoop.eq_def, if_pos (by decide)]
      exact wp_pure (.inr ⟨⟨moved, rfl⟩, maps⟩)
    · have outside := opened.outside fit room
      exact wp_of_error (bind_error (bind_error outside)) ⟨rfl, room⟩

/-- The used block behind an extension, where it could be mapped. -/
private theorem opened_used {before : DataFile} (fit : before.Fit) (grown : Grown before file)
    (opened : Opened file after file.info.usedBlockCount block) (mapped : block ≠ .mapFailed) :
    after.Fit ∧ after.current = before.current ∧ block = .page after.current ∧ before.toFile.Opens after.toFile ∧
      after.block before.current = before.block before.current ∧ before.Maps before.info.usedBlockCount 0 ∧
      Smooth before after (if before.held before.info.usedBlockCount then 0 else 1) := by
  have within : (file.info.usedBlockCount - 1).toNat < file.size := grown.fit.formed.current_within
  obtain ⟨place, _, maps⟩ := opened.found.resolve_right fun ⟨same, _⟩ => mapped same
  have current : after.current = before.current := by
    rw [opened.file]
    exact grown.current
  have page : block = .page after.current := by
    rw [place, opened.file]
    rfl
  have opens : before.toFile.Opens after.toFile := by
    rw [opened.file]
    exact grown.opens
  rw [grown.maps, grown.used] at maps
  refine ⟨opened.fit grown.fit fun _ => within, current, page, opens, opens.kept _ fit.formed.current_within, maps, ?_⟩
  have steps := grown.smooth.trans (opened.smooth mapped)
  simp only [grown.used, grown.held, Nat.zero_add] at steps
  exact steps

/-- `_find_block_can_write`, whatever the operating system refuses. -/
theorem findBlockWithin_fit (fit : file.Fit) (steps : Nat) : wp (findBlockWithin (steps + 1))
    (fun found after => found.2 = -1 ∧ found.1 = .mapFailed ∧ ¬ file.FirstMaps ∨
      FoundFit file after found.1 found.2 ∧ file.FirstMaps)
    (fun reason _ => reason = .fault ∧ (file.block file.current).free = 0 ∧ ¬ 0 < file.supply.extend.spare) file := by
  obtain ⟨mid, extended, grown, supply⟩ := extendWhenUsed_fit fit
  have formed := grown.fit.formed
  have lower := formed.used_lower
  have upper := formed.used_mapped
  obtain ⟨block, after, ran, opened⟩ := readBlock_patchy grown.fit.cached lower (by omega)
  refine wp_bind_ok extended (wp_bind_ok (read_run _ mid) (wp_bind_ok ran ?_))
  by_cases failed : block = .mapFailed
  · rw [if_pos failed]
    rcases opened.found with ⟨rfl, _⟩ | ⟨_, unmapped⟩
    · cases failed
    · refine wp_pure (.inl ⟨rfl, failed, fun first => unmapped ?_⟩)
      rw [grown.maps, grown.used]
      exact first.1
  · obtain ⟨fitAfter, current, page, opens, content, maps, smooth⟩ := opened_used fit grown opened failed
    have freeRun := blockFreeBytes_page fitAfter.formed.current_positive fitAfter.formed.current_within
      fitAfter.formed.current_block
    rw [← page, current, content] at freeRun
    have nonneg := (file.block file.current).free_nonneg
    rw [if_neg failed]
    refine wp_bind_ok freeRun ?_
    rw [if_neg (by omega)]
    by_cases full : (file.block file.current).free = 0
    · have second : after.Maps (after.info.usedBlockCount + 1) 0 ↔
          file.Maps (file.info.usedBlockCount + 1) (if file.held file.info.usedBlockCount then 0 else 1) := by
        have used : after.info.usedBlockCount = mid.info.usedBlockCount := by rw [opened.file]
        rw [used, opened.maps (by omega), Nat.zero_add, grown.maps, grown.used]
        simp only [grown.held]
      rw [full]
      refine (findLoop_fit fitAfter block steps).mono ?_ ?_
      · rintro found last (⟨refused, failed, unmapped⟩ | ⟨⟨moved, rfl⟩, more⟩)
        · exact .inl ⟨refused, failed, fun first => unmapped (second.mpr (first.2 full))⟩
        · have free : (last.block last.current).free = 8152 := by
            have empty : (last.block last.current).recordCount = 0 := moved.moved.empty
            simp [Block.free, empty]
          refine .inr ⟨⟨moved.fit, ⟨moved.fit.mend_ready, ?_, Opens.trans opens moved.moved.opens, rfl, free.symm,
            (show (0 : Int) < 8152 by decide), fun some => absurd full some⟩, ?_, moved.held, fun _ => rfl, ?_, ?_⟩,
            maps, fun _ => second.mp more⟩
          · exact moved.moved.initOk.trans (opened.initOk.trans grown.initOk)
          · rw [if_pos full]
            exact smooth.trans moved.smooth
          · rw [if_pos full, moved.supply, opened.supply, supply]
          · rw [if_pos full, moved.used, opened.file, grown.used]
      · rintro reason _ ⟨rfl, none⟩
        rw [opened.supply, supply] at none
        exact ⟨rfl, rfl, none⟩
    · rw [findLoop.eq_def, if_pos full]
      refine wp_pure (.inr ⟨⟨fitAfter, ⟨fitAfter.mend_ready, opened.initOk.trans grown.initOk, opens, page, ?_, ?_,
        fun _ => current⟩, ?_, ?_, fun none => absurd none full, ?_, ?_⟩, maps, fun none => absurd none full⟩)
      · change _ = (after.block after.current).free
        rw [current, content]
      · change 0 < (file.block file.current).free
        omega
      · rw [if_neg full]
        exact smooth
      · rw [opened.file]
        exact opened.holds failed
      · rw [if_neg full, opened.supply, supply]
      · rw [if_neg full, opened.file, grown.used, Int.add_zero]

end DataFile

end Pingkv
