import Pingkv.DataFile.History
import Pingkv.DataFile.Survive
import Pingkv.Lib.Transition

/-! `flush_blocks` after any calls, of which the operating system may have refused
some: which entries of the cache keep it from coming to an end. -/

namespace Pingkv

namespace DataFile

open Exec

variable {file after : DataFile} {blockId : Int} {block : BlockPtr} {cache : List (Int × BlockPtr)}

/-- The entry is a mapped block that has the number it is stored under. -/
def Own (file : DataFile) (entry : Int × BlockPtr) : Prop :=
  ∃ page, entry.2 = .page page ∧ 0 < page ∧ page < file.size ∧ (file.block page).blockId = entry.1

/-- The entries of a cache. -/
structure Keyed (cache : List (Int × BlockPtr)) : Prop where
  sorted : (cache.map Prod.fst).Pairwise (· < ·)
  int : ∀ entry ∈ cache, IsInt entry.1
  upward : ∀ entry ∈ cache, ∀ page, entry.2 = .page page → 0 ≤ mapOffset entry.1

/-- The used block is at most the first one that cannot be mapped. -/
structure Steady (file : DataFile) : Prop where
  keyed : Keyed file.cache
  lower : 2 ≤ file.info.usedBlockCount
  upper : file.info.usedBlockCount ≤ 262145

theorem cachePut_sorted (sorted : (cache.map Prod.fst).Pairwise (· < ·)) :
    ((cachePut blockId block cache).map Prod.fst).Pairwise (· < ·) := by
  induction cache with
  | nil => simp [cachePut]
  | cons head rest ih =>
    obtain ⟨key, other⟩ := head
    obtain ⟨above, ordered⟩ := List.pairwise_cons.mp sorted
    rw [cachePut]
    split
    · rename_i same
      subst same
      exact List.pairwise_cons.mpr ⟨above, ordered⟩
    · split
      · rename_i less
        refine List.pairwise_cons.mpr ⟨List.forall_mem_cons.mpr ⟨less, fun later member => ?_⟩, sorted⟩
        exact Int.lt_trans less (above later member)
      · rename_i different notLess
        refine List.pairwise_cons.mpr ⟨fun later member => ?_, ih ordered⟩
        obtain ⟨entry, inside, rfl⟩ := List.mem_map.mp member
        rcases mem_cachePut inside with rfl | old
        · change key < blockId
          omega
        · exact above _ (List.mem_map_of_mem old)

theorem Keyed.cachePut (keyed : Keyed cache) (int : IsInt blockId)
    (upward : ∀ page, block = .page page → 0 ≤ mapOffset blockId) : Keyed (cachePut blockId block cache) := by
  refine ⟨cachePut_sorted keyed.sorted, fun entry member => ?_, fun entry member => ?_⟩
  · rcases mem_cachePut member with rfl | old
    · exact int
    · exact keyed.int entry old
  · rcases mem_cachePut member with rfl | old
    · exact upward
    · exact keyed.upward entry old

theorem Keyed.looked (keyed : Keyed cache) (int : IsInt blockId) : Keyed (looked cache blockId) := by
  unfold DataFile.looked
  split
  · exact keyed
  · exact keyed.cachePut int fun _ null => by cases null

/-- `_read_block` for any number. -/
theorem readBlock_keyed (keyed : Keyed file.cache) (int : IsInt blockId) : wp (readBlock blockId)
    (fun block after => Keyed after.cache ∧ after.info = file.info ∧ ∀ page, block = .page page → 0 ≤ mapOffset blockId)
    (fun _ _ => False) file := by
  have ran := readBlock_run file blockId
  split at ran
  · split at ran
    · rename_i served
      exact wp_of_ok ran ⟨keyed.cachePut int fun _ _ => served.2, rfl, fun _ _ => served.2⟩
    · exact wp_of_ok ran ⟨keyed.looked int, rfl, fun _ null => by cases null⟩
  · rename_i some
    cases found : file.cache.lookup blockId with
    | none => exact absurd (by rw [found]; rfl) some
    | some block =>
      rw [found, Option.getD_some] at ran
      exact wp_of_ok ran ⟨keyed, rfl, keyed.upward (blockId, block) (mem_of_lookup found)⟩

theorem readBlock_steady (int : IsInt blockId) : Keeps Steady (readBlock blockId) := by
  intro file steady
  refine (readBlock_keyed steady.keyed int).mono ?_ fun _ _ never => never.elim
  rintro block after ⟨keyed, info, _⟩
  exact ⟨keyed, info ▸ steady.lower, info ▸ steady.upper⟩

theorem called_steady (call : OsCall) (file : DataFile) (steady : file.Steady) : (file.called call).Steady :=
  ⟨steady.keyed, steady.lower, steady.upper⟩

theorem uninitialised_steady : Keeps Steady uninitialised :=
  fun _ steady => ⟨steady.keyed, steady.lower, steady.upper⟩

theorem extends_steady : Extends Steady :=
  ⟨called_steady .lseek, called_steady .write, uninitialised_steady,
    fun _ _ _ _ steady => ⟨steady.keyed, steady.lower, steady.upper⟩⟩

/-- The next block becomes the used one, mapped or not. -/
theorem readNextBlock_steady (steady : file.Steady) : wp readNextBlock
    (fun block after => Keyed after.cache ∧ after.info.usedBlockCount = file.info.usedBlockCount + 1 ∧
      ∀ page, block = .page page → after.info.usedBlockCount ≤ 262144) (fun _ _ => False) file := by
  have lower := steady.lower
  have upper := steady.upper
  have int : IsInt (file.info.usedBlockCount + 1) := ⟨by omega, by omega⟩
  have limit : ¬ 0 ≤ mapOffset 262145 ∧ ¬ 0 ≤ mapOffset 262146 := by decide
  apply wp.congr _ (readNextBlock_eq file)
  refine (readBlock_keyed (show Keyed (file.advance.called .msync).cache from steady.keyed) int).mono ?_ fun _ _ never => never
  rintro block after ⟨keyed, info, upward⟩
  have next : after.info.usedBlockCount = file.info.usedBlockCount + 1 := by rw [info]; rfl
  refine ⟨keyed, next, fun page same => ?_⟩
  have offset := upward page same
  rcases (by omega : file.info.usedBlockCount + 1 ≤ 262144 ∨ file.info.usedBlockCount + 1 = 262145 ∨
    file.info.usedBlockCount + 1 = 262146) with low | past | past
  · omega
  · rw [past] at offset
    exact absurd offset limit.1
  · rw [past] at offset
    exact absurd offset limit.2

/-- The same of the used block, which stays where it is. -/
theorem readUsed_steady (steady : file.Steady) : wp (readBlock file.info.usedBlockCount)
    (fun block after => after.Steady ∧ ∀ page, block = .page page → after.info.usedBlockCount ≤ 262144) (fun _ _ => False)
    file := by
  have lower := steady.lower
  have upper := steady.upper
  have limit : ¬ 0 ≤ mapOffset 262145 := by decide
  refine (readBlock_keyed steady.keyed ⟨by omega, by omega⟩).mono ?_ fun _ _ never => never
  rintro block after ⟨keyed, info, upward⟩
  refine ⟨⟨keyed, info ▸ lower, info ▸ upper⟩, fun page same => ?_⟩
  have offset := upward page same
  rcases (by omega : file.info.usedBlockCount ≤ 262144 ∨ file.info.usedBlockCount = 262145) with low | past
  · exact info ▸ low
  · rw [past] at offset
    exact absurd offset limit

/-- `_find_block_can_write` goes on only behind a mapped block. -/
theorem findLoop_steady (steps : Nat) : ∀ {file : DataFile} (block : BlockPtr) (fre : Int), file.Steady →
    file.info.usedBlockCount ≤ 262144 → wp (findLoop steps block fre) (fun _ => Steady) (fun _ => Steady) file := by
  induction steps with
  | zero =>
    intro file block fre steady _
    unfold findLoop
    split
    · exact wp_pure steady
    · exact steady
  | succ steps ih =>
    intro file block fre steady low
    unfold findLoop
    split
    · exact wp_pure steady
    · refine wp_bind ((readNextBlock_steady steady).mono (fun _ _ next => next) fun _ _ never => never.elim) ?_
      rintro block after ⟨keyed, used, mapped⟩
      have next : after.Steady := ⟨keyed, by have := steady.lower; omega, by omega⟩
      split
      · exact wp_pure next
      · refine wp_bind ((blockFreeBytes_looks block after).mono (fun _ _ looked => looked) fun _ _ same => same ▸ next) ?_
        rintro fre _ ⟨rfl, page, isPage, _⟩
        split
        · exact wp_pure next
        · exact ih block fre next (mapped page isPage)

theorem findBlockWithin_steady (steps : Nat) : Keeps Steady (findBlockWithin steps) := by
  refine extends_steady.whenUsed.bind fun _ file steady => wp_bind_ok (read_run _ file) ?_
  refine wp_bind ((readUsed_steady steady).mono (fun _ _ opened => opened) fun _ _ never => never.elim) ?_
  rintro block after ⟨opened, mapped⟩
  split
  · exact wp_pure opened
  · refine wp_bind ((blockFreeBytes_looks block after).mono (fun _ _ looked => looked) fun _ _ same => same ▸ opened) ?_
    rintro fre _ ⟨rfl, page, isPage, _⟩
    split
    · exact wp_pure opened
    · exact findLoop_steady steps block fre opened (mapped page isPage)

theorem survives_steady : Survives Steady where
  written _ _ steady := ⟨steady.keyed, steady.lower, steady.upper⟩
  drawn := uninitialised_steady
  opened int := readBlock_steady int
  found := findBlockWithin_steady stepBound

/-- What a block leaves in the cache once it is unmapped: every entry but that of its own number. -/
def unmapped (cache : List (Int × BlockPtr)) (key blockId : Int) : List (Int × BlockPtr) :=
  (cache.map fun entry => if entry.1 = key then (key, .dangling) else entry).filter fun entry => decide (entry.1 ≠ blockId)

theorem unmapped_keys (cache : List (Int × BlockPtr)) (key blockId : Int) :
    ((unmapped cache key blockId).map Prod.fst).Sublist (cache.map Prod.fst) := by
  have same : (cache.map fun entry => if entry.1 = key then (key, BlockPtr.dangling) else entry).map Prod.fst =
      cache.map Prod.fst := by
    rw [List.map_map]
    refine List.map_congr_left fun entry _ => ?_
    rw [Function.comp_apply]
    split
    · exact (‹entry.1 = key›).symm
    · rfl
  rw [← same]
  exact List.filter_sublist.map Prod.fst

theorem mem_unmapped {key : Int} {entry : Int × BlockPtr} (member : entry ∈ unmapped cache key blockId) :
    entry ∈ cache ∨ entry.2 = .dangling := by
  obtain ⟨old, inside, rfl⟩ := List.mem_map.mp (List.mem_filter.mp member).1
  split
  · exact .inr rfl
  · exact .inl inside

theorem Keyed.unmapped (keyed : Keyed cache) (key blockId : Int) : Keyed (unmapped cache key blockId) := by
  have keys := unmapped_keys cache key blockId
  refine ⟨keyed.sorted.sublist keys, fun entry member => ?_, fun entry member page isPage => ?_⟩
  · obtain ⟨old, inside, same⟩ := List.mem_map.mp (keys.subset (List.mem_map_of_mem member))
    exact same ▸ keyed.int old inside
  · rcases mem_unmapped member with old | gone
    · exact keyed.upward entry old page isPage
    · rw [gone] at isPage
      cases isPage

theorem flushOutBlock_steady (key : Int) (block : BlockPtr) : Keeps Steady (flushOutBlock key block) := by
  refine keeps_ite (keeps_pure _) ((survives_steady.confined (confines_load block)).bind fun content => ?_)
  refine Keeps.bind (fun file steady => wp_of_ok (osCall_eq file .munmap) (called_steady .munmap file steady)) fun served => keeps_ite (keeps_update fun file steady => ?_) (keeps_stop _)
  exact ⟨steady.keyed.unmapped key content.blockId, steady.lower, steady.upper⟩

theorem flushOutLoop_steady (steps : Nat) : Keeps Steady (flushOutLoop steps) := by
  induction steps with
  | zero => exact keeps_stop _
  | succ steps ih =>
    refine (keeps_read _).bind fun cache => ?_
    cases cache with
    | nil => exact keeps_pure _
    | cons entry rest => exact (flushOutBlock_steady entry.1 entry.2).bind fun _ => ih

/-- The state behind a call of `write_row_new_block` that does not crash. -/
theorem writeRowNewBlock_steady (row : Buf) (steady : file.Steady) : wp (writeRowNewBlock row) (fun _ => Steady)
    (fun reason after => reason = .failed → after.Steady) file := by
  refine wp_bind ((extends_steady.whenUsed file steady).mono (fun _ _ kept => kept) fun _ _ kept _ => kept) ?_
  intro _ opened ready
  refine wp_bind ((readNextBlock_steady ready).mono (fun _ _ next => next) fun _ _ never => never.elim) ?_
  rintro block after ⟨keyed, used, mapped⟩
  cases block with
  | page page =>
    have next : after.Steady := ⟨keyed, by have := ready.lower; omega, by have := mapped page rfl; omega⟩
    exact (survives_steady.writeInto _ row (fun content _ => content.blockId) after next).mono (fun _ _ kept => kept)
      fun _ _ kept _ => kept
  | null | mapFailed | dangling => exact wp_of_error rfl fun impossible => by cases impossible

theorem extends_cache : Extends fun file => file.cache = cache :=
  ⟨fun _ same => same, fun _ same => same, fun _ same => same, fun _ _ _ _ same => same⟩

theorem createFile_steady (os : OsCall → Nat → Bool) (junk : Nat → Mem) (dbName : List UInt8) (fileId pid : Int) :
    wp (createFile dbName fileId pid) (fun _ => Steady) (fun _ _ => True) (new os junk) := by
  have empty : (headed os junk dbName fileId pid).cache = [] := rfl
  refine (createFile_keeps extends_cache (fun _ _ same => same) (fun _ same => same) (fun _ same => same) empty).mono ?_ fun _ _ _ => trivial
  rintro _ after ⟨cache, used⟩
  exact ⟨cache ▸ ⟨.nil, by simp, by simp⟩, by omega, by omega⟩

/-- The methods of a data file, with rows and numbers of the types of their parameters. -/
inductive Method where
  | call (request : Call)
  | freeBytes (blockId : Int)

namespace Method

def run : Method → Exec DataFile Unit
  | call request => do let _ ← request.run
  | freeBytes blockId => do let _ ← DataFile.freeBytes blockId

/-- The arguments are values of their types. -/
def Typed : Method → Prop
  | call request => request.rowLen < 2 ^ 31 ∧ ∀ id, request.target = some id → IsInt id.1
  | freeBytes blockId => IsInt blockId

def perform (method : Method) : DataFile → Option DataFile := returned method.run

end Method

theorem Call.run_steady (call : Call) (typed : (Method.call call).Typed) (steady : file.Steady) :
    wp call.run (fun _ => Steady) (fun reason after => reason = .failed → after.Steady) file := by
  have loose {α : Type} {call : Exec DataFile α} (kept : Keeps Steady call) : wp call (fun _ => Steady)
      (fun reason after => reason = .failed → after.Steady) file :=
    (kept file steady).mono (fun _ _ kept => kept) fun _ _ kept _ => kept
  cases call with
  | writeRow row => exact loose ((survives_steady.writeRow row).bind fun _ => keeps_pure _)
  | writeRowNewBlock row => exact wp_bind (writeRowNewBlock_steady row steady) fun _ _ kept => wp_pure kept
  | modifyRow id row => exact loose ((survives_steady.innerModifyRow _ _ _ row (typed.2 id rfl)).bind fun _ => keeps_pure _)
  | deleteRow id => exact loose ((survives_steady.deleteRow _ (typed.2 id rfl)).bind fun _ => keeps_pure _)
  | readRow id => exact loose ((survives_steady.innerReadRow _ _ _ (typed.2 id rfl)).bind fun _ => keeps_pure _)
  | flushBlocks => exact loose ((flushOutLoop_steady _).bind fun _ => keeps_pure _)

theorem Method.perform_steady (method : Method) (typed : method.Typed) (steady : file.Steady)
    (stepped : method.perform file = some after) : after.Steady := by
  have kept : wp method.run (fun _ => Steady) (fun reason after => reason = .failed → after.Steady) file := by
    cases method with
    | call request => exact wp_bind (Call.run_steady request typed steady) fun _ _ kept => kept
    | freeBytes blockId =>
      have int : IsInt blockId := typed
      refine (Keeps.bind (Keeps.bind (readBlock_steady int) fun block => keeps_ite (keeps_pure _) ?_)
        (fun _ => keeps_pure ()) file steady).mono (fun _ _ kept => kept) fun _ _ kept _ => kept
      exact survives_steady.confined (confines_blockFreeBytes block)
  exact kept.returned stepped

/-- Every object that calls lead to. -/
theorem run_steady {methods : List Method} (begun : Begun file) (typed : ∀ method ∈ methods, method.Typed)
    (ran : Transition.run Method.perform methods file = some after) : after.Steady := by
  obtain ⟨os, junk, dbName, fileId, pid, created⟩ := begun
  have created := (createFile_steady os junk dbName fileId pid).ok created
  exact Transition.run_throughout (fun method _ _ steady typed stepped => method.perform_steady typed steady stepped)
    created (Transition.throughout_labels methods typed file) ran

theorem flushOutLoop_next {key : Int} {rest : List (Int × BlockPtr)} (front : file.cache = (key, block) :: rest) (steps : Nat) :
    flushOutLoop (steps + 1) file = (flushOutBlock key block >>= fun _ => flushOutLoop steps) file := by
  rw [flushOutLoop, read_bind_run, front]

/-- A null entry at the front of the cache is neither unmapped nor erased. -/
theorem flushOutLoop_null {key : Int} {rest : List (Int × BlockPtr)} (front : file.cache = (key, .null) :: rest) (steps : Nat) :
    flushOutLoop steps file = (.error .exhausted, file) := by
  induction steps with
  | zero => rfl
  | succ steps ih =>
    rw [flushOutLoop_next front, bind_ok (show flushOutBlock key .null file = (.ok (), file) from rfl)]
    exact ih

/-- Unmapping a block erases the entry of the number in its head. -/
theorem flushOutBlock_page {page : Nat} {key : Int} (unmaps : file.Unmaps) (positive : 0 < page) (within : page < file.size) :
    flushOutBlock key (.page page) file =
      (.ok (), { file.called .munmap with cache := unmapped file.cache key (file.block page).blockId }) := by
  rw [flushOutBlock, if_neg (by simp), bind_ok (load_page positive within), bind_ok (osCall_eq file .munmap), unmaps 0]
  rfl

/-- Nothing else goes with the first entry of an ordered cache. -/
theorem unmapped_first {key : Int} {rest : List (Int × BlockPtr)} (sorted : (((key, block) :: rest).map Prod.fst).Pairwise (· < ·)) :
    unmapped ((key, block) :: rest) key key = rest := by
  have above := (List.pairwise_cons.mp sorted).1
  have other (entry : Int × BlockPtr) (member : entry ∈ rest) : entry.1 ≠ key := by
    have := above entry.1 (List.mem_map_of_mem member)
    omega
  have unmarked : (rest.map fun entry => if entry.1 = key then (key, BlockPtr.dangling) else entry) = rest := by
    conv_rhs => rw [← List.map_id rest]
    exact List.map_congr_left fun entry member => if_neg (other entry member)
  rw [unmapped, List.map_cons, unmarked, List.filter_cons, if_neg (by simp)]
  exact List.filter_eq_self.mpr fun entry member => by simpa using other entry member

/-- The block at the front of a cache is the one that is erased. -/
theorem flush_own {key : Int} {rest : List (Int × BlockPtr)} (unmaps : file.Unmaps) (keyed : Keyed file.cache)
    (front : file.cache = (key, block) :: rest) (own : file.Own (key, block)) :
    flushOutBlock key block file = (.ok (), { file.called .munmap with cache := rest }) := by
  obtain ⟨page, rfl, positive, within, number⟩ := own
  have sorted := keyed.sorted
  rw [front] at sorted
  rw [flushOutBlock_page unmaps positive within, number, front, unmapped_first sorted]

/-- A pointer that cannot be followed crashes the loop. -/
private theorem flush_crash {key : Int} {rest : List (Int × BlockPtr)} (front : file.cache = (key, block) :: rest)
    (set : block ≠ .null) (crash : load block file = (.error .fault, file)) (steps : Nat) :
    (flushOutLoop steps file).1 ≠ .ok () := by
  cases steps with
  | zero => exact fun impossible => by cases impossible
  | succ steps =>
    have stopped : flushOutBlock key block file = (.error .fault, file) := by
      rw [flushOutBlock, if_neg set]
      exact bind_error crash
    rw [flushOutLoop_next front, bind_error stopped]
    exact fun impossible => by cases impossible

/-- Any other entry at the front ends the loop in a crash, or never. -/
theorem flush_foreign {key : Int} {rest : List (Int × BlockPtr)} (unmaps : file.Unmaps)
    (front : file.cache = (key, block) :: rest) (foreign : ¬ file.Own (key, block)) (steps : Nat) :
    (flushOutLoop steps file).1 ≠ .ok () := by
  cases block with
  | null => simp [flushOutLoop_null front]
  | mapFailed | dangling => exact flush_crash front (by simp) rfl steps
  | page page =>
    by_cases inside : 0 < page ∧ page < file.size
    · have number : key ≠ (file.block page).blockId := fun same => foreign ⟨page, rfl, inside.1, inside.2, same.symm⟩
      have left : unmapped file.cache key (file.block page).blockId =
          (key, .dangling) :: unmapped rest key (file.block page).blockId := by
        rw [front, unmapped, List.map_cons, if_pos rfl, List.filter_cons, if_pos (by simpa using number)]
        rfl
      cases steps with
      | zero => exact fun impossible => by cases impossible
      | succ steps =>
        rw [flushOutLoop_next front, bind_ok (flushOutBlock_page unmaps inside.1 inside.2)]
        exact flush_crash left (by simp) rfl steps
    · exact flush_crash front (by simp) (by simp [load, inside]) steps

/-- The loop of `_flush_out_cache` unmaps one block after another, as long as each lies under its own number. -/
theorem flushOutLoop_iff (cache : List (Int × BlockPtr)) : ∀ {file : DataFile} (steps : Nat), file.cache = cache → Keyed cache →
    file.Unmaps → cache.length < steps →
    ((∃ after, flushOutLoop steps file = (.ok (), after) ∧ after.cache = []) ↔ ∀ entry ∈ cache, file.Own entry) := by
  induction cache with
  | nil =>
    rintro file (_ | steps) same _ _ enough
    · omega
    · rw [flushOutLoop, read_bind_run, same]
      exact iff_of_true ⟨file, rfl, same⟩ (by simp)
  | cons entry rest ih =>
    rintro file (_ | steps) same keyed unmaps enough
    · omega
    · by_cases own : file.Own entry
      · have flushed := flush_own unmaps (same ▸ keyed) same own
        have later : Keyed rest := ⟨keyed.sorted.of_cons, fun _ member => keyed.int _ (List.mem_cons_of_mem _ member),
          fun _ member => keyed.upward _ (List.mem_cons_of_mem _ member)⟩
        have short : rest.length < steps := Nat.lt_of_succ_lt_succ enough
        let left : DataFile := { file.called .munmap with cache := rest }
        have rests : (∃ after, flushOutLoop steps left = (.ok (), after) ∧ after.cache = []) ↔ ∀ entry ∈ rest, left.Own entry :=
          ih steps rfl later (called_unmaps .munmap _ unmaps) short
        rw [flushOutLoop_next same, bind_ok flushed]
        exact rests.trans ⟨fun all => List.forall_mem_cons.mpr ⟨own, all⟩, fun all => (List.forall_mem_cons.mp all).2⟩
      · refine iff_of_false ?_ fun all => own (all entry List.mem_cons_self)
        rintro ⟨after, ran, _⟩
        exact flush_foreign unmaps same own _ (congrArg Prod.fst ran)

/-- No more entries than there are values of an `int`. -/
theorem Keyed.length_lt (keyed : Keyed cache) : cache.length < stepBound := by
  have different : (cache.map Prod.fst).Nodup := keyed.sorted.imp fun less => Int.ne_of_lt less
  have inside : (cache.map Prod.fst).toFinset ⊆ Finset.Icc (-2 ^ 31) (2 ^ 31) := by
    intro key member
    obtain ⟨entry, inside, rfl⟩ := List.mem_map.mp (List.mem_toFinset.mp member)
    have int := keyed.int entry inside
    exact Finset.mem_Icc.mpr ⟨int.1, Int.le_of_lt int.2⟩
  have bound := Finset.card_le_card inside
  rw [List.toFinset_card_of_nodup different, List.length_map, Int.card_Icc] at bound
  exact Nat.lt_of_le_of_lt bound (by decide)

/-- `flush_blocks` ends with an empty cache exactly when each entry is a mapped
block that lies under its own number. -/
theorem flushBlocks_iff_own {methods : List Method} (begun : Begun file) (typed : ∀ method ∈ methods, method.Typed)
    (ran : Transition.run Method.perform methods file = some after) (unmaps : after.Unmaps) :
    (∃ flushed, flushBlocks after = (.ok (), flushed) ∧ flushed.cache = []) ↔ ∀ entry ∈ after.cache, after.Own entry :=
  have keyed := (run_steady begun typed ran).keyed
  flushOutLoop_iff after.cache stepBound rfl keyed unmaps keyed.length_lt

/-- A new file over an operating system. -/
private def fresh (os : OsCall → Nat → Bool) : DataFile := (createFile [] 1 1 (new os fun _ _ => 0)).2

private theorem fresh_begun {os : OsCall → Nat → Bool} (created : (createFile [] 1 1 (new os fun _ _ => 0)).1 = .ok ()) :
    Begun (fresh os) := ⟨os, _, [], 1, 1, run_of_fst created⟩

private theorem fresh_unmaps {os : OsCall → Nat → Bool} (served : ∀ n, os .munmap n = true)
    (created : (createFile [] 1 1 (new os fun _ _ => 0)).1 = .ok ()) : (fresh os).Unmaps := by
  have unmaps : (new os fun _ _ => 0).Unmaps := served
  have head : (headed os (fun _ _ => 0) [] 1 1).Unmaps :=
    called_unmaps .write _ (called_unmaps .fchmod _ (called_unmaps .open _ unmaps))
  exact ((createFile_keeps extends_unmaps called_unmaps (fun _ kept => kept) (fun _ kept => kept) head).ok (run_of_fst created)).1

/-- `block_free_bytes` of block 2, in a new file. -/
private def lookAtFirst : List Method := [.freeBytes 2]

private theorem lookAtFirst_typed : ∀ method ∈ lookAtFirst, method.Typed :=
  List.forall_mem_singleton.mpr ⟨by decide, by decide⟩

/-- A block that `block_free_bytes` maps lies in the cache under its own number. -/
private theorem lookAtFirst_mapped (unmaps : file.Unmaps) (cache : file.cache = []) (served : file.os .mmap 0 = true)
    (within : 1 < file.size) (number : (file.block 1).blockId = 2) (empty : (file.block 1).recordCount = 0) :
    ∃ after, Transition.run Method.perform lookAtFirst file = some after ∧ after.Unmaps ∧
      ∀ entry ∈ after.cache, after.Own entry := by
  have read : readBlock 2 file = (.ok (.page 1), { file.called .mmap with cache := [(2, .page 1)] }) := by
    rw [readBlock_run, cache, if_pos (by rfl), if_pos ⟨served, by decide⟩]
    rfl
  have free : blockFreeBytes (.page 1) { file.called .mmap with cache := [(2, .page 1)] } = _ :=
    blockFreeBytes_page Nat.one_pos within (Block.formed_of_empty empty)
  have ran : Method.run (.freeBytes 2) file = (.ok (), { file.called .mmap with cache := [(2, .page 1)] }) :=
    bind_ok ((bind_ok read).trans free)
  refine ⟨{ file.called .mmap with cache := [(2, .page 1)] }, ?_, called_unmaps .mmap _ unmaps, ?_⟩
  · simp [lookAtFirst, Transition.run, Method.perform, returned_of_ok ran]
  · exact List.forall_mem_singleton.mpr ⟨1, rfl, Nat.one_pos, within, number⟩

/-- A block that it cannot map leaves a null entry there. -/
private theorem lookAtFirst_refused (unmaps : file.Unmaps) (cache : file.cache = []) (refused : file.os .mmap 0 = false) :
    ∃ after, Transition.run Method.perform lookAtFirst file = some after ∧ after.Unmaps ∧
      (flushBlocks after).1 = .error .exhausted := by
  have read : readBlock 2 file = (.ok .mapFailed, { file.called .mmap with cache := [(2, .null)] }) := by
    rw [readBlock_run, cache, if_pos (by rfl), refused, if_neg (by simp)]
    rfl
  have ran : Method.run (.freeBytes 2) file = (.ok (), { file.called .mmap with cache := [(2, .null)] }) :=
    bind_ok (bind_ok read)
  refine ⟨{ file.called .mmap with cache := [(2, .null)] }, ?_, called_unmaps .mmap _ unmaps, ?_⟩
  · simp [lookAtFirst, Transition.run, Method.perform, returned_of_ok ran]
  · exact congrArg Prod.fst (flushOutLoop_null rfl stepBound)

theorem first_block_flushed : ∃ file flushed,
    Transition.run Method.perform lookAtFirst (fresh fun _ _ => true) = some file ∧
      flushBlocks file = (.ok (), flushed) ∧ flushed.cache = [] := by
  have created : (createFile [] 1 1 (new (fun _ _ => true) fun _ _ => 0)).1 = .ok () := by decide +kernel
  obtain ⟨file, ran, unmaps, own⟩ := lookAtFirst_mapped (fresh_unmaps (fun _ => rfl) created) (by decide +kernel)
    (by decide +kernel) (by decide +kernel) (by decide +kernel) (by decide +kernel)
  obtain ⟨flushed, empty⟩ := (flushBlocks_iff_own (fresh_begun created) lookAtFirst_typed ran unmaps).mpr own
  exact ⟨file, flushed, ran, empty⟩

/-- The second coming `mmap` fails: the first one maps the file head. -/
private def refuseSecond (call : OsCall) (n : Nat) : Bool := !(call == .mmap && n == 1)

/-- A block that could not be mapped leaves a null entry, and `flush_blocks` never returns. -/
theorem unmapped_block_never_flushed : Begun (fresh refuseSecond) ∧ (∀ method ∈ lookAtFirst, method.Typed) ∧
    ∃ file, Transition.run Method.perform lookAtFirst (fresh refuseSecond) = some file ∧ file.Unmaps ∧
      (flushBlocks file).1 = .error .exhausted := by
  have created : (createFile [] 1 1 (new refuseSecond fun _ _ => 0)).1 = .ok () := by decide +kernel
  exact ⟨fresh_begun created, lookAtFirst_typed,
    lookAtFirst_refused (fresh_unmaps (fun _ => rfl) created) (by decide +kernel) (by decide +kernel)⟩

end DataFile

end Pingkv
