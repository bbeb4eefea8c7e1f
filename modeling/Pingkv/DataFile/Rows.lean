import Pingkv.DataFile.Allocate

/-! Where the bytes of a row lie: in one record or in a chain of records,
behind any number of records that were migrated. -/

namespace Pingkv

/-- Record index number `place`, from 0, of the block at `page`. -/
structure RecordId where
  page : Nat
  place : Nat
  deriving DecidableEq, Repr

namespace RecordId

def blockId (id : RecordId) : Int := id.page + 1

def rowIdx (id : RecordId) : Int := id.place + 1

/-- Records come into a file in the order of their ranks. -/
def rank (id : RecordId) : Nat := 1024 * id.page + id.place

@[simp] theorem rowIdx_toNat (id : RecordId) : (id.rowIdx - 1).toNat = id.place := by
  simp [rowIdx]

end RecordId

namespace File

variable {file before after : File} {id next : RecordId} {content : List UInt8} {path : List RecordId}

/-- The file has a record under this id. -/
structure Has (file : File) (id : RecordId) : Prop where
  positive : 0 < id.page
  within : id.page < file.size
  placed : id.place < (file.block id.page).count

def record (file : File) (id : RecordId) : RecordIndex := recordAt (file.block id.page).data id.place

/-- The end of the bytes of a record: the start of those of the record before it. -/
def ceiling (file : File) (id : RecordId) : Int := (file.block id.page).offset id.place

/-- The number of bytes a record has in its block. -/
def room (file : File) (id : RecordId) : Nat := (file.ceiling id - (file.record id).offset).toNat

/-- The first `count` bytes of a record. -/
def bytes (file : File) (id : RecordId) (count : Nat) : List UInt8 :=
  (file.block id.page).data.slice (file.record id).offset.toNat count

theorem offset_eq (file : File) (id : RecordId) :
    (file.block id.page).offset (id.place + 1) = (file.record id).offset := rfl

theorem Has.page_le_current (has : file.Has id) (formed : file.Formed) : id.page ≤ file.current := by
  have placed := has.placed
  refine formed.page_le_current has.within fun empty => ?_
  simp [Block.count, empty] at placed

theorem Has.mapped (has : file.Has id) (formed : file.Formed) : id.page < 262144 :=
  Nat.lt_of_le_of_lt (has.page_le_current formed) formed.current_mapped

theorem Has.block (has : file.Has id) (formed : file.Formed) : (file.block id.page).Formed :=
  formed.block _ has.positive has.within

theorem Has.place_lt (has : file.Has id) (formed : file.Formed) : id.place < 510 := by
  have placed := has.placed
  have counted := (has.block formed).count_eq
  have bound := (has.block formed).count_le
  omega

theorem Has.rank_lt (has : file.Has id) (formed : file.Formed) : id.rank < 2 ^ 28 := by
  have mapped := has.mapped formed
  have place := has.place_lt formed
  unfold RecordId.rank
  omega

/-- The bytes of a record lie inside its block, above the index array. -/
theorem Has.bounds (has : file.Has id) (formed : file.Formed) :
    16 * (file.block id.page).recordCount ≤ (file.record id).offset ∧
      (file.record id).offset ≤ file.ceiling id ∧ file.ceiling id ≤ 8168 :=
  ⟨((has.block formed).bounds (Nat.succ_le_of_lt has.placed)).1,
    (has.block formed).falling _ has.placed,
    ((has.block formed).bounds (Nat.le_of_lt has.placed)).2⟩

theorem Has.room_eq (has : file.Has id) (formed : file.Formed) :
    (file.room id : Int) = file.ceiling id - (file.record id).offset := by
  have bounds := has.bounds formed
  unfold room
  omega

theorem Has.offset_nonneg (has : file.Has id) (formed : file.Formed) : 0 ≤ (file.record id).offset := by
  have bounds := has.bounds formed
  have counted := (has.block formed).counted
  omega

/-- A record whose index and bytes are the same in two files. -/
structure Keeps (before after : File) (id : RecordId) : Prop where
  has : after.Has id
  record : after.record id = before.record id
  ceiling : after.ceiling id = before.ceiling id
  data : Mem.Agree (after.block id.page).data (before.block id.page).data
    (before.record id).offset.toNat (before.room id)

theorem Keeps.refl (has : file.Has id) : file.Keeps file id := ⟨has, rfl, rfl, Mem.Agree.refl⟩

theorem Keeps.room (keeps : before.Keeps after id) : after.room id = before.room id := by
  simp only [File.room, keeps.record, keeps.ceiling]

theorem Keeps.trans {last : File} (first : before.Keeps after id) (second : after.Keeps last id) :
    before.Keeps last id := by
  refine ⟨second.has, second.record.trans first.record, second.ceiling.trans first.ceiling, ?_⟩
  have data := second.data
  rw [first.record, first.room] at data
  exact data.trans first.data

theorem Keeps.bytes {count : Nat} (keeps : before.Keeps after id) (within : count ≤ before.room id) :
    after.bytes id count = before.bytes id count := by
  simp only [File.bytes, keeps.record]
  exact (keeps.data.mono _ count (Nat.le_refl _) (by omega)).slice_eq

/-- The records of a file outside `touched` are the same in another one. -/
def KeepsBut (before after : File) (touched : List RecordId) : Prop :=
  ∀ id, before.Has id → id ∉ touched → before.Keeps after id

theorem KeepsBut.refl (file : File) (touched : List RecordId) : file.KeepsBut file touched :=
  fun _ has _ => Keeps.refl has

theorem KeepsBut.trans {last : File} {touched : List RecordId} (first : before.KeepsBut after touched)
    (second : after.KeepsBut last touched) : before.KeepsBut last touched :=
  fun id has outside => (first id has outside).trans (second id (first id has outside).has outside)

theorem KeepsBut.mono {touched more : List RecordId} (keeps : before.KeepsBut after touched)
    (included : touched ⊆ more) : before.KeepsBut after more :=
  fun id has outside => keeps id has fun member => outside (included member)

/-- The pieces of a row from record `id` on hold `content` and lie on `path`. -/
inductive Chain (file : File) : RecordId → List UInt8 → List RecordId → Prop where
  | last {id : RecordId} {content : List UInt8} (has : file.Has id) (length : (file.record id).len = content.length)
      (fits : content.length ≤ file.room id) (bytes : file.bytes id content.length = content) :
      Chain file id content [id]
  | more {id next : RecordId} {content : List UInt8} {path : List RecordId} (has : file.Has id)
      (length : (file.record id).len = content.length)
      (positive : 0 < file.room id) (split : file.room id < content.length)
      (bytes : file.bytes id (file.room id) = content.take (file.room id))
      (nextBlock : (file.record id).nextBlockId = next.blockId)
      (nextRow : (file.record id).nextRowIdx = next.rowIdx)
      (rest : Chain file next (content.drop (file.room id)) path) : Chain file id content (id :: path)

/-- A row handed out under `id` that is not deleted, with its content and the
records it is kept in. Records along a path have growing ranks. -/
inductive Holds (file : File) : RecordId → List UInt8 → List RecordId → Prop where
  | moved {id next : RecordId} {content : List UInt8} {path : List RecordId} (has : file.Has id)
      (live : rowDeleted (file.record id).flags ≠ 1)
      (migrated : rowMigrated (file.record id).flags = 1)
      (nextBlock : (file.record id).nextBlockId = next.blockId)
      (nextRow : (file.record id).nextRowIdx = next.rowIdx) (later : id.rank < next.rank)
      (outside : id ∉ path) (rest : Holds file next content path) : Holds file id content (id :: path)
  | chained {id : RecordId} {content : List UInt8} {path : List RecordId}
      (live : rowDeleted (file.record id).flags ≠ 1)
      (settled : rowMigrated (file.record id).flags ≠ 1)
      (chained : rowChained (file.record id).flags = 1)
      (chain : file.Chain id content path) : Holds file id content path
  | whole {id : RecordId} {content : List UInt8} (live : rowDeleted (file.record id).flags ≠ 1)
      (settled : rowMigrated (file.record id).flags ≠ 1)
      (whole : rowChained (file.record id).flags ≠ 1)
      (chain : file.Chain id content [id]) : Holds file id content [id]

theorem Chain.has (chain : file.Chain id content path) : file.Has id := by
  cases chain <;> assumption

theorem Chain.length (chain : file.Chain id content path) : (file.record id).len = content.length := by
  cases chain with
  | last _ length => exact length
  | more _ length => exact length

theorem Chain.has_all (chain : file.Chain id content path) : ∀ place ∈ path, file.Has place := by
  induction chain with
  | last has => exact List.forall_mem_singleton.mpr has
  | more has _ _ _ _ _ _ _ ih => exact List.forall_mem_cons.mpr ⟨has, ih⟩

theorem Chain.head_mem (chain : file.Chain id content path) : id ∈ path := by
  cases chain <;> simp

/-- A chain in one record: the record has room for the whole content. -/
theorem Chain.single (chain : file.Chain id content [id]) :
    content.length ≤ file.room id ∧ file.bytes id content.length = content := by
  cases chain with
  | last _ _ fits bytes => exact ⟨fits, bytes⟩
  | more _ _ _ _ _ _ _ rest => cases rest

theorem Holds.has (holds : file.Holds id content path) : file.Has id := by
  cases holds with
  | moved has => exact has
  | chained _ _ _ chain => exact chain.has
  | whole _ _ _ chain => exact chain.has

theorem Holds.has_all (holds : file.Holds id content path) : ∀ place ∈ path, file.Has place := by
  induction holds with
  | moved has _ _ _ _ _ _ _ ih => exact List.forall_mem_cons.mpr ⟨has, ih⟩
  | chained _ _ _ chain => exact chain.has_all
  | whole _ _ _ chain => exact chain.has_all

theorem Holds.live (holds : file.Holds id content path) : rowDeleted (file.record id).flags ≠ 1 := by
  cases holds <;> assumption

theorem Holds.head_mem (holds : file.Holds id content path) : id ∈ path := by
  cases holds with
  | moved => simp
  | chained _ _ _ chain => exact chain.head_mem
  | whole => simp

/-- A chain whose records are all kept is still there. -/
theorem Chain.transfer (chain : before.Chain id content path)
    (keeps : ∀ place ∈ path, before.Keeps after place) : after.Chain id content path := by
  induction chain with
  | @last id content has length fits bytes =>
    have kept := keeps id (by simp)
    exact .last kept.has (by rw [kept.record, length]) (by rw [kept.room]; exact fits)
      (by rw [kept.bytes fits, bytes])
  | @more id content next path has length positive split bytes nextBlock nextRow rest ih =>
    have kept := keeps id (by simp)
    refine .more kept.has (by rw [kept.record, length]) (by rw [kept.room]; exact positive)
      (by rw [kept.room]; exact split) ?_ (by rw [kept.record, nextBlock])
      (by rw [kept.record, nextRow]) ?_
    · rw [kept.room, kept.bytes (Nat.le_refl _), bytes]
    · rw [kept.room]
      exact ih fun place member => keeps place (List.mem_cons_of_mem _ member)

theorem Holds.transfer (holds : before.Holds id content path)
    (keeps : ∀ place ∈ path, before.Keeps after place) : after.Holds id content path := by
  induction holds with
  | @moved id next content path has live migrated nextBlock nextRow later outside rest ih =>
    have kept := keeps id (by simp)
    exact .moved kept.has (by rw [kept.record]; exact live) (by rw [kept.record]; exact migrated)
      (by rw [kept.record, nextBlock]) (by rw [kept.record, nextRow]) later outside
      (ih fun place member => keeps place (List.mem_cons_of_mem _ member))
  | @chained id content path live settled chained chain =>
    have kept := keeps id chain.head_mem
    exact .chained (by rw [kept.record]; exact live) (by rw [kept.record]; exact settled)
      (by rw [kept.record]; exact chained) (chain.transfer keeps)
  | @whole id content live settled whole chain =>
    have kept := keeps id (by simp)
    exact .whole (by rw [kept.record]; exact live) (by rw [kept.record]; exact settled)
      (by rw [kept.record]; exact whole) (chain.transfer keeps)

end File

end Pingkv
