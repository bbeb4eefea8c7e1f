import Pingkv.Lib.Exec
import Pingkv.Lib.Bytes

/-! `kv_io_buf`, a queue of bytes kept in blocks of one size. A writer appends
behind the last block, a reader takes from the first; blocks are made and
dropped on the way by the accessors as well as by the offset updates. -/

namespace Pingkv

open Exec

/-- `kv_io_buf::block`. The number stands for the address of its data. -/
structure KvIoBuf.Block where
  number : Nat
  data : Mem
  rOffset : Int
  wOffset : Int

structure KvIoBuf where
  blockSize : Int
  blocks : List KvIoBuf.Block
  /-- How many blocks were ever made, and what fresh memory holds for each. -/
  made : Nat
  junk : Nat → Mem

namespace KvIoBuf

/-- A pointer into the data of a block. -/
structure Ptr where
  block : Nat
  offset : Int
  deriving DecidableEq, Repr

def new (blockSize : Int) (junk : Nat → Mem) : KvIoBuf :=
  { blockSize := blockSize, blocks := [], made := 0, junk := junk }

/-- A new block behind the last one, returned by its data. -/
def pushNewBlock : Exec KvIoBuf Ptr := do
  let made ← read KvIoBuf.made
  update fun buf => { buf with
    blocks := buf.blocks ++ [{ number := made, data := buf.junk made, rOffset := 0, wOffset := 0 }],
    made := made + 1 }
  pure ⟨made, 0⟩

def delQueueFront : Exec KvIoBuf Unit := update fun buf => { buf with blocks := buf.blocks.tail }

/-- The sum is computed over an unsigned 64-bit type and returned as an `int`. -/
def size (buf : KvIoBuf) : Int :=
  match buf.blocks with
  | [] => 0
  | [only] => only.wOffset - only.rOffset
  | first :: next :: rest => wrap 32 ((buf.blockSize - first.rOffset) +
      ((next :: rest).getLast (List.cons_ne_nil _ _)).wOffset + rest.length * buf.blockSize)

/-- `_blocks.front()`, which an empty queue does not have. -/
def front : Exec KvIoBuf Block := do
  match (← read KvIoBuf.blocks) with
  | [] => fault
  | block :: _ => pure block

/-- `_blocks.back()`. -/
def back : Exec KvIoBuf Block := do
  match (← read KvIoBuf.blocks).getLast? with
  | none => fault
  | some block => pure block

def rPtr : Exec KvIoBuf Ptr := do
  if (← read KvIoBuf.blocks) = [] then pushNewBlock
  else
    let block ← front
    pure ⟨block.number, block.rOffset⟩

/-- `r_len`, which calls itself once for each block it drops. -/
def rLenWithin : Nat → Exec KvIoBuf Int
  | 0 => exhausted
  | fuel + 1 => do
    if (← read KvIoBuf.blocks) = [] then let _ ← pushNewBlock
    let block ← front
    if block.rOffset = (← read KvIoBuf.blockSize) then
      delQueueFront
      rLenWithin fuel
    else pure (block.wOffset - block.rOffset)

def rLen : Exec KvIoBuf Int := do rLenWithin ((← read KvIoBuf.blocks).length + 1)

def wPtr : Exec KvIoBuf Ptr := do
  if (← read KvIoBuf.blocks) = [] then pushNewBlock
  else
    let block ← back
    if block.wOffset = (← read KvIoBuf.blockSize) then pushNewBlock
    else pure ⟨block.number, block.wOffset⟩

def wLen : Exec KvIoBuf Int := do
  if (← read KvIoBuf.blocks) = [] then let _ ← pushNewBlock
  let block ← back
  if block.wOffset = (← read KvIoBuf.blockSize) then let _ ← pushNewBlock
  let block ← back
  pure ((← read KvIoBuf.blockSize) - block.wOffset)

/-- `assert`, which ends the program where it does not hold. -/
def check (holds : Bool) : Exec KvIoBuf Unit := if holds then pure () else fault

/-- The offset is a `short`. -/
def addROffset (add : Int) : Exec KvIoBuf Unit := do
  let block ← front
  check (add ≤ block.wOffset - block.rOffset)
  let offset := wrap 16 (block.rOffset + add)
  update fun buf => { buf with blocks := { block with rOffset := offset } :: buf.blocks.tail }
  if offset = (← read KvIoBuf.blockSize) then delQueueFront

def addWOffset (add : Int) : Exec KvIoBuf Unit := do
  let block ← back
  check (add ≤ (← read KvIoBuf.blockSize) - block.wOffset)
  update fun buf => { buf with
    blocks := buf.blocks.dropLast ++ [{ block with wOffset := wrap 16 (block.wOffset + add) }] }

/-- Bytes stored through a pointer. -/
def Block.store (block : Block) (place : Ptr) (bytes : List UInt8) : Block :=
  if block.number = place.block then
    { block with data := block.data.copy place.offset.toNat (Buf.ofList bytes).byte bytes.length }
  else block

/-- A store into a block that is still there, within its size. -/
def putBytes (place : Ptr) (bytes : List UInt8) : Exec KvIoBuf Unit := do
  let buf ← read id
  if buf.blocks.any (fun block => block.number = place.block) ∧ 0 ≤ place.offset ∧
      place.offset + bytes.length ≤ buf.blockSize then
    update fun buf => { buf with blocks := buf.blocks.map fun block => block.store place bytes }
  else fault

def getBytes (place : Ptr) (count : Nat) : Exec KvIoBuf (List UInt8) := do
  let buf ← read id
  match buf.blocks.find? fun block => block.number = place.block with
  | none => fault
  | some block =>
    if 0 ≤ place.offset ∧ place.offset + count ≤ buf.blockSize then
      pure (block.data.slice place.offset.toNat count)
    else fault

/-- The bytes of a block that were written and not read. -/
def Block.unread (block : Block) : List UInt8 :=
  block.data.slice block.rOffset.toNat (block.wOffset - block.rOffset).toNat

def contents (buf : KvIoBuf) : List UInt8 := buf.blocks.flatMap Block.unread

/-- Every block but the last is full and only the first is partly read. -/
structure Inv (buf : KvIoBuf) : Prop where
  sized : 1 ≤ buf.blockSize ∧ buf.blockSize ≤ 32767
  offsets : ∀ block ∈ buf.blocks, 0 ≤ block.rOffset ∧ block.rOffset ≤ block.wOffset ∧
    block.wOffset ≤ buf.blockSize
  full : ∀ block ∈ buf.blocks.dropLast, block.wOffset = buf.blockSize
  untouched : ∀ block ∈ buf.blocks.tail, block.rOffset = 0
  begun : ∀ block ∈ buf.blocks.head?, block.rOffset < buf.blockSize
  numbered : ∀ block ∈ buf.blocks, block.number < buf.made
  apart : (buf.blocks.map Block.number).Nodup

/-- What the accessors do: they may add an empty block and change nothing else. -/
structure Kept (buf after : KvIoBuf) : Prop where
  inv : after.Inv
  contents : after.contents = buf.contents
  blockSize : after.blockSize = buf.blockSize

theorem Inv.kept {buf : KvIoBuf} (inv : buf.Inv) : buf.Kept buf := ⟨inv, rfl, rfl⟩

theorem new_inv {blockSize : Int} (sized : 1 ≤ blockSize ∧ blockSize ≤ 32767) (junk : Nat → Mem) :
    (new blockSize junk).Inv := by
  constructor <;> simp [new, sized]

/-- The buffer with a new block behind the last one. -/
def pushed (buf : KvIoBuf) : KvIoBuf := { buf with
  blocks := buf.blocks ++ [{ number := buf.made, data := buf.junk buf.made, rOffset := 0, wOffset := 0 }],
  made := buf.made + 1 }

theorem pushNewBlock_run (buf : KvIoBuf) : pushNewBlock buf = (.ok ⟨buf.made, 0⟩, buf.pushed) := rfl

private theorem mem_tail_concat {α : Type} {items : List α} {last item : α}
    (member : item ∈ (items ++ [last]).tail) : item ∈ items.tail ∨ item = last := by
  cases items with
  | nil => simp at member
  | cons head rest => simpa using member

theorem pushed_kept {buf : KvIoBuf} (inv : buf.Inv) (full : ∀ block ∈ buf.blocks, block.wOffset = buf.blockSize) :
    buf.Kept buf.pushed := by
  have sized := inv.sized
  refine ⟨?_, ?_, rfl⟩
  · constructor
    · exact sized
    · intro block member
      rcases List.mem_append.mp member with old | fresh
      · exact inv.offsets block old
      · obtain rfl := List.mem_singleton.mp fresh
        exact ⟨Int.le_refl 0, Int.le_refl 0, show 0 ≤ buf.blockSize by omega⟩
    · intro block member
      rw [pushed, List.dropLast_concat] at member
      exact full block member
    · intro block member
      rcases mem_tail_concat member with old | rfl
      · exact inv.untouched block old
      · rfl
    · intro block member
      cases empty : buf.blocks with
      | nil =>
        simp only [pushed, empty, List.nil_append, List.head?_cons, Option.mem_some_iff] at member
        subst member
        exact show 0 < buf.blockSize by omega
      | cons head rest =>
        apply inv.begun
        simpa only [pushed, empty, List.cons_append, List.head?_cons] using member
    · intro block member
      rcases List.mem_append.mp member with old | fresh
      · have := inv.numbered block old
        exact show block.number < buf.made + 1 by omega
      · obtain rfl := List.mem_singleton.mp fresh
        exact Nat.lt_succ_self buf.made
    · rw [pushed, List.map_append, List.nodup_append]
      refine ⟨inv.apart, by simp, ?_⟩
      intro number old fresh member
      obtain ⟨block, present, rfl⟩ := List.mem_map.mp old
      have := inv.numbered block present
      obtain rfl := List.mem_singleton.mp member
      exact Nat.ne_of_lt this
  · simp [contents, pushed, Block.unread]

theorem Kept.trans {buf after last : KvIoBuf} (first : buf.Kept after) (second : after.Kept last) :
    buf.Kept last :=
  ⟨second.inv, second.contents.trans first.contents, second.blockSize.trans first.blockSize⟩

/-- The last block of a buffer has room. -/
structure Roomy (buf : KvIoBuf) (earlier : List Block) (last : Block) : Prop where
  blocks : buf.blocks = earlier ++ [last]
  room : last.wOffset < buf.blockSize

theorem back_run {buf : KvIoBuf} {earlier : List Block} {last : Block} (ends : buf.blocks = earlier ++ [last]) :
    back buf = (.ok last, buf) := by
  simp only [back, read_bind_run, ends, List.getLast?_concat, pure_run]

theorem front_run {buf : KvIoBuf} {first : Block} {rest : List Block} (starts : buf.blocks = first :: rest) :
    front buf = (.ok first, buf) := by
  simp only [front, read_bind_run, starts, pure_run]

theorem Roomy.ne_nil {buf : KvIoBuf} {earlier : List Block} {last : Block} (roomy : buf.Roomy earlier last) :
    buf.blocks ≠ [] := by
  rw [roomy.blocks]
  exact List.append_ne_nil_of_right_ne_nil _ (List.cons_ne_nil _ _)

theorem Roomy.wLen_run {buf : KvIoBuf} {earlier : List Block} {last : Block} (roomy : buf.Roomy earlier last) :
    wLen buf = (.ok (buf.blockSize - last.wOffset), buf) := by
  have open_ : ¬ last.wOffset = buf.blockSize := Int.ne_of_lt roomy.room
  simp only [wLen, read_bind_run, if_neg roomy.ne_nil]
  rw [bind_ok (back_run roomy.blocks)]
  simp only [read_bind_run, if_neg open_]
  rw [bind_ok (back_run roomy.blocks)]
  rfl

theorem Roomy.wPtr_run {buf : KvIoBuf} {earlier : List Block} {last : Block} (roomy : buf.Roomy earlier last) :
    wPtr buf = (.ok ⟨last.number, last.wOffset⟩, buf) := by
  have open_ : ¬ last.wOffset = buf.blockSize := Int.ne_of_lt roomy.room
  simp only [wPtr, read_bind_run, if_neg roomy.ne_nil]
  rw [bind_ok (back_run roomy.blocks)]
  simp only [read_bind_run, if_neg open_, pure_run]

/-- What has no room is empty or full up to the end of its last block. -/
theorem Inv.roomy_or_full {buf : KvIoBuf} (inv : buf.Inv) :
    (∃ earlier last, buf.Roomy earlier last) ∨ ∀ block ∈ buf.blocks, block.wOffset = buf.blockSize := by
  rcases List.eq_nil_or_concat buf.blocks with empty | ⟨earlier, last, ends⟩
  · exact .inr (by simp [empty])
  · rw [List.concat_eq_append] at ends
    have bounds := inv.offsets last (by simp [ends])
    by_cases room : last.wOffset < buf.blockSize
    · exact .inl ⟨earlier, last, ends, room⟩
    · right
      intro block member
      rw [ends, List.mem_append] at member
      rcases member with old | back
      · apply inv.full
        rwa [ends, List.dropLast_concat]
      · obtain rfl := List.mem_singleton.mp back
        omega

theorem pushed_roomy {buf : KvIoBuf} (inv : buf.Inv) : buf.pushed.Roomy buf.blocks
    { number := buf.made, data := buf.junk buf.made, rOffset := 0, wOffset := 0 } :=
  ⟨rfl, show 0 < buf.blockSize from Int.lt_of_lt_of_le Int.zero_lt_one inv.sized.1⟩

/-- Without room both accessors of the writer start with a new block. -/
theorem wLen_full {buf : KvIoBuf} (full : ∀ block ∈ buf.blocks, block.wOffset = buf.blockSize)
    (inv : buf.Inv) : wLen buf = wLen buf.pushed := by
  have roomy := pushed_roomy inv
  rcases List.eq_nil_or_concat buf.blocks with empty | ⟨earlier, last, ends⟩
  · have begun : wLen buf = (pushNewBlock >>= fun _ => do
        let block ← back
        if block.wOffset = (← read KvIoBuf.blockSize) then let _ ← pushNewBlock
        let block ← back
        pure ((← read KvIoBuf.blockSize) - block.wOffset)) buf := by
      simp only [wLen, read_bind_run, if_pos empty]
    rw [begun, bind_ok (pushNewBlock_run buf)]
    simp only [wLen, read_bind_run, if_neg roomy.ne_nil]
  · rw [List.concat_eq_append] at ends
    have same := full last (by simp [ends])
    have some_ : buf.blocks ≠ [] := by simp [ends]
    rw [roomy.wLen_run]
    simp only [wLen, read_bind_run, if_neg some_]
    rw [bind_ok (back_run ends)]
    simp only [read_bind_run, if_pos same]
    rw [bind_ok (pushNewBlock_run buf), bind_ok (back_run roomy.blocks)]
    rfl

/-- `w_len` answers the room behind the last block, which is never 0. -/
theorem Inv.wLen_run {buf : KvIoBuf} (inv : buf.Inv) : ∃ after earlier last,
    wLen buf = (.ok (after.blockSize - last.wOffset), after) ∧ buf.Kept after ∧ after.Roomy earlier last := by
  rcases inv.roomy_or_full with ⟨earlier, last, roomy⟩ | full
  · exact ⟨buf, earlier, last, roomy.wLen_run, inv.kept, roomy⟩
  · have roomy := pushed_roomy inv
    exact ⟨buf.pushed, _, _, (wLen_full full inv).trans roomy.wLen_run, pushed_kept inv full, roomy⟩

theorem Inv.wPtr_run {buf : KvIoBuf} (inv : buf.Inv) : ∃ place after,
    wPtr buf = (.ok place, after) ∧ buf.Kept after := by
  rcases inv.roomy_or_full with ⟨earlier, last, roomy⟩ | full
  · exact ⟨_, buf, roomy.wPtr_run, inv.kept⟩
  · refine ⟨⟨buf.made, 0⟩, buf.pushed, ?_, pushed_kept inv full⟩
    rcases List.eq_nil_or_concat buf.blocks with empty | ⟨earlier, last, ends⟩
    · simp only [wPtr, read_bind_run, if_pos empty, pushNewBlock_run]
    · rw [List.concat_eq_append] at ends
      have same := full last (by simp [ends])
      have some_ : buf.blocks ≠ [] := by simp [ends]
      simp only [wPtr, read_bind_run, if_neg some_]
      rw [bind_ok (back_run ends)]
      simp only [read_bind_run, if_pos same, pushNewBlock_run]

/-- `r_len` answers what is unread in the first block, and never has one to drop. -/
theorem Inv.rLen_run {buf : KvIoBuf} (inv : buf.Inv) : ∃ after first rest,
    rLen buf = (.ok (first.wOffset - first.rOffset), after) ∧ buf.Kept after ∧
      after.blocks = first :: rest := by
  have counted : ∀ {buf : KvIoBuf} {first : Block} {rest : List Block}, buf.Inv → buf.blocks = first :: rest →
      ∀ fuel, rLenWithin (fuel + 1) buf = (.ok (first.wOffset - first.rOffset), buf) := by
    intro buf first rest inv starts fuel
    have begun := inv.begun first (by simp [starts])
    have some_ : buf.blocks ≠ [] := by simp [starts]
    simp only [rLenWithin, read_bind_run, if_neg some_]
    rw [bind_ok (front_run starts)]
    simp only [read_bind_run, if_neg (Int.ne_of_lt begun), pure_run]
  cases starts : buf.blocks with
  | nil =>
    have kept := pushed_kept inv (by simp [starts])
    have begun : buf.pushed.blocks =
        [{ number := buf.made, data := buf.junk buf.made, rOffset := 0, wOffset := 0 }] := by
      simp only [pushed, starts, List.nil_append]
    refine ⟨buf.pushed, _, [], ?_, kept, begun⟩
    have run := counted kept.inv begun buf.blocks.length
    have some_ : buf.pushed.blocks ≠ [] := by simp [begun]
    simp only [rLenWithin, read_bind_run, if_neg some_] at run
    simp only [rLen, rLenWithin, read_bind_run, if_pos starts]
    rw [bind_ok (pushNewBlock_run buf), run]
  | cons first rest =>
    exact ⟨buf, first, rest, counted inv starts _, inv.kept, starts⟩

theorem rPtr_run {buf : KvIoBuf} {first : Block} {rest : List Block} (starts : buf.blocks = first :: rest) :
    rPtr buf = (.ok ⟨first.number, first.rOffset⟩, buf) := by
  have some_ : buf.blocks ≠ [] := by simp [starts]
  simp only [rPtr, read_bind_run, if_neg some_]
  rw [bind_ok (front_run starts)]
  rfl

theorem Inv.rPtr_run {buf : KvIoBuf} (inv : buf.Inv) : ∃ place after,
    rPtr buf = (.ok place, after) ∧ buf.Kept after := by
  cases starts : buf.blocks with
  | nil =>
    refine ⟨⟨buf.made, 0⟩, buf.pushed, ?_, pushed_kept inv (by simp [starts])⟩
    simp only [rPtr, read_bind_run, if_pos starts, pushNewBlock_run]
  | cons first rest => exact ⟨_, buf, KvIoBuf.rPtr_run starts, inv.kept⟩

/-- A block after `bytes` were written behind what it holds. -/
def Block.extend (block : Block) (bytes : List UInt8) : Block := { block with
  data := block.data.copy block.wOffset.toNat (Buf.ofList bytes).byte bytes.length,
  wOffset := block.wOffset + bytes.length }

theorem Block.extend_unread {block : Block} (offsets : 0 ≤ block.rOffset ∧ block.rOffset ≤ block.wOffset)
    (bytes : List UInt8) : (block.extend bytes).unread = block.unread ++ bytes := by
  have split : (block.wOffset + bytes.length - block.rOffset).toNat =
      (block.wOffset - block.rOffset).toNat + bytes.length := by omega
  have ends : block.rOffset.toNat + (block.wOffset - block.rOffset).toNat = block.wOffset.toNat := by omega
  have kept : Mem.Agree (block.data.copy block.wOffset.toNat (Buf.ofList bytes).byte bytes.length) block.data
      block.rOffset.toNat (block.wOffset - block.rOffset).toNat := Mem.agree_copy (.inl (by omega))
  have written : (Buf.ofList bytes).byte.slice 0 bytes.length = bytes := Buf.toList_ofList bytes
  simp only [Block.unread, Block.extend, split, Mem.slice_append, ends, kept.slice_eq, Mem.slice_copy, written]

/-- Bytes that fit behind the last block are stored there alone. -/
theorem Roomy.write_run {buf : KvIoBuf} {earlier : List Block} {last : Block} (roomy : buf.Roomy earlier last)
    (inv : buf.Inv) {bytes : List UInt8} (fits : bytes.length ≤ buf.blockSize - last.wOffset) :
    (putBytes ⟨last.number, last.wOffset⟩ bytes >>= fun _ => addWOffset bytes.length) buf =
      (.ok (), { buf with blocks := earlier ++ [last.extend bytes] }) := by
  have sized := inv.sized
  have bounds := inv.offsets last (by simp [roomy.blocks])
  have apart := inv.apart
  rw [roomy.blocks, List.map_append, List.map_singleton, List.nodup_append] at apart
  have others : earlier.map (fun block => block.store ⟨last.number, last.wOffset⟩ bytes) = earlier := by
    conv_rhs => rw [← List.map_id earlier]
    apply List.map_congr_left
    intro block member
    have different := apart.2.2 _ (List.mem_map_of_mem member) _ (List.mem_singleton.mpr rfl)
    rw [Block.store, if_neg different, id]
  have found : (buf.blocks.any fun block => block.number = last.number) = true := by simp [roomy.blocks]
  have put : putBytes ⟨last.number, last.wOffset⟩ bytes buf = (.ok (), { buf with
      blocks := earlier ++ [last.store ⟨last.number, last.wOffset⟩ bytes] }) := by
    simp only [putBytes, read_bind_run, id]
    rw [if_pos ⟨found, Int.le_trans bounds.1 bounds.2.1, by omega⟩, update_run, roomy.blocks, List.map_append, others]
    rfl
  have short : wrap 16 (last.wOffset + bytes.length) = last.wOffset + bytes.length :=
    wrap_16_of_range (by omega) (by omega)
  have checked : check (bytes.length ≤ buf.blockSize - last.wOffset) = pure () := by
    rw [check, decide_eq_true fits, if_pos rfl]
  rw [bind_ok put]
  simp only [addWOffset]
  rw [bind_ok (back_run rfl)]
  simp only [read_bind_run, Block.store, if_true, checked, pure_bind_run, update_run, short,
    List.dropLast_concat]
  rfl

theorem Roomy.extend_inv {buf : KvIoBuf} {earlier : List Block} {last : Block} (roomy : buf.Roomy earlier last)
    (inv : buf.Inv) {bytes : List UInt8} (fits : bytes.length ≤ buf.blockSize - last.wOffset) :
    { buf with blocks := earlier ++ [last.extend bytes] : KvIoBuf }.Inv ∧
      { buf with blocks := earlier ++ [last.extend bytes] : KvIoBuf }.contents = buf.contents ++ bytes := by
  have blocks := roomy.blocks
  have bounds := inv.offsets last (by simp [blocks])
  constructor
  · constructor
    · exact inv.sized
    · intro block member
      rcases List.mem_append.mp member with old | back
      · exact inv.offsets block (by rw [blocks]; exact List.mem_append_left _ old)
      · obtain rfl := List.mem_singleton.mp back
        simp only [Block.extend]
        omega
    · intro block member
      apply inv.full
      simpa only [blocks, List.dropLast_concat] using member
    · intro block member
      cases earlier with
      | nil => simp at member
      | cons head rest =>
        rcases List.mem_append.mp (show block ∈ rest ++ [last.extend bytes] from member) with old | back
        · exact inv.untouched block (by rw [blocks]; exact List.mem_append_left _ old)
        · obtain rfl := List.mem_singleton.mp back
          exact inv.untouched last (by rw [blocks]; exact List.mem_append_right _ (List.mem_singleton.mpr rfl))
    · intro block member
      cases earlier with
      | nil =>
        obtain rfl := Option.mem_some_iff.mp member
        exact inv.begun last (by simp [blocks])
      | cons head rest => exact inv.begun block (by rw [blocks]; exact member)
    · intro block member
      rcases List.mem_append.mp member with old | back
      · exact inv.numbered block (by rw [blocks]; exact List.mem_append_left _ old)
      · obtain rfl := List.mem_singleton.mp back
        exact inv.numbered last (by simp [blocks])
    · have apart := inv.apart
      rw [blocks] at apart
      simpa only [List.map_append, List.map_singleton, Block.extend] using apart
  · simp only [contents, blocks, List.flatMap_append, List.flatMap_singleton,
      Block.extend_unread ⟨bounds.1, bounds.2.1⟩, List.append_assoc]

private theorem mem_dropLast_cons {α : Type} {head item : α} {rest : List α} :
    item ∈ (head :: rest).dropLast ↔ rest ≠ [] ∧ (item = head ∨ item ∈ rest.dropLast) := by
  cases rest with
  | nil => simp
  | cons next rest => simp

/-- The blocks after `count` bytes of the first one were read. -/
def advanced (blockSize : Int) (first : Block) (rest : List Block) (count : Nat) : List Block :=
  if first.rOffset + count = blockSize then rest
  else { first with rOffset := first.rOffset + count } :: rest

theorem Inv.read_run {buf : KvIoBuf} (inv : buf.Inv) {first : Block} {rest : List Block}
    (starts : buf.blocks = first :: rest) {count : Nat} (within : count ≤ first.wOffset - first.rOffset) :
    (do
      let bytes ← getBytes ⟨first.number, first.rOffset⟩ count
      addROffset count
      pure bytes) buf =
      (.ok (first.data.slice first.rOffset.toNat count),
        { buf with blocks := advanced buf.blockSize first rest count }) := by
  have sized := inv.sized
  have bounds := inv.offsets first (by simp [starts])
  have found : buf.blocks.find? (fun block => block.number = first.number) = some first := by
    simp [starts]
  have taken : getBytes ⟨first.number, first.rOffset⟩ count buf =
      (.ok (first.data.slice first.rOffset.toNat count), buf) := by
    simp only [getBytes, read_bind_run, id, found]
    rw [if_pos ⟨bounds.1, by omega⟩]
    rfl
  have short : wrap 16 (first.rOffset + count) = first.rOffset + count :=
    wrap_16_of_range (by omega) (by omega)
  have checked : check (count ≤ first.wOffset - first.rOffset) = pure () := by
    rw [check, decide_eq_true within, if_pos rfl]
  have added : addROffset count buf =
      (.ok (), { buf with blocks := advanced buf.blockSize first rest count }) := by
    rw [addROffset, bind_ok (front_run starts)]
    simp only [checked, pure_bind_run, update_bind_run, read_bind_run, short, starts, List.tail_cons, advanced]
    split <;> rfl
  rw [bind_ok taken, bind_ok added]
  rfl

/-- The blocks behind the first one are as the accessors expect them. -/
theorem Inv.rest {buf : KvIoBuf} (inv : buf.Inv) {first : Block} {rest : List Block} (starts : buf.blocks = first :: rest) :
    { buf with blocks := rest : KvIoBuf }.Inv ∧ ∀ block ∈ rest, block.rOffset = 0 := by
  have older : ∀ block ∈ rest, block ∈ buf.blocks := fun block member => by
    rw [starts]
    exact List.mem_cons_of_mem first member
  have untouched : ∀ block ∈ rest, block.rOffset = 0 := fun block member => by
    apply inv.untouched
    rwa [starts]
  have apart := inv.apart
  rw [starts, List.map_cons, List.nodup_cons] at apart
  refine ⟨?_, untouched⟩
  constructor
  · exact inv.sized
  · exact fun block member => inv.offsets block (older block member)
  · intro block member
    apply inv.full
    rw [starts, mem_dropLast_cons]
    exact ⟨List.ne_nil_of_mem (List.dropLast_subset rest member), .inr member⟩
  · exact fun block member => untouched block (List.mem_of_mem_tail member)
  · intro block member
    rw [untouched block (List.mem_of_mem_head? member)]
    exact Int.lt_of_lt_of_le Int.zero_lt_one inv.sized.1
  · exact fun block member => inv.numbered block (older block member)
  · exact apart.2

theorem Inv.advanced_inv {buf : KvIoBuf} (inv : buf.Inv) {first : Block} {rest : List Block}
    (starts : buf.blocks = first :: rest) {count : Nat} (within : count ≤ first.wOffset - first.rOffset) :
    { buf with blocks := advanced buf.blockSize first rest count : KvIoBuf }.Inv ∧
      buf.contents = first.data.slice first.rOffset.toNat count ++
        { buf with blocks := advanced buf.blockSize first rest count : KvIoBuf }.contents := by
  have bounds := inv.offsets first (by simp [starts])
  have begun := inv.begun first (by simp [starts])
  obtain ⟨behind, untouched⟩ := inv.rest starts
  unfold advanced
  split
  · -- The first block was read up to its end, which is the end of what was written into it.
    rename_i complete
    refine ⟨behind, ?_⟩
    have whole : (first.wOffset - first.rOffset).toNat = count := by omega
    simp only [contents, starts, List.flatMap_cons, Block.unread, whole]
  · rename_i left
    constructor
    · constructor
      · exact inv.sized
      · intro block member
        rcases List.mem_cons.mp member with rfl | old
        · exact ⟨show 0 ≤ first.rOffset + count by omega, show first.rOffset + count ≤ first.wOffset by omega,
            bounds.2.2⟩
        · exact behind.offsets block old
      · intro block member
        rw [mem_dropLast_cons] at member
        rcases member with ⟨some_, rfl | old⟩
        · apply inv.full first
          rw [starts, mem_dropLast_cons]
          exact ⟨some_, .inl rfl⟩
        · exact behind.full block old
      · exact untouched
      · intro block member
        obtain rfl := Option.mem_some_iff.mp member
        exact show first.rOffset + count < buf.blockSize by omega
      · intro block member
        rcases List.mem_cons.mp member with rfl | old
        · exact inv.numbered first (by simp [starts])
        · exact behind.numbered block old
      · have apart := inv.apart
        rw [starts, List.map_cons] at apart
        exact apart
    · have split : (first.wOffset - first.rOffset).toNat =
          count + (first.wOffset - (first.rOffset + count)).toNat := by omega
      have place : (first.rOffset + count).toNat = first.rOffset.toNat + count := by omega
      simp only [contents, starts, List.flatMap_cons, Block.unread, place]
      rw [split, Mem.slice_append, List.append_assoc]

private theorem later_length {blockSize : Int} {next : Block} {rest : List Block}
    (untouched : ∀ block ∈ next :: rest, block.rOffset = 0)
    (written : ∀ block ∈ next :: rest, 0 ≤ block.wOffset)
    (full : ∀ block ∈ (next :: rest).dropLast, block.wOffset = blockSize) :
    (((next :: rest).flatMap Block.unread).length : Int) =
      ((next :: rest).getLast (List.cons_ne_nil _ _)).wOffset + rest.length * blockSize := by
  have start := untouched next List.mem_cons_self
  have stop := written next List.mem_cons_self
  induction rest generalizing next with
  | nil =>
    simp only [List.flatMap_cons, List.flatMap_nil, List.append_nil, Block.unread, Mem.slice_length,
      List.getLast_singleton, List.length_nil]
    omega
  | cons second rest ih =>
    have whole := full next (by simp)
    have later := ih (fun block member => untouched block (List.mem_cons_of_mem _ member))
      (fun block member => written block (List.mem_cons_of_mem _ member))
      (fun block member => full block (by rw [List.dropLast_cons_cons]; exact List.mem_cons_of_mem _ member))
      (untouched second (by simp)) (written second (by simp))
    rw [List.flatMap_cons, List.length_append, Int.natCast_add, later, List.getLast_cons (List.cons_ne_nil _ _),
      List.length_cons, Int.natCast_add, Int.add_mul]
    simp only [Block.unread, Mem.slice_length]
    omega

/-- `size` counts what is unread, over a wrapping `int`. -/
theorem Inv.size_eq {buf : KvIoBuf} (inv : buf.Inv) : buf.size = wrap 32 buf.contents.length := by
  have sized := inv.sized
  unfold size
  split
  · rename_i empty
    simp only [contents, empty, List.flatMap_nil]
    rfl
  · rename_i only alone
    have bounds := inv.offsets only (by simp [alone])
    simp only [contents, alone, List.flatMap_singleton, Block.unread, Mem.slice_length]
    rw [wrap_32_of_range (by omega) (by omega)]
    omega
  · rename_i first next rest starts
    have bounds := inv.offsets first (by simp [starts])
    have whole : first.wOffset = buf.blockSize := inv.full first (by simp [starts])
    have later := @later_length buf.blockSize next rest
      (fun block member => inv.untouched block (by rw [starts]; exact member))
      (fun block member => by
        have := inv.offsets block (by rw [starts]; exact List.mem_cons_of_mem _ member)
        omega)
      (fun block member => inv.full block (by
        rw [starts, mem_dropLast_cons]
        exact ⟨List.cons_ne_nil _ _, .inr member⟩))
    have head : (first.unread.length : Int) = buf.blockSize - first.rOffset := by
      simp only [Block.unread, Mem.slice_length]
      omega
    rw [contents, starts, List.flatMap_cons, List.length_append, Int.natCast_add, later, head, Int.add_assoc]

end KvIoBuf

end Pingkv
