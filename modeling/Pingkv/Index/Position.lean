import Pingkv.Index.Node

/-! Where `_find_pos` stops in a node, and how the free space of a node is counted. -/

namespace Pingkv

namespace KvIndex

open Exec

variable {σ : Type} {buf key : Buf} {id off : Nat} {record : Record} {records before after : List Record}

/-- The free bytes `_node_free_space` finds behind the records of a node. -/
def freeSpace (records : List Record) : Int := 8124 - span records

private theorem freeSpaceLoop_run (state : σ) (holds : HasRecords buf.byte off records)
    (inside : off + span records ≤ buf.len) (ret : Int) :
    freeSpaceLoop buf records.length off ret state = (.ok (ret - span records), state) := by
  induction records generalizing off ret with
  | nil => simp [freeSpaceLoop]
  | cons record rest ih =>
    obtain ⟨head, tail⟩ := holds
    rw [span_cons] at inside
    have read : getKeyFromRecord buf off state = (.ok ((off : Int) + 12, (record.key.length : Int)), state) :=
      getKeyFromRecord_run state head (by omega) rfl
    have next : (off : Int) + 12 + record.key.length = ((off + recordLen record : Nat) : Int) := by
      simp only [recordLen]
      omega
    rw [List.length_cons, freeSpaceLoop, bind_ok read]
    simp only [next]
    rw [ih tail (by omega)]
    congr 2
    simp only [kInfoLen, span_cons, recordLen]
    omega

theorem nodeFreeSpace_run (state : σ) (node : HasNode buf id records) :
    nodeFreeSpace buf state = (.ok (freeSpace records), state) := by
  have len := node.len
  have fits := node.fits
  have count : buf.getShort 4 state = (.ok (records.length : Int), state) := by
    rw [Buf.getShort_run buf state (show 4 + 2 ≤ buf.len by omega) (by omega), node.count]
  have loop : freeSpaceLoop buf records.length nodeHeadLen (nodeLen - nodeHeadLen) state = _ :=
    freeSpaceLoop_run state node.laid (by omega) (nodeLen - nodeHeadLen)
  rw [nodeFreeSpace, bind_ok count]
  simp only [Int.toNat_natCast]
  rw [bind_ok loop, pure_run]
  congr 2
  simp only [nodeLen, nodeHeadLen, kInfoLen, freeSpace]
  omega

/-- What reading a record of a node gives. -/
structure Reads (buf key : Buf) (off : Nat) (record : Record) (state : σ) (cmp : Int) : Prop where
  left : buf.getInt off state = (.ok (record.left : Int), state)
  block : buf.getInt ((off : Int) + 4) state = (.ok record.value.number.1, state)
  row : buf.getShort ((off : Int) + 8) state = (.ok record.value.number.2, state)
  keyLen : buf.getShort ((off : Int) + 10) state = (.ok (record.key.length : Int), state)
  compared : cmpKey buf ((off : Int) + 12) record.key.length key 0 key.len state = (.ok cmp, state)
  sign : Sign cmp record.key key.toList

theorem reads (state : σ) (key : Buf) (holds : HasRecord buf.byte off record)
    (inside : off + recordLen record ≤ buf.len) : ∃ cmp, Reads buf key off record state cmp := by
  unfold recordLen at inside
  have own : key.byte.slice 0 key.toList.length = key.toList := by rw [Buf.toList_length]; rfl
  obtain ⟨cmp, compared, sign⟩ := cmpKey_run state holds.key (by omega) own (by simp)
    (show (off : Int) + 12 = (off + 12 : Nat) ∧ (record.key.length : Int) = record.key.length by omega)
    (show (0 : Int) = (0 : Nat) ∧ (key.len : Int) = key.toList.length by simp)
  refine ⟨cmp, ?_, ?_, ?_, ?_, compared, sign⟩
  · rw [Buf.getInt_run buf state (show off + 4 ≤ buf.len by omega) rfl, holds.left]
  · rw [Buf.getInt_run buf state (show off + 4 + 4 ≤ buf.len by omega) (by omega), holds.block]
  · rw [Buf.getShort_run buf state (show off + 8 + 2 ≤ buf.len by omega) (by omega), holds.row]
  · rw [Buf.getShort_run buf state (show off + 10 + 2 ≤ buf.len by omega) (by omega), holds.keyLen]

/-- The same for a record inside a node. -/
theorem node_reads (state : σ) (key : Buf) (node : HasNode buf id (before ++ record :: after)) :
    ∃ cmp, Reads buf key (16 + span before) record state cmp := by
  have len := node.len
  have fits := node.fits
  rw [span_append, span_cons] at fits
  exact reads state key (hasRecords_split.mp node.laid).2.1 (by omega)

/-- One turn of the loop of `_find_pos`. -/
private theorem findPosLoop_succ (state : σ) (key : Buf) (holds : HasRecord buf.byte off record)
    (inside : off + recordLen record ≤ buf.len) (count : Nat) (found : Option KeyPos) (space : Int) :
    ∃ cmp, Sign cmp record.key key.toList ∧ findPosLoop buf key (count + 1) off found space state =
      (if cmp = 0 then pure (.found off)
      else if cmp < 0 then findPosLoop buf key count (off + recordLen record : Nat) found space
      else do
        let closer ← isCloser buf found (off + 12) record.key.length
        findPosLoop buf key count (off + recordLen record : Nat)
          (if closer then some ⟨off, off + 12, record.key.length⟩ else found)
          (space - 8 - record.key.length)) state := by
  have read : getKeyFromRecord buf off state = (.ok ((off : Int) + 12, (record.key.length : Int)), state) :=
    getKeyFromRecord_run state holds inside rfl
  obtain ⟨cmp, fields⟩ := reads state key holds inside
  have next : (off : Int) + 12 + record.key.length = ((off + recordLen record : Nat) : Int) := by
    simp only [recordLen]
    omega
  refine ⟨cmp, fields.sign, ?_⟩
  rw [findPosLoop, bind_ok read]
  dsimp only
  rw [bind_ok fields.compared, next]

/-- Records below the key are passed. -/
private theorem findPosLoop_lower (state : σ) (holds : HasRecords buf.byte off before)
    (inside : off + span before ≤ buf.len) (lower : ∀ other ∈ before, other.key < key.toList)
    (count : Nat) (found : Option KeyPos) (space : Int) :
    findPosLoop buf key (before.length + count) off found space state =
      findPosLoop buf key count (off + span before : Nat) found space state := by
  induction before generalizing off with
  | nil => simp
  | cons record rest ih =>
    obtain ⟨head, tail⟩ := holds
    rw [span_cons] at inside
    obtain ⟨cmp, sign, turn⟩ := findPosLoop_succ state key head (by omega) (rest.length + count) found space
    have negative : cmp < 0 := sign.neg.mpr (lower record List.mem_cons_self)
    rw [List.length_cons, show rest.length + 1 + count = rest.length + count + 1 by omega, turn,
      if_neg (by omega), if_pos negative, ih tail (by omega) fun other member =>
        lower other (List.mem_cons_of_mem _ member), span_cons, Nat.add_assoc]

/-- A record once found stays found: the keys after it are greater. -/
private theorem findPosLoop_upper (state : σ) (key : Buf) {last : Record} {place : Nat} (lastLaid : HasRecord buf.byte place last)
    (lastInside : place + recordLen last ≤ buf.len) (holds : HasRecords buf.byte off after)
    (inside : off + span after ≤ buf.len) (upper : ∀ other ∈ after, key.toList < other.key ∧ last.key < other.key)
    (space : Int) : ∃ next space',
      findPosLoop buf key after.length off (some ⟨place, place + 12, last.key.length⟩) space state =
        (.ok (.passed next (some ⟨place, place + 12, last.key.length⟩) space'), state) := by
  induction after generalizing off space with
  | nil => exact ⟨_, _, rfl⟩
  | cons record rest ih =>
    obtain ⟨head, tail⟩ := holds
    rw [span_cons] at inside
    obtain ⟨above, later⟩ := upper record List.mem_cons_self
    obtain ⟨cmp, sign, turn⟩ := findPosLoop_succ state key head (by omega) rest.length
      (some ⟨place, place + 12, last.key.length⟩) space
    have positive : 0 < cmp := sign.pos.mpr above
    unfold recordLen at lastInside
    obtain ⟨order, compared, sign'⟩ := cmpKey_run state lastLaid.key (by omega) head.key
      (by simp only [recordLen] at inside; omega)
      (show (place : Int) + 12 = (place + 12 : Nat) ∧ (last.key.length : Int) = last.key.length by omega)
      (show (off : Int) + 12 = (off + 12 : Nat) ∧ (record.key.length : Int) = record.key.length by omega)
    have farther : order < 0 := sign'.neg.mpr later
    have closer : isCloser buf (some ⟨place, place + 12, last.key.length⟩) (off + 12) record.key.length state =
        (.ok false, state) := by
      rw [isCloser, bind_ok compared, pure_run, decide_eq_false (by omega)]
    rw [List.length_cons, turn, if_neg (by omega), if_neg (by omega), bind_ok closer]
    exact ih tail (by omega) (fun other member => upper other (List.mem_cons_of_mem _ member)) _

/-- `_find_pos` stops at the first record that is not below the key. -/
theorem findPos_split (state : σ) (node : HasNode buf id (before ++ record :: after))
    (sorted : (record :: after).Pairwise fun first second => first.key < second.key)
    (lower : ∀ other ∈ before, other.key < key.toList) (upper : key.toList ≤ record.key) :
    findPos buf key state = (.ok (some (16 + span before : Nat), buf), state) := by
  have len := node.len
  have fits := node.fits
  rw [span_append, span_cons] at fits
  obtain ⟨first, here, rest⟩ := hasRecords_split.mp node.laid
  have count : buf.getShort 4 state = (.ok ((before.length + (after.length + 1) : Nat) : Int), state) := by
    rw [Buf.getShort_run buf state (show 4 + 2 ≤ buf.len by omega) (by omega), node.count]
    simp
  have passed := findPosLoop_lower state first (by omega) lower (after.length + 1) none (nodeLen - nodeHeadLen)
  obtain ⟨cmp, sign, turn⟩ := findPosLoop_succ state key here (by omega) after.length none
    (nodeLen - nodeHeadLen)
  have loop : ∃ scan, findPosLoop buf key (before.length + (after.length + 1)) nodeHeadLen none
      (nodeLen - nodeHeadLen) state = (.ok scan, state) ∧ (scan = .found (16 + span before : Nat) ∨
        ∃ next found space, scan = .passed next (some found) space ∧ found.info = (16 + span before : Nat)) := by
    rcases upper.eq_or_lt with same | above
    · have zero : cmp = 0 := sign.zero.mpr same.symm
      exact ⟨_, passed.trans (turn.trans (by rw [if_pos zero, pure_run])), .inl rfl⟩
    · have positive : 0 < cmp := sign.pos.mpr above
      have greater := (List.pairwise_cons.mp sorted).1
      obtain ⟨next, space, ended⟩ := findPosLoop_upper state key here (by omega) rest (by omega)
        (fun other member => ⟨above.trans (greater other member), greater other member⟩)
        (nodeLen - nodeHeadLen - 8 - record.key.length)
      rw [if_neg (by omega), if_neg (by omega)] at turn
      exact ⟨_, (passed.trans turn).trans ended, .inr ⟨next, _, space, rfl, rfl⟩⟩
  obtain ⟨scan, ran, ended⟩ := loop
  rw [findPos, bind_ok count, Int.toNat_natCast, bind_ok ran]
  rcases ended with rfl | ⟨next, found, space, rfl, info⟩
  · rfl
  · dsimp only
    rw [info]
    rfl

/-- The record `_find_pos` lays out behind the last one. -/
def blank : Record := ⟨[], 0, none⟩

private theorem blank_laid (mem : Mem) (off : Nat) :
    HasRecord ((((mem.putInt (off + 4) 0).putShort (off + 10) 0).putInt off 0).putShort (off + 8) 0) off blank := by
  constructor
  · rw [(Mem.agree_putShort (by omega)).int_eq]
    exact Mem.int_putInt_of_range (by omega) (by omega)
  · rw [(Mem.agree_putShort (by omega)).int_eq, (Mem.agree_putInt (by omega)).int_eq,
      (Mem.agree_putShort (by omega)).int_eq]
    exact Mem.int_putInt_of_range (by omega) (by omega)
  · exact Mem.short_putShort_of_range (by omega) (by omega)
  · rw [(Mem.agree_putShort (by omega)).short_eq, (Mem.agree_putInt (by omega)).short_eq]
    exact Mem.short_putShort_of_range (by omega) (by omega)
  · rfl

/-- Where all records are below the key, `_find_pos` goes by the length of the key alone. -/
private theorem findPos_lower (state : σ) (node : HasNode buf id records)
    (lower : ∀ other ∈ records, other.key < key.toList) : ∃ count, buf.getShort 4 state = (.ok count, state) ∧
      findPosLoop buf key count.toNat nodeHeadLen none (nodeLen - nodeHeadLen) state =
        (.ok (.passed (16 + span records : Nat) none 8136), state) := by
  have len := node.len
  have fits := node.fits
  refine ⟨records.length, ?_, ?_⟩
  · rw [Buf.getShort_run buf state (show 4 + 2 ≤ buf.len by omega) (by omega), node.count]
  · have passed := findPosLoop_lower state node.laid (by omega) lower 0 none (nodeLen - nodeHeadLen)
    exact passed

/-- For a key that a node has room for it goes on behind the last record. -/
private theorem findPos_behind (state : σ) (node : HasNode buf id records)
    (lower : ∀ other ∈ records, other.key < key.toList) (short : key.len ≤ 8124) :
    findPos buf key state = (do
      let node ← buf.setInt ((16 + span records : Nat) + 4) 0
      let node ← node.setShort ((16 + span records : Nat) + 10) 0
      let node ← node.setInt (16 + span records : Nat) 0
      let node ← node.setShort ((16 + span records : Nat) + 8) 0
      return (some ((16 + span records : Nat) : Int), node) : Exec σ (Option Int × Buf)) state := by
  obtain ⟨count, read, loop⟩ := findPos_lower state node lower
  have test : (8136 : Int) % 2 ^ 64 ≥ (kInfoLen + key.len) % 2 ^ 64 := by
    simp only [kInfoLen]
    omega
  rw [findPos, bind_ok read, bind_ok loop]
  dsimp only
  rw [if_pos test]

/-- Behind the last record `_find_pos` clears the twelve bytes of a new one. -/
theorem findPos_past (state : σ) (node : HasNode buf id records)
    (lower : ∀ other ∈ records, other.key < key.toList) (short : key.len ≤ 8124)
    (room : 16 + span records + 12 ≤ 8152) : ∃ mem,
      findPos buf key state = (.ok (some (16 + span records : Nat), { buf with byte := mem }), state) ∧
      HasRecord mem (16 + span records) blank ∧ buf.byte.Agree mem 0 (16 + span records) := by
  have len := node.len
  refine ⟨_, ?_, blank_laid buf.byte (16 + span records), ?_⟩
  · rw [findPos_behind state node lower short,
      bind_ok (Buf.setInt_run buf.len state 0 (show 16 + span records + 4 + 4 ≤ buf.len by omega) (by omega)),
      bind_ok (Buf.setShort_run buf.len state 0 (show 16 + span records + 10 + 2 ≤ buf.len by omega) (by omega)),
      bind_ok (Buf.setInt_run buf.len state 0 (show 16 + span records + 4 ≤ buf.len by omega) rfl),
      bind_ok (Buf.setShort_run buf.len state 0 (show 16 + span records + 8 + 2 ≤ buf.len by omega) (by omega))]
    rfl
  · refine (((Mem.agree_putShort ?_).trans (Mem.agree_putInt ?_)).trans ((Mem.agree_putShort ?_).trans
      (Mem.agree_putInt ?_))).symm
    all_goals omega

/-- With fewer bytes behind the last record `_find_pos` writes past the end of the node. -/
theorem findPos_fault (state : σ) (node : HasNode buf id records)
    (lower : ∀ other ∈ records, other.key < key.toList) (short : key.len ≤ 8124)
    (full : 8152 < 16 + span records + 12) : findPos buf key state = (.error .fault, state) := by
  have len := node.len
  rw [findPos_behind state node lower short]
  by_cases room : 16 + span records + 8 ≤ 8152
  · rw [bind_ok (Buf.setInt_run buf.len state 0 (show 16 + span records + 4 + 4 ≤ buf.len by omega) (by omega))]
    apply bind_error
    rw [Buf.setShort, if_neg (by simp only; omega)]
    rfl
  · apply bind_error
    rw [Buf.setInt, if_neg (by omega)]
    rfl

/-- A key too long for any node is found nowhere. -/
theorem findPos_none (state : σ) (node : HasNode buf id records)
    (lower : ∀ other ∈ records, other.key < key.toList) (long : 8124 < key.len) (small : key.len < 2 ^ 32) :
    findPos buf key state = (.ok (none, buf), state) := by
  obtain ⟨count, read, loop⟩ := findPos_lower state node lower
  have test : ¬ (8136 : Int) % 2 ^ 64 ≥ (kInfoLen + key.len) % 2 ^ 64 := by
    simp only [kInfoLen]
    omega
  rw [findPos, bind_ok read, bind_ok loop]
  dsimp only
  rw [if_neg test]
  rfl

end KvIndex

end Pingkv
