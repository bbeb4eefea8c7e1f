import Pingkv.Lib.Transition
import Pingkv.Server.Send

/-! Repeated calls of `_do_send` for one work, until it is removed. -/

namespace Pingkv

/-- What one call meets: the memory behind the head of the work, and how many
bytes `send` accepts, if it does not report `EAGAIN`. -/
structure Turn where
  behind : Mem
  accepted : Option Nat

def Turn.outcome (turn : Turn) : SendOutcome :=
  match turn.accepted with
  | none => .again
  | some count => .accepted count

/-- A work that is being sent, and the bytes sent so far. -/
structure Sending where
  work : KvWork
  wire : List UInt8
  freed : Bool

namespace Sending

def start (work : KvWork) : Sending := { work := work, wire := [], freed := false }

/-- One call for a work that has not been removed. -/
def step (turn : Turn) (sending : Sending) : Option Sending :=
  if sending.freed then none
  else (sending.work.doSend turn.behind turn.outcome).map fun sent =>
    { work := sent.work, wire := sending.wire ++ sent.bytes, freed := sent.done }

/-- A call returns 0, sends what comes next, at least a byte where `send`
accepts any, and removes the work exactly with its last byte. -/
def Sends (result : KvWork) (turn : Turn) (sending : Sending) : Prop :=
  sending.freed = false → ∃ after, step turn sending = some after ∧ after.wire <+: result.bytes ∧
    (after.freed = true ↔ after.wire = result.bytes) ∧
      (turn.accepted.isSome → sending.wire.length < after.wire.length)

/-- No bytes are accepted of a head that was sent in part, or those that come next. -/
def Straight (turn : Turn) (sending : Sending) : Prop :=
  sending.freed = false → sending.work.HeadRight turn.behind turn.outcome

instance (turn : Turn) (sending : Sending) : Decidable (Straight turn sending) := inferInstanceAs (Decidable (_ → _))

end Sending

namespace KvWork

/-- A field that has bytes is there. -/
def HasFields (work : KvWork) : Prop :=
  (work.head.field1Len ≠ 0 → work.field1.isSome) ∧ (work.head.field2Len ≠ 0 → work.field2.isSome)

instance (work : KvWork) : Decidable work.HasFields := inferInstanceAs (Decidable (_ ∧ _))

variable {result work : KvWork} {behind : Mem}

theorem fieldBytes_length {field : Option Buf} {len offset : UInt16} (there : len ≠ 0 → field.isSome)
    (inside : offset ≤ len) : (fieldBytes field offset.toNat).length = offset.toNat := by
  cases field with
  | none =>
    have empty : len = 0 := by
      by_contra some_
      exact absurd (there some_) Bool.false_ne_true
    rw [empty] at inside
    have zero := UInt16.le_iff_toNat_le.mp inside
    exact (Nat.le_zero.mp zero).symm
  | some buf => exact Mem.slice_length ..

/-- The offsets count the bytes that were sent. -/
theorem Progress.sent_length (progress : Progress result work) (fields : work.HasFields) :
    work.sent.length = work.headOffset.toNat + (work.field1Offset.toNat + work.field2Offset.toNat) := by
  rw [sent, List.length_append, List.length_append, fieldBytes_length fields.1 progress.field1Part,
    fieldBytes_length fields.2 progress.field2Part, List.length_take, KvWorkHead.bytes_length,
    Nat.min_eq_left progress.headPart]

/-- A result has been sent to its end exactly where every offset has reached its length. -/
theorem Progress.complete_iff (progress : Progress result work) (fields : work.HasFields) :
    work.Complete ↔ work.sent = result.bytes := by
  constructor
  · exact progress.complete_sent
  · intro all
    have total : result.bytes.length =
        headSize + (work.head.field1Len.toNat + work.head.field2Len.toNat) := by
      rw [bytes, List.length_append, List.length_append, ← progress.field1, ← progress.field2, ← progress.head,
        fieldBytes_length fields.1 UInt16.le_rfl, fieldBytes_length fields.2 UInt16.le_rfl, KvWorkHead.bytes_length]
    have count := progress.sent_length fields
    have most := progress.headPart
    have most1 := UInt16.le_iff_toNat_le.mp progress.field1Part
    have most2 := UInt16.le_iff_toNat_le.mp progress.field2Part
    rw [all] at count
    refine ⟨?_, UInt16.toNat_inj.mp ?_, UInt16.toNat_inj.mp ?_⟩ <;> omega

theorem Progress.hasFields (progress : Progress result work) (fields : result.HasFields) : work.HasFields := by
  rw [HasFields, progress.head, progress.field1, progress.field2]
  exact fields

/-- A part of which something is left can be sent. -/
theorem sendPart_turn {text : List UInt8} (left : 0 < text.length) (unfinished : ¬ work.Complete) (turn : Turn)
    (advance : UInt16 → KvWork) : ∃ after, sendPart turn.outcome (some text) work advance = some after ∧
      (after.done = true ↔ after.work.Complete) ∧ (turn.accepted.isSome → 0 < after.bytes.length) := by
  unfold Turn.outcome
  cases turn.accepted with
  | none =>
    exact ⟨_, rfl, ⟨fun done => (nomatch done), fun complete => absurd complete unfinished⟩, fun some_ => nomatch some_⟩
  | some count =>
    refine ⟨_, rfl, ⟨of_decide_eq_true, decide_eq_true⟩, fun _ => ?_⟩
    rw [List.length_take]
    omega

theorem fieldLeft_turn {field : Option Buf} {offset len : UInt16} (there : len ≠ 0 → field.isSome)
    (unfinished : offset < len) : ∃ text, fieldLeft field offset len = some text ∧ 0 < text.length := by
  have room := UInt16.lt_iff_toNat_lt.mp unfinished
  obtain ⟨buf, rfl⟩ := Option.isSome_iff_exists.mp (there (by rintro rfl; exact absurd room (Nat.not_lt_zero _)))
  refine ⟨_, rfl, ?_⟩
  rw [Mem.slice_length]
  omega

/-- A call for a work that is not complete returns 0. -/
theorem Progress.doSend_turn (progress : Progress result work) (fields : work.HasFields)
    (unfinished : ¬ work.Complete) (turn : Turn) : ∃ after, work.doSend turn.behind turn.outcome = some after ∧
      (after.done = true ↔ after.work.Complete) ∧ (turn.accepted.isSome → 0 < after.bytes.length) := by
  unfold KvWork.doSend
  split
  · apply sendPart_turn _ unfinished
    rw [headLeft_length]
    omega
  · rename_i headed
    split
    · rename_i more
      obtain ⟨text, left, some_⟩ := fieldLeft_turn fields.1 more
      rw [left]
      exact sendPart_turn some_ unfinished turn _
    · rename_i all1
      split
      · rename_i more
        obtain ⟨text, left, some_⟩ := fieldLeft_turn fields.2 more
        rw [left]
        exact sendPart_turn some_ unfinished turn _
      · rename_i all2
        exact absurd ⟨Nat.le_antisymm progress.headPart (Nat.not_lt.mp headed),
          UInt16.le_antisymm progress.field1Part (UInt16.not_lt.mp all1),
          UInt16.le_antisymm progress.field2Part (UInt16.not_lt.mp all2)⟩ unfinished

/-- A part of a text that starts with another text of its length is a part of that. -/
theorem take_of_prefix {text part rest : List UInt8} {len : Nat} (same : text.length = part.length)
    (starts : text.take len <+: part ++ rest) : text.take len = part.take len := by
  have whole := List.prefix_iff_eq_take.mp starts
  rw [List.length_take, same, List.take_append_of_le_length (Nat.min_le_right ..)] at whole
  rw [whole, ← List.take_eq_take_min]

/-- If a call keeps what was sent the start of the result, the bytes it sends of
a head under way are the right ones. -/
theorem Progress.headRight (progress : Progress result work) {turn : Turn} {after : Sent}
    (ran : work.doSend turn.behind turn.outcome = some after) (starts : work.sent ++ after.bytes <+: result.bytes) :
    work.HeadRight turn.behind turn.outcome := by
  intro count accepted underWay
  have headless := Nat.ne_of_lt underWay.2
  have room : 0 < headSize - work.headOffset.toNat := Nat.sub_pos_of_lt underWay.2
  have rest : (work.head.bytes.drop work.headOffset.toNat).length = headSize - work.headOffset.toNat :=
    List.length_drop ..
  rw [KvWork.doSend, if_pos underWay.2, accepted] at ran
  obtain rfl := Option.some.inj ran
  have sent : work.sent = work.head.bytes.take work.headOffset.toNat := by
    rw [KvWork.sent, progress.field1_unsent headless, progress.field2_unsent (.inl headless), fieldBytes_zero,
      fieldBytes_zero, List.append_nil, List.append_nil]
  have text : result.bytes = work.head.bytes.take work.headOffset.toNat ++
      (work.head.bytes.drop work.headOffset.toNat ++ (fieldBytes result.field1 result.head.field1Len.toNat ++
        fieldBytes result.field2 result.head.field2Len.toNat)) := by
    rw [← List.append_assoc, List.take_append_drop, bytes, progress.head]
  rw [sent, text, List.prefix_append_right_inj] at starts
  have same := take_of_prefix ((headLeft_length work turn.behind).trans rest.symm) starts
  rwa [headLeft_length, take_accepted _ room (headLeft_length work turn.behind), take_accepted _ room rest] at same

end KvWork

namespace Sending

variable {result work : KvWork} {turn : Turn} {sending after : Sending}

/-- What each call keeps: the bytes sent are those the offsets count, and the
work is there while some are left. -/
structure Going (result : KvWork) (sending : Sending) : Prop where
  progress : KvWork.Progress result sending.work
  sent : sending.wire = sending.work.sent
  unfinished : sending.freed = false → ¬ sending.work.Complete

theorem start_going (unsent : work.Unsent) : Going work (start work) := by
  obtain ⟨head, field1, field2⟩ := unsent
  refine ⟨⟨rfl, rfl, rfl, ?_, ?_, ?_, ?_, ?_⟩, ?_, ?_⟩
  · simp only [start, head]
    exact Nat.zero_le _
  · simp only [start, field1, UInt16.zero_le]
  · simp only [start, field2, UInt16.zero_le]
  · exact fun started => absurd field1 started
  · exact fun started => absurd field2 started
  · simp only [start, KvWork.sent, head, field1, field2, KvWork.fieldBytes_zero, List.append_nil]
    rfl
  · intro _ complete
    have all := complete.1
    simp only [start, head] at all
    exact absurd all (by decide)

/-- What a call for a work that has not been removed comes to. -/
theorem Going.call (fields : result.HasFields) (going : Going result sending) (here : sending.freed = false)
    (turn : Turn) : ∃ sent, sending.work.doSend turn.behind turn.outcome = some sent ∧
      step turn sending = some ⟨sent.work, sending.wire ++ sent.bytes, sent.done⟩ ∧
        (sent.done = true ↔ sent.work.Complete) ∧ (turn.accepted.isSome → 0 < sent.bytes.length) := by
  obtain ⟨sent, ran, done, some_⟩ :=
    going.progress.doSend_turn (going.progress.hasFields fields) (going.unfinished here) turn
  refine ⟨sent, ran, ?_, done, some_⟩
  rw [step, here, ran]
  rfl

theorem Going.advance (going : Going result sending) {sent : Sent} (done : sent.done = true ↔ sent.work.Complete)
    (advanced : KvWork.Advanced result sending.work sent) :
    Going result ⟨sent.work, sending.wire ++ sent.bytes, sent.done⟩ := by
  refine ⟨advanced.progress, ?_, ?_⟩
  · exact (congrArg (· ++ sent.bytes) going.sent).trans advanced.sent.symm
  · intro unfinished complete
    simp only [done.mpr complete, Bool.true_eq_false] at unfinished

theorem step_going (fields : result.HasFields) (going : Going result sending) (straight : Straight turn sending)
    (stepped : step turn sending = some after) : Going result after := by
  cases here : sending.freed with
  | true => simp [step, here] at stepped
  | false =>
    obtain ⟨sent, ran, next, done, _⟩ := going.call fields here turn
    obtain rfl := Option.some.inj (next.symm.trans stepped)
    exact going.advance done (going.progress.doSend (straight here) ran)

theorem straight_iff (fields : result.HasFields) (going : Going result sending) :
    Straight turn sending ↔ Sends result turn sending := by
  constructor
  · intro straight here
    obtain ⟨sent, ran, next, done, some_⟩ := going.call fields here turn
    have advanced := going.progress.doSend (straight here) ran
    have later := going.advance done advanced
    refine ⟨_, next, ?_, ?_, ?_⟩
    · rw [later.sent]
      exact later.progress.sent_prefix
    · rw [later.sent, ← later.progress.complete_iff (later.progress.hasFields fields)]
      exact done
    · intro accepted
      simp only [List.length_append]
      exact Nat.lt_add_of_pos_right (some_ accepted)
  · intro sends here
    obtain ⟨after, stepped, starts, _⟩ := sends here
    obtain ⟨sent, ran, next, _⟩ := going.call fields here turn
    obtain rfl := Option.some.inj (next.symm.trans stepped)
    rw [going.sent] at starts
    exact going.progress.headRight ran starts

/-- Every call for a work sends what comes next, to the last byte, exactly where
none sends wrong bytes of a head that was sent in part. -/
theorem straight_iff_sends (unsent : work.Unsent) (fields : work.HasFields) (turns : List Turn) :
    Transition.Throughout step Straight turns (start work) ↔
      Transition.Throughout step (Sends work) turns (start work) :=
  Transition.throughout_congr (fun _ _ _ going straight stepped => step_going fields going straight stepped)
    (fun _ _ going => straight_iff fields going) (start_going unsent)

/-- A value of two bytes for a get, with its head. -/
def twoBytes : KvWork :=
  { newKvWork with head := ⟨WorkFlag.suc, 2, 0⟩, field1 := some (Buf.ofList [7, 8]) }

/-- The head in one piece, then the value byte for byte. -/
def byteForByte : List Turn := [⟨fun _ => 0, some 6⟩, ⟨fun _ => 0, none⟩, ⟨fun _ => 0, some 1⟩, ⟨fun _ => 0, some 1⟩]

theorem byteForByte_sends : Transition.Throughout step (Sends twoBytes) byteForByte (start twoBytes) ∧
    ((Transition.run step byteForByte (start twoBytes)).map fun final => (final.wire, final.freed)) =
      some ([0, 32, 2, 0, 0, 0, 7, 8], true) :=
  ⟨(straight_iff_sends (by decide) (by decide) byteForByte).mp (by decide +kernel), by decide +kernel⟩

/-- Two bytes of the head are accepted, then the rest. -/
def headInTwo : List Turn := [⟨fun _ => 0, some 2⟩, ⟨fun _ => 0, some 4⟩]

/-- The second `send` reads 12 bytes behind the start of the head. -/
theorem headInTwo_misses : ¬ Transition.Throughout step (Sends twoBytes) headInTwo (start twoBytes) ∧
    ((Transition.run step headInTwo (start twoBytes)).map fun final => final.wire) = some [0, 32, 0, 0, 0, 0] := by
  constructor
  · intro sends
    obtain ⟨after, stepped, starts, _⟩ := (sends.2 _ rfl).1 rfl
    obtain rfl := Option.some.inj stepped
    exact absurd starts (by decide +kernel)
  · decide +kernel

end Sending

end Pingkv
