import Pingkv.Server.Work

/-! `kv_sender::_do_send`: one `send` of what is left of a result. -/

namespace Pingkv

/-- What a `send` comes to: it would block, or fails, or accepts so many bytes; or the peer
has closed the connection, and `SIGPIPE` ends the process, which does not ignore it. -/
inductive SendOutcome where
  | again
  | broken
  | pipe
  | accepted (count : Nat)
  deriving DecidableEq, Repr

/-- What a call of `_do_send` that returns 0 has done; a work that is `done`
has been erased and deleted. -/
structure Sent where
  work : KvWork
  bytes : List UInt8
  done : Bool

namespace KvWork

/-- The object of a work in memory: the head, and what lies behind it. -/
def object (work : KvWork) (behind : Mem) : Mem := fun place => work.head.bytes.getD place (behind place)

/-- The bytes at `(&w->head)+w->head_offset`, where the offset counts whole heads. -/
def headLeft (work : KvWork) (behind : Mem) : List UInt8 :=
  (work.object behind).slice (headSize * work.headOffset.toNat) (headSize - work.headOffset.toNat)

/-- The bytes of a field from an offset on. -/
def fieldLeft (field : Option Buf) (offset len : UInt16) : Option (List UInt8) :=
  field.map fun buf => buf.byte.slice offset.toNat (len.toNat - offset.toNat)

/-- Nothing has been sent. -/
def Unsent (work : KvWork) : Prop := work.headOffset = 0 ∧ work.field1Offset = 0 ∧ work.field2Offset = 0

instance (work : KvWork) : Decidable work.Unsent := inferInstanceAs (Decidable (_ ∧ _ ∧ _))

/-- Every offset has reached its length. -/
def Complete (work : KvWork) : Prop :=
  work.headOffset.toNat = headSize ∧ work.field1Offset = work.head.field1Len ∧
    work.field2Offset = work.head.field2Len

instance (work : KvWork) : Decidable work.Complete := inferInstanceAs (Decidable (_ ∧ _ ∧ _))

/-- A `send` of what is left of one part of a work, and the test behind it.
There is nothing to send behind a null pointer. -/
def sendPart (outcome : SendOutcome) (left : Option (List UInt8)) (work : KvWork) (advance : UInt16 → KvWork) :
    Option Sent :=
  match outcome, left with
  | .again, _ => some ⟨work, [], false⟩
  | .accepted count, some left =>
    let len := max 1 (min count left.length)
    let work := advance (.ofNat len)
    some ⟨work, left.take len, decide work.Complete⟩
  | _, _ => none

/-- `kv_sender::_do_send`; `none` where it returns -1, or does not return. -/
def doSend (work : KvWork) (behind : Mem) (outcome : SendOutcome) : Option Sent :=
  if work.headOffset.toNat < headSize then
    sendPart outcome (some (work.headLeft behind)) work fun len => { work with headOffset := work.headOffset + len }
  else if work.field1Offset < work.head.field1Len then
    sendPart outcome (fieldLeft work.field1 work.field1Offset work.head.field1Len) work fun len =>
      { work with field1Offset := work.field1Offset + len }
  else if work.field2Offset < work.head.field2Len then
    sendPart outcome (fieldLeft work.field2 work.field2Offset work.head.field2Len) work fun len =>
      { work with field2Offset := work.field2Offset + len }
  else some ⟨work, [], decide work.Complete⟩

/-- What has been sent of a work, by its offsets. -/
def sent (work : KvWork) : List UInt8 :=
  work.head.bytes.take work.headOffset.toNat ++ (fieldBytes work.field1 work.field1Offset.toNat ++
    fieldBytes work.field2 work.field2Offset.toNat)

/-- A work that is a result with the first of its bytes sent. -/
structure Progress (result work : KvWork) : Prop where
  head : work.head = result.head
  field1 : work.field1 = result.field1
  field2 : work.field2 = result.field2
  headPart : work.headOffset.toNat ≤ headSize
  field1Part : work.field1Offset ≤ work.head.field1Len
  field2Part : work.field2Offset ≤ work.head.field2Len
  first : work.field1Offset ≠ 0 → work.headOffset.toNat = headSize
  second : work.field2Offset ≠ 0 → work.headOffset.toNat = headSize ∧ work.field1Offset = work.head.field1Len

/-- The head has been sent in part. -/
def HeadUnderWay (work : KvWork) : Prop := 0 < work.headOffset.toNat ∧ work.headOffset.toNat < headSize

instance (work : KvWork) : Decidable work.HeadUnderWay := inferInstanceAs (Decidable (_ ∧ _))

/-- What a `send` accepts of a head that was sent in part is what comes next of it. -/
def HeadRight (work : KvWork) (behind : Mem) (outcome : SendOutcome) : Prop :=
  ∀ count, outcome = .accepted count → work.HeadUnderWay →
    (work.headLeft behind).take (max 1 count) = (work.head.bytes.drop work.headOffset.toNat).take (max 1 count)

instance (work : KvWork) (behind : Mem) : (outcome : SendOutcome) → Decidable (work.HeadRight behind outcome)
  | .again => isTrue fun _ accepted => nomatch accepted
  | .broken => isTrue fun _ accepted => nomatch accepted
  | .pipe => isTrue fun _ accepted => nomatch accepted
  | .accepted count => decidable_of_iff (work.HeadUnderWay → (work.headLeft behind).take (max 1 count) =
      (work.head.bytes.drop work.headOffset.toNat).take (max 1 count))
    ⟨fun right _ same => SendOutcome.accepted.inj same ▸ right, fun right => right count rfl⟩

variable {result work : KvWork} {behind : Mem} {outcome : SendOutcome} {after : Sent}

theorem Progress.complete_sent (progress : Progress result work) (complete : work.Complete) : work.sent = result.bytes := by
  rw [sent, bytes, complete.1, complete.2.1, complete.2.2, ← progress.head, ← progress.field1, ← progress.field2,
    List.take_of_length_le (Nat.le_of_eq work.head.bytes_length)]

theorem Progress.field1_unsent (progress : Progress result work) (headless : work.headOffset.toNat ≠ headSize) :
    work.field1Offset = 0 := by
  by_contra started
  exact headless (progress.first started)

theorem Progress.field2_unsent (progress : Progress result work)
    (unfinished : work.headOffset.toNat ≠ headSize ∨ work.field1Offset ≠ work.head.field1Len) :
    work.field2Offset = 0 := by
  by_contra started
  obtain ⟨headed, whole⟩ := progress.second started
  exact unfinished.elim (fun headless => headless headed) fun short => short whole

theorem fieldBytes_zero (field : Option Buf) : fieldBytes field (0 : UInt16).toNat = [] := by cases field <;> rfl

/-- The bytes of a field to an offset are the first of it. -/
theorem fieldBytes_starts (field : Option Buf) {offset len : UInt16} (inside : offset ≤ len) :
    fieldBytes field offset.toNat <+: fieldBytes field len.toNat := by
  cases field with
  | none => exact List.prefix_refl _
  | some buf =>
    have bound := UInt16.le_iff_toNat_le.mp inside
    have total : len.toNat = offset.toNat + (len.toNat - offset.toNat) := by omega
    rw [fieldBytes, fieldBytes, total, Mem.slice_append]
    exact List.prefix_append ..

/-- What has been sent is the start of the result. -/
theorem Progress.sent_prefix (progress : Progress result work) : work.sent <+: result.bytes := by
  have text : result.bytes = work.head.bytes ++ (fieldBytes work.field1 work.head.field1Len.toNat ++
      fieldBytes work.field2 work.head.field2Len.toNat) := by
    rw [bytes, progress.head, progress.field1, progress.field2]
  rw [sent, text]
  by_cases headed : work.headOffset.toNat = headSize
  · rw [headed, List.take_of_length_le (Nat.le_of_eq work.head.bytes_length), List.prefix_append_right_inj]
    by_cases whole : work.field1Offset = work.head.field1Len
    · rw [whole, List.prefix_append_right_inj]
      exact fieldBytes_starts work.field2 progress.field2Part
    · rw [progress.field2_unsent (.inr whole), fieldBytes_zero, List.append_nil]
      exact (fieldBytes_starts work.field1 progress.field1Part).trans (List.prefix_append ..)
  · rw [progress.field1_unsent headed, progress.field2_unsent (.inl headed), fieldBytes_zero, fieldBytes_zero,
      List.append_nil, List.append_nil]
    exact (List.take_prefix ..).trans (List.prefix_append ..)

theorem offset_add {offset : UInt16} {len bound : Nat} (inside : offset.toNat + len ≤ bound) (short : bound < 65536) :
    (offset + .ofNat len).toNat = offset.toNat + len := by
  rw [UInt16.toNat_add, UInt16.toNat_ofNat', Nat.mod_eq_of_lt (show len < 2 ^ 16 by omega),
    Nat.mod_eq_of_lt (by omega)]

/-- A `send` of one part either would block or sends some of it. -/
theorem sendPart_cases {left : Option (List UInt8)} {advance : UInt16 → KvWork}
    (ran : sendPart outcome left work advance = some after) :
    (outcome = .again ∧ after = ⟨work, [], false⟩) ∨
      ∃ text len count, left = some text ∧ outcome = .accepted count ∧ len = max 1 (min count text.length) ∧
        after = ⟨advance (.ofNat len), text.take len, decide (advance (.ofNat len)).Complete⟩ := by
  unfold sendPart at ran
  split at ran
  · exact .inl ⟨rfl, (Option.some.inj ran).symm⟩
  · rename_i count text
    exact .inr ⟨text, max 1 (min count text.length), count, rfl, rfl, rfl, (Option.some.inj ran).symm⟩
  · cases ran

theorem headLeft_length (work : KvWork) (behind : Mem) :
    (work.headLeft behind).length = headSize - work.headOffset.toNat := Mem.slice_length ..

/-- Cutting a number of accepted bytes to what is left changes nothing. -/
theorem take_accepted (text : List UInt8) {left count : Nat} (some_ : 0 < left) (length : text.length = left) :
    text.take (max 1 (min count left)) = text.take (max 1 count) := by
  have same : max 1 (min count left) = min (max 1 count) left := by omega
  rw [same, ← length, List.take_eq_take_min (i := max 1 count)]

/-- From its start the pointer into the head is right. -/
theorem HeadRight.next (right : work.HeadRight behind outcome) {count : Nat} (accepted : outcome = .accepted count)
    (unfinished : work.headOffset.toNat < headSize) :
    (work.headLeft behind).take (max 1 count) =
      (work.head.bytes.drop work.headOffset.toNat).take (max 1 count) := by
  by_cases start : work.headOffset.toNat = 0
  · rw [headLeft, start, List.drop_zero]
    rfl
  · exact right count accepted ⟨Nat.pos_of_ne_zero start, unfinished⟩

/-- Sending some of what is left of a field brings its offset on by as much. -/
theorem fieldLeft_advance {field : Option Buf} {offset len : UInt16} {text : List UInt8} {count : Nat}
    (left : fieldLeft field offset len = some text) (unfinished : offset < len) (most : count ≤ max 1 text.length) :
    offset + .ofNat count ≤ len ∧
      fieldBytes field (offset + .ofNat count).toNat = fieldBytes field offset.toNat ++ text.take count := by
  obtain ⟨buf, rfl, rfl⟩ := Option.map_eq_some_iff.mp left
  have room := UInt16.lt_iff_toNat_lt.mp unfinished
  rw [Mem.slice_length] at most
  have moved : (offset + .ofNat count).toNat = offset.toNat + count :=
    offset_add (show _ ≤ len.toNat by omega) len.toNat_lt
  have total : len.toNat - offset.toNat = count + (len.toNat - offset.toNat - count) := by omega
  constructor
  · rw [UInt16.le_iff_toNat_le, moved]
    omega
  · rw [moved, fieldBytes, fieldBytes, total, Mem.slice_append, Mem.slice_append, Nat.zero_add,
      List.take_left' (Mem.slice_length ..)]

/-- What a `_do_send` that returns 0 has done for a result. -/
structure Advanced (result work : KvWork) (after : Sent) : Prop where
  progress : Progress result after.work
  sent : after.work.sent = work.sent ++ after.bytes
  complete : after.done = true → after.work.Complete

/-- A `send` that would block leaves a work as it is. -/
theorem Progress.blocked (progress : Progress result work) : Advanced result work ⟨work, [], false⟩ :=
  ⟨progress, (List.append_nil _).symm, fun done => nomatch done⟩

theorem Progress.sendHead (progress : Progress result work) (unfinished : work.headOffset.toNat < headSize)
    (right : work.HeadRight behind outcome)
    (ran : sendPart outcome (some (work.headLeft behind)) work
      (fun len => { work with headOffset := work.headOffset + len }) = some after) : Advanced result work after := by
  have headless := Nat.ne_of_lt unfinished
  have unsent1 := progress.field1_unsent headless
  have unsent2 := progress.field2_unsent (.inl headless)
  rcases sendPart_cases ran with ⟨_, rfl⟩ | ⟨text, len, count, left, accepted, some_, rfl⟩
  · exact progress.blocked
  · obtain rfl := Option.some.inj left
    have rest : (work.head.bytes.drop work.headOffset.toNat).length = headSize - work.headOffset.toNat :=
      List.length_drop ..
    have room : 0 < headSize - work.headOffset.toNat := Nat.sub_pos_of_lt unfinished
    have next : (work.headLeft behind).take len = (work.head.bytes.drop work.headOffset.toNat).take len := by
      rw [some_, headLeft_length, take_accepted _ room (headLeft_length work behind), take_accepted _ room rest]
      exact right.next accepted unfinished
    have few : work.headOffset.toNat + len ≤ headSize := by
      rw [headLeft_length] at some_
      omega
    have offset := offset_add few (by decide)
    constructor
    · exact ⟨progress.head, progress.field1, progress.field2, Nat.le_trans (Nat.le_of_eq offset) few,
        progress.field1Part, progress.field2Part, fun started => absurd unsent1 started,
        fun started => absurd unsent2 started⟩
    · simp only [KvWork.sent, offset, next, unsent1, unsent2, fieldBytes_zero, List.append_nil, List.take_add]
    · exact of_decide_eq_true

theorem Progress.sendField1 (progress : Progress result work) (headed : work.headOffset.toNat = headSize)
    (unfinished : work.field1Offset < work.head.field1Len)
    (ran : sendPart outcome (fieldLeft work.field1 work.field1Offset work.head.field1Len) work
      (fun len => { work with field1Offset := work.field1Offset + len }) = some after) : Advanced result work after := by
  have short : work.field1Offset ≠ work.head.field1Len := UInt16.ne_of_lt unfinished
  have unsent2 := progress.field2_unsent (.inr short)
  rcases sendPart_cases ran with ⟨_, rfl⟩ | ⟨text, len, count, left, _, some_, rfl⟩
  · exact progress.blocked
  · have most : len ≤ max 1 text.length := by omega
    obtain ⟨inside, appended⟩ := fieldLeft_advance left unfinished most
    constructor
    · exact ⟨progress.head, progress.field1, progress.field2, progress.headPart, inside, progress.field2Part,
        fun _ => headed, fun started => absurd unsent2 started⟩
    · simp only [KvWork.sent, appended, unsent2, fieldBytes_zero, List.append_nil, List.append_assoc]
    · exact of_decide_eq_true

theorem Progress.sendField2 (progress : Progress result work) (headed : work.headOffset.toNat = headSize)
    (whole1 : work.field1Offset = work.head.field1Len) (unfinished : work.field2Offset < work.head.field2Len)
    (ran : sendPart outcome (fieldLeft work.field2 work.field2Offset work.head.field2Len) work
      (fun len => { work with field2Offset := work.field2Offset + len }) = some after) : Advanced result work after := by
  rcases sendPart_cases ran with ⟨_, rfl⟩ | ⟨text, len, count, left, _, some_, rfl⟩
  · exact progress.blocked
  · have most : len ≤ max 1 text.length := by omega
    obtain ⟨inside, appended⟩ := fieldLeft_advance left unfinished most
    constructor
    · exact ⟨progress.head, progress.field1, progress.field2, progress.headPart, progress.field1Part, inside,
        progress.first, fun _ => ⟨headed, whole1⟩⟩
    · simp only [KvWork.sent, appended, List.append_assoc]
    · exact of_decide_eq_true

/-- A `_do_send` that returns 0 sends what comes next, if it does so where it
sends of a head that was sent in part. -/
theorem Progress.doSend (progress : Progress result work) (right : work.HeadRight behind outcome)
    (ran : work.doSend behind outcome = some after) : Advanced result work after := by
  unfold KvWork.doSend at ran
  split at ran
  · rename_i unfinished
    exact progress.sendHead unfinished right ran
  · rename_i finished
    have headed : work.headOffset.toNat = headSize := Nat.le_antisymm progress.headPart (Nat.not_lt.mp finished)
    split at ran
    · rename_i unfinished
      exact progress.sendField1 headed unfinished ran
    · rename_i sent1
      have whole1 : work.field1Offset = work.head.field1Len :=
        UInt16.le_antisymm progress.field1Part (UInt16.not_lt.mp sent1)
      split at ran
      · rename_i unfinished
        exact progress.sendField2 headed whole1 unfinished ran
      · obtain rfl := Option.some.inj ran
        exact ⟨progress, (List.append_nil _).symm, of_decide_eq_true⟩

end KvWork

end Pingkv
