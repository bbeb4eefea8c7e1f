import Pingkv.Lib.Exec
import Pingkv.Server.Work

/-! What a worker does with one request: the call it makes on its index and the
result it fills in. -/

namespace Pingkv

open Exec

namespace IndexCall

inductive Kind where
  | get
  | set
  | del
  deriving DecidableEq, Repr

end IndexCall

/-- A call on a `kv_index`: the bytes the worker holds for the key, and for the
value of a set, with the lengths it passes along. -/
structure IndexCall where
  kind : IndexCall.Kind
  key : List UInt8
  keyLen : Int
  value : List UInt8
  valueLen : Int
  deriving DecidableEq, Repr

/-- What a call on an index returns, and the value a get hands out. -/
structure IndexAnswer where
  code : Int
  value : Option Buf

/-- An index in use, with the calls made on it so far; `answer` is how it works. -/
structure IndexRun (σ : Type) where
  answer : IndexCall → σ → IndexAnswer × σ
  index : σ
  calls : List IndexCall

variable {σ : Type}

def IndexRun.call (call : IndexCall) : Exec (IndexRun σ) IndexAnswer := fun run =>
  let (answer, index) := run.answer call run.index
  (.ok answer, { run with index := index, calls := run.calls ++ [call] })

/-- `key_len_t`, a `short`. -/
def keyLen (len : UInt16) : Int := wrap 16 len.toNat

/-- `kv_worker::_make_result`. -/
def makeResult (flag : UInt16) (field1 : Option Buf) (len1 : Int) (field2 : Option Buf) (len2 : Int) : KvWork :=
  { newKvWork with head := ⟨flag, .ofInt len1, .ofInt len2⟩, field1 := field1, field2 := field2 }

/-- A result without fields. -/
def bareResult (flag : UInt16) : KvWork := makeResult flag none 0 none 0

/-- The call of one kind that a request makes. -/
def KvWork.call (req : KvWork) (kind : IndexCall.Kind) : IndexCall where
  kind := kind
  key := fieldBytes req.field1 req.head.field1Len.toNat
  keyLen := keyLen req.head.field1Len
  value := if kind = .set then fieldBytes req.field2 req.head.field2Len.toNat else []
  valueLen := if kind = .set then req.head.field2Len.toNat else 0

/-- One turn of the loop in `kv_worker::work`, from the request taken to the
result put. A request of no known kind leaves no result and ends the program. -/
def operate (req : KvWork) : Exec (IndexRun σ) KvWork := do
  if WorkFlag.Has req.head.flag WorkFlag.get then
    let answer ← IndexRun.call (req.call .get)
    if answer.code < 0 then pure (bareResult WorkFlag.err)
    else pure (makeResult WorkFlag.suc answer.value answer.code none 0)
  else if WorkFlag.Has req.head.flag WorkFlag.set then
    let answer ← IndexRun.call (req.call .set)
    if answer.code = -1 then pure (bareResult WorkFlag.err) else pure (bareResult WorkFlag.suc)
  else if WorkFlag.Has req.head.flag WorkFlag.del then
    let answer ← IndexRun.call (req.call .del)
    if answer.code = -1 then pure (bareResult WorkFlag.err) else pure (bareResult WorkFlag.suc)
  else fault

/-- The kind of a request; its flag may have several, and the first one counts. -/
def kindOf (flag : UInt16) : Option IndexCall.Kind :=
  if WorkFlag.Has flag WorkFlag.get then some .get
  else if WorkFlag.Has flag WorkFlag.set then some .set
  else if WorkFlag.Has flag WorkFlag.del then some .del
  else none

/-- Whether a call succeeded, as the worker sees it. -/
def IndexAnswer.Succeeded (kind : IndexCall.Kind) (answer : IndexAnswer) : Prop :=
  match kind with
  | .get => 0 ≤ answer.code
  | .set | .del => answer.code ≠ -1

instance IndexAnswer.decideSucceeded : (kind : IndexCall.Kind) → (answer : IndexAnswer) →
    Decidable (answer.Succeeded kind)
  | .get, answer => inferInstanceAs (Decidable (0 ≤ answer.code))
  | .set, answer => inferInstanceAs (Decidable (answer.code ≠ -1))
  | .del, answer => inferInstanceAs (Decidable (answer.code ≠ -1))

/-- The result of a call. -/
def resultOf (kind : IndexCall.Kind) (answer : IndexAnswer) : KvWork :=
  if answer.Succeeded kind then
    match kind with
    | .get => makeResult WorkFlag.suc answer.value answer.code none 0
    | .set | .del => bareResult WorkFlag.suc
  else bareResult WorkFlag.err

/-- A worker makes the one call its request stands for. -/
theorem operate_run {req : KvWork} {kind : IndexCall.Kind} (stands : kindOf req.head.flag = some kind)
    (run : IndexRun σ) : operate req run = (.ok (resultOf kind (run.answer (req.call kind) run.index).1),
      { run with index := (run.answer (req.call kind) run.index).2, calls := run.calls ++ [req.call kind] }) := by
  have called : IndexRun.call (req.call kind) run = (.ok (run.answer (req.call kind) run.index).1,
      { run with index := (run.answer (req.call kind) run.index).2, calls := run.calls ++ [req.call kind] }) := rfl
  unfold kindOf at stands
  unfold operate
  split at stands
  · rename_i get
    obtain rfl := Option.some.inj stands
    rw [if_pos get, bind_ok called]
    simp only [resultOf, IndexAnswer.Succeeded, ← Int.not_lt]
    split <;> simp_all
  · rename_i get
    rw [if_neg get]
    split at stands
    · rename_i set
      obtain rfl := Option.some.inj stands
      rw [if_pos set, bind_ok called]
      simp only [resultOf, IndexAnswer.Succeeded]
      split <;> simp_all
    · rename_i set
      rw [if_neg set]
      split at stands
      · rename_i del
        obtain rfl := Option.some.inj stands
        rw [if_pos del, bind_ok called]
        simp only [resultOf, IndexAnswer.Succeeded]
        split <;> simp_all
      · cases stands

/-- The call a message stands for. -/
def Message.call (message : Message) (kind : IndexCall.Kind) : IndexCall where
  kind := kind
  key := message.field1
  keyLen := wrap 16 message.field1.length
  value := if kind = .set then message.field2 else []
  valueLen := if kind = .set then message.field2.length else 0

theorem KvWork.Holds.call {work : KvWork} {message : Message} (holds : work.Holds message)
    (kind : IndexCall.Kind) : work.call kind = message.call kind := by
  have len1 : work.head.field1Len.toNat = message.field1.length := by
    rw [holds.head]
    exact message.head_len .field1
  have len2 : work.head.field2Len.toNat = message.field2.length := by
    rw [holds.head]
    exact message.head_len .field2
  have text1 : fieldBytes work.field1 message.field1.length = message.field1 := holds.fields .field1
  have text2 : fieldBytes work.field2 message.field2.length = message.field2 := holds.fields .field2
  simp only [KvWork.call, Message.call, keyLen, len1, len2, text1, text2]

/-- The bytes of an answered value that are sent back, their number cut to 16 bits. -/
def IndexAnswer.sent (answer : IndexAnswer) : List UInt8 :=
  if answer.code < 0 then [] else fieldBytes answer.value (answer.code % 65536).toNat

theorem resultOf_get (answer : IndexAnswer) :
    fieldBytes (resultOf .get answer).field1 (resultOf .get answer).head.field1Len.toNat = answer.sent := by
  have len : (UInt16.ofInt answer.code).toNat = (answer.code % 65536).toNat := by
    rw [UInt16.ofInt, UInt16.toNat_ofNat']
    omega
  unfold IndexAnswer.sent
  split
  · rename_i failed
    rw [resultOf, if_neg (show ¬ answer.Succeeded .get from Int.not_le_of_gt failed)]
    rfl
  · rename_i found
    rw [resultOf, if_pos (show answer.Succeeded .get from Int.not_lt.mp found)]
    simp only [makeResult, len]

theorem resultOf_get_len {answer : IndexAnswer} (found : 0 ≤ answer.code) :
    (resultOf .get answer).head.field1Len.toNat = (answer.code % 65536).toNat := by
  rw [resultOf, if_pos (show answer.Succeeded .get from found)]
  simp only [makeResult, UInt16.ofInt, UInt16.toNat_ofNat']
  omega

theorem resultOf_flag (kind : IndexCall.Kind) (answer : IndexAnswer) :
    WorkFlag.Has (resultOf kind answer).head.flag WorkFlag.suc ↔ answer.Succeeded kind := by
  unfold resultOf
  split
  · rename_i succeeded
    apply iff_of_true _ succeeded
    cases kind <;> exact (by decide : WorkFlag.Has WorkFlag.suc WorkFlag.suc)
  · rename_i failed
    exact iff_of_false (by decide) failed

end Pingkv
