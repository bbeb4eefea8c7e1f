import Pingkv.DataFile.Fit

/-! What `read_row` returns once every block can be mapped: it depends on the disk,
and not on the blocks that are mapped or could not be. -/

namespace Pingkv

namespace DataFile

open Exec

variable {file : DataFile} {blockId : Int}

/-- A pointer in the cache is null or what `mmap` returns for the block. -/
def Tame (file : DataFile) : Prop := ∀ entry ∈ file.cache, entry.2 = .null ∨ entry.2 = mapped entry.1 ∧ 0 ≤ mapOffset entry.1

/-- Two objects over one disk that can map every block. -/
structure Same (left right : DataFile) : Prop where
  file : left.toFile = right.toFile
  junk : left.junk = right.junk
  tame : left.Tame ∧ right.Tame
  serves : ∀ n, left.ServesMaps n ∧ right.ServesMaps n

theorem Fit.tame (fit : file.Fit) : file.Tame := by
  intro entry member
  refine (fit.cached entry member).imp_right ?_
  rintro ⟨page, _, _, low, rfl⟩
  have number : ((page : Int) + 1 - 1).toNat = page := by omega
  refine ⟨?_, ?_⟩
  · rw [mapped_eq (by simp only; omega) (by simp only; omega), number]
  · rw [mapOffset_eq (by simp only; omega) (by simp only; omega)]
    simp only
    omega

/-- `_read_block` returns the address of the block, whether or not it was mapped before. -/
theorem readBlock_tame (tame : file.Tame) (serves : ∀ n, file.ServesMaps n) (blockId : Int) : ∃ after,
    readBlock blockId file = (.ok (if 0 ≤ mapOffset blockId then mapped blockId else .mapFailed), after) ∧
      after.toFile = file.toFile ∧ after.junk = file.junk ∧ after.Tame ∧ ∀ n, after.ServesMaps n := by
  have ran := readBlock_run file blockId
  have later : ∀ n, (file.called .mmap).ServesMaps n := fun n k below => serves (n + 1) (k + 1) (by omega)
  have served : file.os .mmap 0 = true := serves 1 0 (by omega)
  by_cases missing : (file.cache.lookup blockId).getD .null = .null
  · rw [if_pos missing] at ran
    by_cases upward : 0 ≤ mapOffset blockId
    · rw [if_pos ⟨served, upward⟩] at ran
      rw [if_pos upward]
      refine ⟨_, ran, rfl, rfl, fun entry member => ?_, later⟩
      rcases mem_cachePut member with rfl | old
      · exact .inr ⟨rfl, upward⟩
      · exact tame entry old
    · rw [if_neg fun both => upward both.2] at ran
      rw [if_neg upward]
      refine ⟨_, ran, rfl, rfl, fun entry member => ?_, later⟩
      change entry ∈ looked file.cache blockId at member
      rw [looked] at member
      split at member
      · exact tame entry member
      · rcases mem_cachePut member with rfl | old
        · exact .inl rfl
        · exact tame entry old
  · rw [if_neg missing] at ran
    cases found : file.cache.lookup blockId with
    | none => exact absurd (by rw [found]; rfl) missing
    | some block =>
      rw [found, Option.getD_some] at ran missing
      obtain ⟨same, upward⟩ := (tame _ (mem_of_lookup found)).resolve_left missing
      exact ⟨file, ran.trans (by rw [if_pos upward, ← same]), rfl, rfl, tame, serves⟩

theorem alike_readBlock (blockId : Int) : Alike Same (readBlock blockId) := by
  intro left right same
  obtain ⟨after, ran, file, junk, tame, serves⟩ := readBlock_tame same.tame.1 (fun n => (same.serves n).1) blockId
  obtain ⟨after', ran', file', junk', tame', serves'⟩ := readBlock_tame same.tame.2 (fun n => (same.serves n).2) blockId
  rw [ran, ran']
  exact ⟨rfl, by rw [file, file', same.file], by rw [junk, junk', same.junk], ⟨tame, tame'⟩, fun n => ⟨serves n, serves' n⟩⟩

theorem alike_confined {α : Type} {call : Exec DataFile α} (confined : blocks.Confines call) : Alike Same call := by
  refine confined.alike (fun left right same => ?_) fun contents left right same => ?_
  · have size : left.size = right.size := congrArg File.size same.file
    have block : left.block = right.block := congrArg File.block same.file
    exact ⟨by simp only [blocks, size, block], by simp only [blocks, block]⟩
  · refine ⟨?_, same.junk, same.tame, same.serves⟩
    have block : left.block = right.block := congrArg File.block same.file
    simp only [blocks, block]
    exact congrArg (fun disk : File => { disk with
      block := fun page => ⟨(right.block page).blockId, (contents page).1, (contents page).2⟩ }) same.file

theorem alike_uninitialised : Alike Same uninitialised := by
  intro left right same
  refine ⟨congrArg (fun junk : Nat → Mem => Except.ok (junk 0)) same.junk, same.file, ?_, same.tame, same.serves⟩
  exact congrArg (fun (junk : Nat → Mem) n => junk (n + 1)) same.junk

theorem alike_readChain (steps : Nat) : ∀ (content : Block) (idx : Int) (record : RecordIndex) (remain : Int) (row : Buf)
    (place : Int), Alike Same (readChain steps content idx record remain row place) := by
  induction steps with
  | zero => exact fun _ _ _ _ _ _ => alike_stop _
  | succ steps ih =>
    intro content idx record remain row place
    refine (alike_confined (confines_rowGetLenInBlock content idx)).bind fun readLen => ?_
    refine (alike_confined (confines_copyOut content record.offset readLen row place)).bind fun row => ?_
    refine alike_ite ((alike_readBlock _).bind fun block => alike_ite (alike_stop _) ?_) (alike_pure _)
    refine (alike_confined (confines_load block)).bind fun content => ?_
    exact (alike_confined (confines_rowGetRecord content _)).bind fun next => ih content _ next _ row _

theorem alike_readRow (steps : Nat) : ∀ blockId idx : Int, Alike Same (Inner.readRow steps blockId idx) := by
  induction steps with
  | zero => exact fun _ _ => alike_stop _
  | succ steps ih =>
    intro blockId idx
    refine (alike_readBlock blockId).bind fun block => alike_ite (alike_stop _) ?_
    refine (alike_confined (confines_load block)).bind fun content => ?_
    refine (alike_confined (confines_rowGetRecord content idx)).bind fun record => ?_
    refine alike_ite (alike_pure _) (alike_ite (ih _ _) (alike_ite (alike_stop _) ?_))
    refine alike_uninitialised.bind fun _ => alike_ite ?_ ?_
    · exact (alike_readChain _ content idx record _ _ _).bind fun _ => alike_pure _
    · exact (alike_confined (confines_copyOut content _ _ _ _)).bind fun _ => alike_pure _

/-- The bytes that `read_row` returns, if it returns some. -/
def reading (file : DataFile) (id : Int × Int) : Except Stop (Option (List UInt8)) :=
  (readRow id.1 id.2 file).1.map (Option.map Buf.toList)

theorem Same.reading {left right : DataFile} (same : Same left right) (id : Int × Int) : left.reading id = right.reading id :=
  congrArg (Except.map (Option.map Buf.toList)) (alike_readRow stepBound id.1 id.2 left right same).1

end DataFile

end Pingkv
