import Pingkv.DataFile.FitWrite

/-! The public methods that write rows over an operating system that may refuse
calls: what they need of it, and how they end where they do not get it. -/

namespace Pingkv

namespace DataFile

open Exec

variable {file after mid : DataFile} {id : RecordId} {content : List UInt8} {path : List RecordId} {block : BlockPtr} {fre : Int}

/-- How often a new row of this length moves on to a next block. -/
def moves (file : DataFile) (len : Nat) : Nat :=
  if (file.block file.current).free = 0 then furtherBlocks len 8152 + 1 else furtherBlocks len (file.block file.current).free.toNat

/-- How often `mmap` is called for a new row of this length. -/
def maps (file : DataFile) (len : Nat) : Nat := (if file.held file.info.usedBlockCount then 0 else 1) + file.moves len

/-- Each block that a new row of this length goes to can be mapped. -/
def MapsRow (file : DataFile) (len : Nat) : Prop :=
  file.ServesMaps (file.maps len) ∧ file.info.usedBlockCount + file.moves len ≤ 262144

/-- Each block that a new row of this length goes to is there once it is moved on to. -/
def Granted (file : DataFile) (len : Nat) : Prop :=
  Supply.Grants (file.moves len) (if (file.block file.current).free = 0 then file.supply else file.supply.extend)

instance (file : DataFile) (calls : Nat) : Decidable (file.ServesMaps calls) :=
  inferInstanceAs (Decidable (∀ n < calls, file.os .mmap n = true))

instance (file : DataFile) (len : Nat) : Decidable (file.MapsRow len) := inferInstanceAs (Decidable (_ ∧ _))

instance (file : DataFile) (len : Nat) : Decidable (file.Granted len) := inferInstanceAs (Decidable (Supply.Grants _ _))

/-- Where every block can be mapped the first ones can. -/
theorem MapsRow.first {len : Nat} (fit : file.Fit) (maps : file.MapsRow len) : file.FirstMaps := by
  obtain ⟨serves, low⟩ := maps
  have lower := fit.formed.used_lower
  have upward {blockId : Int} (lower : 1 ≤ blockId) (upper : blockId ≤ 262144) : 0 ≤ mapOffset blockId := by
    rw [mapOffset_eq lower upper]
    omega
  refine ⟨?_, fun full => .inr ⟨serves _ ?_, upward (by omega) ?_⟩⟩
  · by_cases held : file.held file.info.usedBlockCount
    · exact .inl held
    · refine .inr ⟨serves 0 ?_, upward (by omega) fit.formed.used_mapped⟩
      rw [DataFile.maps, if_neg held]
      omega
  · simp only [DataFile.maps, moves, if_pos full]
    omega
  · simp only [moves, if_pos full] at low
    omega

theorem not_granted_of_none {len : Nat} (full : (file.block file.current).free = 0) (none : ¬ 0 < file.supply.extend.spare) :
    ¬ file.Granted len := by
  rw [Granted, if_pos full, moves, if_pos full, Supply.grants_succ]
  exact fun grants => none grants.1

theorem FoundFit.took (found : FoundFit file mid block fre) : Took file mid
    ((if file.held file.info.usedBlockCount then 0 else 1) + if (file.block file.current).free = 0 then 1 else 0)
    (if (file.block file.current).free = 0 then 1 else 0) := by
  refine ⟨found.fit, found.smooth, ?_, fun forward => forward.opens found.found.opens⟩
  rw [found.used]
  split <;> rfl

/-- The bytes free in the block that was found. -/
theorem FoundFit.free (found : FoundFit file mid block fre) (fit : file.Fit) : (mid.block mid.current).free =
    if (file.block file.current).free = 0 then 8152 else (file.block file.current).free := by
  have free : fre = (mid.block mid.current).free := found.found.free
  by_cases full : (file.block file.current).free = 0
  · rw [if_pos full, ← free]
    exact found.fresh full
  · have stays : mid.current = file.current := found.found.stays full
    rw [if_neg full, stays]
    exact congrArg Block.free (found.found.opens.kept _ fit.formed.current_within)

/-- Writing a row to the block that was found for it. -/
theorem FoundFit.innerWriteRow (found : FoundFit file mid block fre) (fit : file.Fit) (row : Buf) (small : row.len < 2 ^ 31) :
    wp (Inner.writeRow stepBound block row) (fun idx after => ∃ id path, idx = id.rowIdx ∧
        Wrote mid.mend after.mend id row.toList path ∧ Took file after (file.maps row.len) (file.moves row.len))
      (fun reason _ => reason = .failed ∧ ¬ file.MapsRow row.len ∨ reason = .fault ∧ ¬ file.Granted row.len) mid := by
  have positive := found.found.positive
  have free : fre = (mid.block mid.current).free := found.found.free
  have took := found.took
  have supply := found.supply
  have moves : file.moves row.len = furtherBlocks row.len (mid.block mid.current).free.toNat +
      if (file.block file.current).free = 0 then 1 else 0 := by
    rw [found.free fit, DataFile.moves]
    split <;> rfl
  obtain rfl : block = .page mid.current := found.found.place
  refine (innerWriteRow_fit stepBound row found.fit (by omega) found.held small (small_lt_stepBound small)).mono ?_ ?_
  · rintro idx after ⟨id, path, rfl, wrote, rest, _⟩
    have both := took.trans rest
    refine ⟨id, path, rfl, wrote, both.fit, both.smooth.mono ?_, ?_, both.forward⟩
    · rw [DataFile.maps, moves]
      omega
    · rw [both.used, moves]
      omega
  · rintro reason _ (⟨rfl, short⟩ | ⟨rfl, short⟩)
    · refine .inl ⟨rfl, fun ⟨serves, low⟩ => short ⟨took.smooth.served _ ?_, ?_⟩⟩
      · rw [DataFile.maps, moves] at serves
        exact fun k below => serves k (by omega)
      · rw [took.used]
        omega
    · refine .inr ⟨rfl, fun granted => short ?_⟩
      rw [Granted, moves] at granted
      rw [supply]
      by_cases full : (file.block file.current).free = 0
      · rw [if_pos full, if_pos full, Supply.grants_succ] at granted
        rw [if_pos full]
        exact granted.2
      · rw [if_neg full, if_neg full] at granted
        rw [if_neg full]
        exact granted

/-- A file never gets shorter. -/
theorem blind_size (size : Nat) : Blind fun file => size ≤ file.size where
  called _ _ longer := longer
  drawn _ longer := longer
  append _ _ _ longer := Nat.le_succ_of_le longer
  written _ _ longer := longer
  cached _ _ longer := longer
  advance _ longer := longer

/-- How the two row writers go on in a mapped block: where a piece of the row is not written they return -1. -/
theorem writeInto_fit {α : Type} {page : Nat} {post : α → DataFile → Prop} {halt : Stop → Prop} (row : Buf)
    (value : Block → Int → α) (positive : 0 < page) (within : page < file.size)
    (written : wp (Inner.writeRow stepBound (.page page) row) (fun idx => post (value (file.block page) idx))
      (fun reason _ => halt reason) file) :
    wp (do
      let content ← load (.page page)
      match ← attempt (Inner.writeRow stepBound (.page page) row) with
      | some idx => return value content idx
      | none => writeError (.page page)) post (fun reason _ => halt reason) file := by
  have grown := (blind_size file.size).survives.innerWriteRow stepBound (.page page) row file (Nat.le_refl _)
  have attempted : wp (attempt (Inner.writeRow stepBound (.page page) row)) (fun outcome after =>
      match outcome with
      | some idx => post (value (file.block page) idx) after
      | none => halt .failed ∧ file.size ≤ after.size) (fun reason _ => halt reason) file :=
    wp_attempt ((written.and grown).mono (fun _ _ both => both) fun _ _ both => both)
      (fun _ _ both => both.1) (fun _ both => both) |>.mono (fun _ _ holds => holds) fun _ _ both => both.1
  refine wp_bind_ok (load_page positive within) (wp_bind attempted ?_)
  intro outcome after holds
  cases outcome with
  | some idx => exact wp_pure holds
  | none =>
    have loaded := load_page positive (Nat.lt_of_lt_of_le within holds.2)
    exact wp_of_error (bind_ok loaded) holds.1

/-- `write_row` crashes where it cannot map the first block for the row, and returns -1 where it cannot map a later one. -/
theorem writeRow_fit (fit : file.Fit) (row : Buf) (small : row.len < 2 ^ 31) :
    wp (writeRow row) (fun number after => file.FirstMaps ∧ ∃ id path, number = (id.blockId, id.rowIdx) ∧
        Placed file.mend after.mend id row.toList path ∧ Took file after (file.maps row.len) (file.moves row.len))
      (fun reason _ => reason = .failed ∧ file.FirstMaps ∧ ¬ file.MapsRow row.len ∨
        reason = .fault ∧ (¬ file.FirstMaps ∨ ¬ file.Granted row.len)) file := by
  refine wp_bind ((findBlockCanWrite_fit fit).mono (fun _ _ found => found) ?_) ?_
  · rintro reason _ ⟨rfl, full, none⟩
    exact .inr ⟨rfl, .inr (not_granted_of_none full none)⟩
  rintro ⟨block, fre⟩ mid (⟨refused, failed, unmapped⟩ | ⟨found, first⟩)
  · obtain rfl : fre = -1 := refused
    obtain rfl : block = .mapFailed := failed
    exact wp_of_error rfl (.inr ⟨rfl, .inl unmapped⟩)
  · have positive := found.found.positive
    have written := found.innerWriteRow fit row small
    have formed := found.fit.formed
    obtain rfl : block = .page mid.current := found.found.place
    dsimp only
    rw [if_neg (show fre ≠ -1 by omega)]
    refine writeInto_fit row (fun content idx => (content.blockId, idx)) formed.current_positive formed.current_within ?_
    refine written.mono ?_ ?_
    · rintro idx after ⟨id, path, rfl, wrote, took⟩
      refine ⟨first, id, path, ?_, (wrote.placed found.found.ready).opened found.found.initOk found.found.opens, took⟩
      rw [formed.blockId _ formed.current_positive formed.current_within, RecordId.blockId, wrote.page]
      rfl
    · rintro reason _ (⟨rfl, short⟩ | ⟨rfl, short⟩)
      · exact .inl ⟨rfl, first, short⟩
      · exact .inr ⟨rfl, .inr short⟩

/-- `write_row_new_block` in the same way, whose first block is the one behind the used one. -/
theorem writeRowNewBlock_fit (fit : file.Fit) (row : Buf) (small : row.len < 2 ^ 31) :
    wp (writeRowNewBlock row) (fun blockId after => file.Maps (file.info.usedBlockCount + 1) 0 ∧
        ∃ id path, blockId = id.blockId ∧ id.place = 0 ∧ Placed file.mend after.mend id row.toList path ∧
        Took file after (furtherBlocks row.len 8152 + 1) (furtherBlocks row.len 8152 + 1))
      (fun reason _ => reason = .failed ∧ file.Maps (file.info.usedBlockCount + 1) 0 ∧ ¬ (file.ServesMaps
          (furtherBlocks row.len 8152 + 1) ∧ file.info.usedBlockCount + (furtherBlocks row.len 8152 + 1 : Nat) ≤ 262144) ∨
        reason = .fault ∧ (¬ file.Maps (file.info.usedBlockCount + 1) 0 ∨ ¬ file.supply.Grants (furtherBlocks row.len 8152 + 1)))
      file := by
  obtain ⟨mid, extended, grown, supply⟩ := extendWhenUsed_fit fit
  obtain ⟨block, opened, ran, next⟩ := readNextBlock_fit grown.fit
  have maps : mid.Maps (mid.info.usedBlockCount + 1) 0 ↔ file.Maps (file.info.usedBlockCount + 1) 0 := by
    rw [grown.maps, grown.used]
  refine wp_bind_ok extended (wp_bind_ok ran ?_)
  by_cases failed : block = .mapFailed
  · rw [if_pos failed, failed]
    refine wp_of_error rfl (.inr ⟨rfl, .inl fun mapped => ?_⟩)
    rcases next.found with ⟨rfl, _⟩ | ⟨_, unmapped⟩
    · cases failed
    · exact unmapped (maps.mpr mapped)
  · rw [if_neg failed]
    have mapped : file.Maps (file.info.usedBlockCount + 1) 0 := by
      rcases next.found with ⟨_, _, mapped⟩ | ⟨rfl, _⟩
      · exact maps.mp mapped
      · exact absurd rfl failed
    by_cases room : 0 < mid.supply.spare
    · obtain ⟨rfl, moved⟩ := next.moved grown.fit room failed
      have formed := moved.fit.formed
      have empty : (opened.block opened.current).recordCount = 0 := moved.moved.empty
      have free : (opened.block opened.current).free = (8152 : Nat) := by simp [Block.free, empty]
      have written := innerWriteRow_fit stepBound row moved.fit (by omega) moved.held small (small_lt_stepBound small)
      rw [free, Int.toNat_natCast] at written
      have smooth := grown.smooth.trans moved.smooth
      refine writeInto_fit row (fun content _ => content.blockId) formed.current_positive formed.current_within ?_
      refine written.mono ?_ ?_
      · rintro idx after ⟨id, path, rfl, wrote, took, _⟩
        have initOk : mid.mend.initOk = file.mend.initOk := grown.initOk
        have opens : file.mend.toFile.Opens mid.mend.toFile := grown.opens
        have used : mid.mend.info.usedBlockCount = file.mend.info.usedBlockCount := grown.used
        obtain ⟨page, first, _, placed⟩ := Moved.placed initOk opens used moved.moved wrote
        refine ⟨mapped, id, path, ?_, first, placed, took.fit, (smooth.trans took.smooth).mono (by omega), ?_, fun forward => ?_⟩
        · rw [formed.blockId _ formed.current_positive formed.current_within, RecordId.blockId, page]
          rfl
        · rw [took.used, moved.used, grown.used]
          omega
        · exact took.forward ((forward.opens grown.opens).opens moved.moved.opens)
      · rintro reason _ (⟨rfl, short⟩ | ⟨rfl, short⟩)
        · refine .inl ⟨rfl, mapped, fun enough => short ⟨smooth.served _ ?_, ?_⟩⟩
          · exact fun k below => enough.1 k (by omega)
          · have low := enough.2
            rw [moved.used, grown.used]
            omega
        · refine .inr ⟨rfl, .inr fun granted => short ?_⟩
          rw [moved.supply, supply]
          exact (Supply.grants_succ.mp granted).2
    · refine wp_of_error (bind_error (next.outside grown.fit room)) (.inr ⟨rfl, .inr fun granted => room ?_⟩)
      rw [supply]
      exact (Supply.grants_succ.mp granted).1

end DataFile

end Pingkv
