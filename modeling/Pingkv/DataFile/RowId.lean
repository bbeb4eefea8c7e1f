import Pingkv.Conf.Syntax
import Pingkv.Lib.Numeral

/-! Row ids as clients see them: numbers in base 62, joined by underscores. -/

namespace Pingkv

namespace DataFileTool

/-- `num` of `int_to_rowidstr`. -/
def rowidChars : Text := ascii "0123456789abcdefghijklmnopqrstuvwxyzABCDEFGHIJKLMNOPQRSTUVWXYZ"

/-- The loop of `int_to_rowidstr`, with so many bytes of `rowid` left in front of those written. -/
def rowidLoop : Nat → Int → Text → Option Text
  | 0, l, rowid => if 0 < l then none else some rowid
  | i + 1, l, rowid =>
    if 0 < l then do
      let tmp := l.tdiv 62
      let char ← rowidChars[(l - tmp * 62).toNat]?
      rowidLoop i tmp (char :: rowid)
    else some rowid

/-- `int_to_rowidstr`. -/
def intToRowidstr (l : Int) : Option Text :=
  if l = 0 then some (ascii "0")
  else do
    let rowid ← rowidLoop 19 (if l < 0 then wrap 32 (l * -1) else l) []
    if l < 0 then (if rowid.length < 19 then some (45 :: rowid) else none) else some rowid

/-- The entries of `num` that `rowidstr_to_int` writes. -/
def rowidNums : List (Char × Int) := [
  ('a', 10), ('A', 36), ('k', 20), ('K', 46),
  ('b', 11), ('B', 37), ('l', 21), ('L', 47),
  ('c', 12), ('C', 38), ('m', 22), ('M', 48),
  ('d', 13), ('D', 39), ('n', 23), ('N', 49),
  ('e', 14), ('E', 40), ('o', 24), ('O', 50),
  ('f', 15), ('F', 41), ('p', 25), ('P', 51),
  ('g', 16), ('G', 42), ('q', 26), ('Q', 52),
  ('h', 17), ('H', 43), ('r', 27), ('R', 53),
  ('i', 18), ('I', 44), ('s', 28), ('S', 54),
  ('j', 19), ('J', 45), ('t', 29), ('T', 55),
  ('0', 0), ('u', 30), ('U', 56),
  ('1', 1), ('v', 31), ('V', 57),
  ('2', 2), ('w', 32), ('W', 58),
  ('3', 3), ('x', 33), ('X', 59),
  ('4', 4), ('y', 34), ('Y', 60),
  ('5', 5), ('z', 35), ('Z', 61),
  ('6', 6), ('7', 7), ('8', 8), ('9', 9)]

/-- `num[str[i]]`; the other entries are never written. -/
def rowidNum (byte : UInt8) : Option Int := rowidNums.lookup (Char.ofNat byte.toNat)

/-- One turn of the loop of `rowidstr_to_int`. -/
def rowidStep (ret : Int) (byte : UInt8) : Option Int := do
  let num ← rowidNum byte
  some (wrap 32 (wrap 32 (ret * 62) + num))

/-- `rowidstr_to_int`. The length is cut to an `int`. -/
def rowidstrToInt (rowidstr : Text) : Option Int :=
  (rowidstr.take (wrap 32 rowidstr.length).toNat).foldlM rowidStep 0

/-- `count_char`. -/
def countChar (str : Text) (c : UInt8) : Int := str.count c

/-- A number as a `size_t`. -/
def sizeT (n : Int) : Nat := (n % 2 ^ 64).toNat

/-- `str.find("_", from)` as an `int`; `npos` becomes -1. -/
def find (str : Text) (start : Nat) : Int :=
  match (str.drop start).findIdx? fun byte => byte = 95 with
  | some i => wrap 32 (start + i : Nat)
  | none => wrap 32 (2 ^ 64 - 1)

/-- `str.substr(pos, len)`, which throws behind the end. -/
def substr (str : Text) (pos len : Nat) : Option Text :=
  if pos ≤ str.length then some ((str.drop pos).take len) else none

/-- The loop of `get_sub_str`. -/
def skip (str : Text) : Nat → Int → Int
  | 0, start => start
  | i + 1, start => skip str i (find str (sizeT (start + 1)))

/-- `get_sub_str`, which never reads `split`. -/
def getSubStr (str _split : Text) (idx : Int) : Option Text :=
  if idx = 1 then substr str 0 (sizeT (find str 0 - 0))
  else
    let start := skip str (idx - 1).toNat (-1)
    let stop := find str (sizeT (start + 1))
    let stop := if sizeT stop > str.length then wrap 32 str.length else stop
    substr str (sizeT (start + 1)) (sizeT (stop - start - 1))

/-- `make_rowid` of a block id and a row index. -/
def makeRowid (blockId rowIdx : Int) : Option Text := do
  let re ← intToRowidstr blockId
  return re ++ ascii "_" ++ (← intToRowidstr rowIdx)

/-- `make_rowid` of a file id, a block id and a row index. -/
def makeRowidOfFile (fileId blockId rowIdx : Int) : Option Text := do
  let re ← intToRowidstr fileId
  return re ++ ascii "_" ++ (← intToRowidstr blockId) ++ ascii "_" ++ (← intToRowidstr rowIdx)

/-- `rowid_to_file_id`. -/
def rowidToFileId (rowid : Text) : Option Int :=
  if countChar rowid 95 ≠ 3 then some (-1)
  else do
    let id ← getSubStr rowid (ascii "_") 1
    rowidstrToInt id

/-- `rowid_to_block_id`. -/
def rowidToBlockId (rowid : Text) : Option Int :=
  if countChar rowid 95 = 2 then (getSubStr rowid (ascii "_") 2).bind rowidstrToInt
  else if countChar rowid 95 = 1 then (getSubStr rowid (ascii "_") 1).bind rowidstrToInt
  else some (-1)

/-- `rowid_to_row_idx`. -/
def rowidToRowIdx (rowid : Text) : Option Int :=
  if countChar rowid 95 = 2 then (getSubStr rowid (ascii "_") 3).bind rowidstrToInt
  else if countChar rowid 95 = 1 then (getSubStr rowid (ascii "_") 2).bind rowidstrToInt
  else some (-1)

/-- The value of a character of a row id: its place among the digits and letters. -/
def rowidWorth (byte : UInt8) : Nat := rowidChars.idxOf byte

/-- The number that a string of such characters stands for in base 62. -/
def rowidValue (s : Text) : Nat := Numeral.value 62 rowidWorth s

/-- The characters of a number in base 62; 0 has none. -/
def rowidNumeral (n : Nat) : Text := Numeral.numeral 62 (fun d => rowidChars.getD d 0) n

variable {s : Text} {n : Nat}

theorem rowidChars_length : rowidChars.length = 62 := rfl

theorem rowidChars_nodup : rowidChars.Nodup := by decide

theorem rowidChars_get {d : Nat} (small : d < 62) :
    ∃ inside : d < rowidChars.length, rowidChars.getD d 0 = rowidChars[d] :=
  ⟨rowidChars_length ▸ small, List.getD_eq_getElem _ _ _⟩

theorem rowidWorth_char (d : Nat) (small : d < 62) : rowidWorth (rowidChars.getD d 0) = d := by
  obtain ⟨inside, char⟩ := rowidChars_get small
  rw [char]
  exact rowidChars_nodup.idxOf_getElem d inside

theorem rowidChars_worth (byte : UInt8) (member : byte ∈ rowidChars) :
    rowidWorth byte < 62 ∧ rowidChars.getD (rowidWorth byte) 0 = byte := by
  have inside : rowidWorth byte < rowidChars.length := List.idxOf_lt_length_of_mem member
  refine ⟨rowidChars_length ▸ inside, ?_⟩
  rw [List.getD_eq_getElem _ _ inside]
  exact List.getElem_idxOf inside

/-- The two tables agree. -/
theorem rowidNum_worth : ∀ byte ∈ rowidChars, rowidNum byte = some (rowidWorth byte : Int) := by decide +kernel

theorem rowidChars_getElem (d : Nat) (small : d < 62) : rowidChars[d]? = some (rowidChars.getD d 0) := by
  obtain ⟨inside, char⟩ := rowidChars_get small
  rw [char]
  exact List.getElem?_eq_getElem inside

theorem rowidChars_mem (d : Nat) (small : d < 62) : rowidChars.getD d 0 ∈ rowidChars := by
  obtain ⟨inside, char⟩ := rowidChars_get small
  rw [char]
  exact List.getElem_mem inside

theorem mem_rowidNumeral {byte : UInt8} (member : byte ∈ rowidNumeral n) : byte ∈ rowidChars := by
  obtain ⟨d, digit, rfl⟩ := Numeral.mem_numeral (by decide) member
  exact rowidChars_mem d digit

theorem rowidValue_numeral (n : Nat) : rowidValue (rowidNumeral n) = n :=
  Numeral.value_numeral (by decide) rowidWorth_char n

theorem length_rowidNumeral (small : n < 2 ^ 31) : (rowidNumeral n).length ≤ 6 :=
  (Numeral.length_numeral_le (by decide)).mpr (Nat.lt_trans small (by decide))

/-- The loop writes the numeral in front, if there is room for it. -/
theorem rowidLoop_run (room : Nat) : ∀ {n : Nat} (rowid : Text), (rowidNumeral n).length ≤ room →
    rowidLoop room n rowid = some (rowidNumeral n ++ rowid) := by
  induction room with
  | zero =>
    intro n rowid fits
    have none : n = 0 := by
      have small := (Numeral.length_numeral_le (by decide)).mp fits
      omega
    subst none
    rfl
  | succ room ih =>
    intro n rowid fits
    rw [rowidLoop]
    by_cases positive : 0 < n
    · have div : (n : Int).tdiv 62 = (n / 62 : Nat) := rfl
      have digit : ((n : Int) - (n / 62 : Nat) * 62).toNat = n % 62 := by omega
      have split : rowidNumeral n = rowidNumeral (n / 62) ++ [rowidChars.getD (n % 62) 0] :=
        Numeral.numeral_div (by decide) positive
      rw [split, List.length_append, List.length_singleton] at fits
      rw [if_pos (by omega), div]
      dsimp only
      rw [digit, rowidChars_getElem _ (Nat.mod_lt n (by decide)), split]
      refine (ih (rowidChars.getD (n % 62) 0 :: rowid) (by omega)).trans ?_
      rw [List.append_assoc]
      rfl
    · have none : n = 0 := by omega
      subst none
      rfl

/-- The numeral of a number from 0 on, which is `0` for 0. -/
def rowidstr (n : Nat) : Text := if n = 0 then ascii "0" else rowidNumeral n

theorem intToRowidstr_eq (small : n < 2 ^ 31) : intToRowidstr n = some (rowidstr n) := by
  rw [intToRowidstr, rowidstr]
  by_cases zero : n = 0
  · rw [if_pos (by omega), if_pos zero]
  · have length := length_rowidNumeral small
    rw [if_neg (by omega), if_neg (by omega), if_neg zero, rowidLoop_run 19 [] (by omega)]
    simp only [Option.bind_eq_bind, Option.bind_some]
    rw [if_neg (by omega), List.append_nil]

theorem foldlM_rowidStep (inside : ∀ byte ∈ s, byte ∈ rowidChars) (small : rowidValue s < 2 ^ 31) :
    s.foldlM rowidStep 0 = some (rowidValue s : Int) := by
  induction s using List.reverseRecOn with
  | nil => rfl
  | append_singleton s c ih =>
    have last : rowidValue (s ++ [c]) = rowidValue s * 62 + rowidWorth c := Numeral.value_append_singleton c
    rw [last] at small ⊢
    rw [List.foldlM_append, ih (fun byte member => inside byte (List.mem_append_left _ member)) (by omega)]
    simp only [Option.bind_eq_bind, Option.bind_some, List.foldlM_cons, List.foldlM_nil, rowidStep,
      rowidNum_worth c (inside c (by simp))]
    have shifted : wrap 32 ((rowidValue s : Int) * 62) = rowidValue s * 62 := wrap_32_of_range (by omega) (by omega)
    rw [shifted, wrap_32_of_range (by omega) (by omega)]
    push_cast
    rfl

/-- A short string of digits and letters is read as the number it stands for. -/
theorem rowidstrToInt_eq (inside : ∀ byte ∈ s, byte ∈ rowidChars) (small : rowidValue s < 2 ^ 31) (short : s.length < 2 ^ 31) :
    rowidstrToInt s = some (rowidValue s : Int) := by
  rw [rowidstrToInt, wrap_32_of_range (by omega) (by omega), Int.toNat_natCast, List.take_length]
  exact foldlM_rowidStep inside small

theorem rowidstrToInt_zero : rowidstrToInt (ascii "0") = some 0 := by decide

/-- What was written for a number is read as that number. -/
theorem rowidstr_read (small : n < 2 ^ 31) :
    rowidstrToInt (rowidstr n) = some (n : Int) := by
  unfold rowidstr
  split
  · rename_i zero
    rw [zero]
    exact rowidstrToInt_zero
  · have length := length_rowidNumeral small
    have read := rowidstrToInt_eq (s := rowidNumeral n) (fun byte => mem_rowidNumeral)
      (by rwa [rowidValue_numeral]) (by omega)
    rw [read, rowidValue_numeral]

/-- A string that begins with no zero is the numeral of its value. -/
theorem rowidNumeral_value (inside : ∀ byte ∈ s, byte ∈ rowidChars) (leading : s.head? ≠ some 48) :
    rowidNumeral (rowidValue s) = s := by
  apply Numeral.numeral_value (by decide)
  · exact fun byte member => rowidChars_worth byte (inside byte member)
  · intro byte first zero
    have char := (rowidChars_worth byte (inside byte (List.mem_of_head? first))).2
    rw [zero] at char
    exact leading (first.trans (congrArg some char.symm))

/-- The two functions undo each other: on the numbers from 0 on, and on the strings of digits and letters
without a leading `0` that stand for such a number. -/
theorem rowidstr_inverse : (∀ n : Int, 0 ≤ n → n < 2 ^ 31 → (intToRowidstr n).bind rowidstrToInt = some n) ∧
    ∀ s : Text, s ≠ [] → (∀ byte ∈ s, byte ∈ rowidChars) → (s = ascii "0" ∨ s.head? ≠ some 48) →
      rowidValue s ≤ 2 ^ 31 - 1 → (rowidstrToInt s).bind intToRowidstr = some s := by
  constructor
  · intro n nonneg small
    obtain ⟨n, rfl⟩ := Int.eq_ofNat_of_zero_le nonneg
    have small : n < 2 ^ 31 := by omega
    rw [intToRowidstr_eq small, Option.bind_some, rowidstr_read small]
  · rintro s some inside (rfl | leading) small
    · decide
    · have own := rowidNumeral_value inside leading
      have short : s.length ≤ 6 := by
        rw [← own]
        exact length_rowidNumeral (by omega)
      have positive : rowidValue s ≠ 0 := by
        intro zero
        rw [zero, rowidNumeral, Numeral.numeral_zero] at own
        exact some own.symm
      rw [rowidstrToInt_eq inside (by omega) (by omega), Option.bind_some, intToRowidstr_eq (by omega), rowidstr, if_neg positive, own]

/-- A number and a string of three characters. -/
theorem rowidstr_inverse_small : (intToRowidstr 125).bind rowidstrToInt = some 125 ∧
    (rowidstrToInt (ascii "aZ9")).bind intToRowidstr = some (ascii "aZ9") :=
  ⟨rowidstr_inverse.1 125 (by decide) (by decide),
    rowidstr_inverse.2 (ascii "aZ9") (by decide +kernel) (by decide +kernel) (.inr (by decide +kernel)) (by decide +kernel)⟩

/-- Fields with an underscore between any two. -/
def joined : List Text → Text
  | [] => []
  | [field] => field
  | field :: other :: rest => field ++ 95 :: joined (other :: rest)

section Fields

variable {str before field : Text} {fields rest : List Text}

theorem sizeT_natCast {k : Nat} (small : k < 2 ^ 64) : sizeT k = k := by
  rw [sizeT]
  omega

theorem joined_cons_ne_nil (some : rest ≠ []) : joined (field :: rest) = field ++ 95 :: joined rest := by
  cases rest with
  | nil => exact absurd rfl some
  | cons => rfl

/-- An underscore behind a field is found. -/
theorem find_field (clean : 95 ∉ field) {later : Text} (same : str = before ++ (field ++ 95 :: later)) (short : str.length < 2 ^ 31) :
    find str before.length = (before.length + field.length : Nat) := by
  have length : before.length + field.length < 2 ^ 31 := by
    rw [same] at short
    simp only [List.length_append, List.length_cons] at short
    omega
  have none : field.findIdx? (fun byte => byte = 95) = none := by
    rw [List.findIdx?_eq_none_iff]
    intro byte member
    simpa using ne_of_mem_of_not_mem member clean
  have found : (field ++ 95 :: later).findIdx? (fun byte => byte = 95) = some field.length := by
    simp [List.findIdx?_append, none, List.findIdx?_cons]
  rw [find, same, List.drop_left, found]
  exact wrap_32_of_range (by omega) (by omega)

/-- Behind the last underscore none is found. -/
theorem find_last (clean : 95 ∉ field) : find (before ++ field) before.length = -1 := by
  have none : field.findIdx? (fun byte => byte = 95) = none := by
    rw [List.findIdx?_eq_none_iff]
    intro byte member
    simpa using ne_of_mem_of_not_mem member clean
  rw [find, List.drop_left, none]
  change wrap 32 (2 ^ 64 - 1) = -1
  decide

theorem substr_field {later : Text} (same : str = before ++ (field ++ later)) :
    substr str before.length field.length = some field := by
  rw [substr, if_pos (by rw [same, List.length_append]; omega), same, List.drop_left, List.take_left]

/-- The loop of `get_sub_str` comes to the underscore in front of a field. -/
theorem skip_joined (turns : Nat) : ∀ {before : Text} {fields : List Text}, (∀ field ∈ fields, 95 ∉ field) →
    str = before ++ joined fields → str.length < 2 ^ 31 → turns < fields.length →
      ∃ front : Text, str = front ++ joined (fields.drop turns) ∧ skip str turns (before.length - 1) = front.length - 1 := by
  induction turns with
  | zero => exact fun _ same _ _ => ⟨_, same, rfl⟩
  | succ turns ih =>
    intro before fields clean same short within
    obtain ⟨field, other, rest, rfl⟩ : ∃ field other rest, fields = field :: other :: rest := by
      match fields, within with
      | field :: other :: rest, _ => exact ⟨field, other, rest, rfl⟩
    have found := find_field (clean field List.mem_cons_self) same short
    have length : before.length ≤ str.length := by
      rw [same, List.length_append]
      exact Nat.le_add_right _ _
    have again : str = (before ++ (field ++ [95])) ++ joined (other :: rest) := by
      rw [same]
      simp [joined]
    obtain ⟨front, split, skipped⟩ := ih (fun field member => clean field (List.mem_cons_of_mem _ member)) again short
      (by simpa using within)
    refine ⟨front, split, ?_⟩
    rw [skip, show (before.length : Int) - 1 + 1 = before.length by omega, sizeT_natCast (by omega), found, ← skipped]
    congr 1
    simp only [List.length_append, List.length_singleton]
    omega

/-- What `get_sub_str` does once its loop is in front of a field. -/
private theorem cut_field (clean : 95 ∉ field) (short : str.length < 2 ^ 31) (same : str = before ++ joined (field :: rest)) :
    (let stop := find str (sizeT ((before.length : Int) - 1 + 1))
      let stop := if sizeT stop > str.length then wrap 32 str.length else stop
      substr str (sizeT ((before.length : Int) - 1 + 1)) (sizeT (stop - (before.length - 1) - 1))) = some field := by
  have length : before.length ≤ str.length := by
    rw [same, List.length_append]
    exact Nat.le_add_right _ _
  dsimp only
  rw [show (before.length : Int) - 1 + 1 = before.length by omega, sizeT_natCast (by omega)]
  by_cases last : rest = []
  · subst last
    have whole : str.length = before.length + field.length := by rw [same, joined, List.length_append]
    have missing : find str before.length = -1 := by
      rw [same]
      exact find_last clean
    rw [missing, if_pos (show sizeT (-1) > str.length from Nat.lt_trans short (by decide)),
      wrap_32_of_range (by omega) (by omega),
      show (str.length : Int) - (before.length - 1) - 1 = field.length by omega, sizeT_natCast (by omega)]
    exact substr_field (by rw [same, joined, List.append_nil])
  · rw [joined_cons_ne_nil last] at same
    have more : before.length + field.length < str.length := by
      rw [same]
      simp only [List.length_append, List.length_cons]
      omega
    rw [find_field clean same short, sizeT_natCast (by omega), if_neg (by omega),
      show ((before.length + field.length : Nat) : Int) - (before.length - 1) - 1 = field.length by omega,
      sizeT_natCast (by omega)]
    exact substr_field same

/-- `get_sub_str` cuts out a field. -/
theorem getSubStr_joined (clean : ∀ field ∈ fields, 95 ∉ field) (short : (joined fields).length < 2 ^ 31) {k : Nat}
    (here : fields[k]? = some field) (several : 2 ≤ fields.length) :
    getSubStr (joined fields) (ascii "_") (k + 1 : Nat) = some field := by
  have clean' : 95 ∉ field := clean field (List.mem_of_getElem? here)
  cases k with
  | zero =>
    obtain ⟨other, rest, rfl⟩ : ∃ other rest, fields = field :: other :: rest := by
      match fields, several, here with
      | first :: other :: rest, _, here => exact ⟨other, rest, by rw [Option.some.inj here]⟩
    have split : joined (field :: other :: rest) = ([] : Text) ++ (field ++ 95 :: joined (other :: rest)) := rfl
    have found : find (joined (field :: other :: rest)) 0 = field.length := by
      have first := find_field clean' split short
      rwa [List.length_nil, Nat.zero_add] at first
    have length : field.length < 2 ^ 64 := by
      have part : field.length ≤ (joined (field :: other :: rest)).length := by
        rw [joined, List.length_append]
        exact Nat.le_add_right _ _
      omega
    rw [getSubStr, if_pos (by decide), found, Int.sub_zero, sizeT_natCast length]
    exact substr_field split
  | succ k =>
    obtain ⟨within, own⟩ := List.getElem?_eq_some_iff.mp here
    have drop : fields.drop (k + 1) = field :: fields.drop (k + 1 + 1) := by
      rw [← own]
      exact (List.getElem_cons_drop within).symm
    obtain ⟨front, split, skipped⟩ := skip_joined (k + 1) clean (show joined fields = ([] : Text) ++ joined fields from rfl) short within
    have start : skip (joined fields) (k + 1) (-1) = front.length - 1 := skipped
    rw [drop] at split
    rw [getSubStr, if_neg (by omega), show (((k + 1 + 1 : Nat) : Int) - 1).toNat = k + 1 by omega]
    dsimp only
    rw [start]
    exact cut_field clean' short split

theorem count_joined (clean : ∀ field ∈ fields, 95 ∉ field) : countChar (joined fields) 95 = (fields.length - 1 : Nat) := by
  rw [countChar]
  congr 1
  induction fields with
  | nil => rfl
  | cons field rest ih =>
    have none : field.count 95 = 0 := List.count_eq_zero.mpr (clean field List.mem_cons_self)
    cases rest with
    | nil => exact none
    | cons other rest =>
      rw [joined, List.count_append, List.count_cons_self, none, ih fun field member => clean field (List.mem_cons_of_mem _ member)]
      simp

end Fields

/-- What the five decoders make of the row ids of a record. -/
def RoundTrips (fileId blockId rowIdx : Int) : Prop :=
  (makeRowid blockId rowIdx).bind rowidToBlockId = some blockId ∧ (makeRowid blockId rowIdx).bind rowidToRowIdx = some rowIdx ∧
    (makeRowidOfFile fileId blockId rowIdx).bind rowidToFileId = some fileId ∧
    (makeRowidOfFile fileId blockId rowIdx).bind rowidToBlockId = some blockId ∧
    (makeRowidOfFile fileId blockId rowIdx).bind rowidToRowIdx = some rowIdx

theorem rowidstr_clean (n : Nat) : 95 ∉ rowidstr n := by
  unfold rowidstr
  split
  · decide
  · exact fun member => absurd (mem_rowidNumeral member) (by decide)

theorem length_rowidstr (small : n < 2 ^ 31) : (rowidstr n).length ≤ 6 := by
  unfold rowidstr
  split
  · decide
  · exact length_rowidNumeral small

theorem makeRowid_eq {blockId rowIdx : Nat} (block : blockId < 2 ^ 31) (row : rowIdx < 2 ^ 31) :
    makeRowid blockId rowIdx = some (joined [rowidstr blockId, rowidstr rowIdx]) := by
  rw [makeRowid, intToRowidstr_eq block, intToRowidstr_eq row]
  refine congrArg some ?_
  simp [joined, ascii]

theorem makeRowidOfFile_eq {fileId blockId rowIdx : Nat} (file : fileId < 2 ^ 31) (block : blockId < 2 ^ 31) (row : rowIdx < 2 ^ 31) :
    makeRowidOfFile fileId blockId rowIdx = some (joined [rowidstr fileId, rowidstr blockId, rowidstr rowIdx]) := by
  rw [makeRowidOfFile, intToRowidstr_eq file, intToRowidstr_eq block, intToRowidstr_eq row]
  refine congrArg some ?_
  simp [joined, ascii]

/-- A decoder that takes a number out of a row id. -/
theorem field_read {ns : List Nat} (small : ∀ n ∈ ns, n < 2 ^ 31) {k : Nat} (here : ns[k]? = some n) (two : 2 ≤ ns.length)
    (few : ns.length ≤ 3) : (getSubStr (joined (ns.map rowidstr)) (ascii "_") (k + 1 : Nat)).bind rowidstrToInt = some (n : Int) := by
  have clean : ∀ field ∈ ns.map rowidstr, 95 ∉ field := by
    intro field member
    obtain ⟨m, _, rfl⟩ := List.mem_map.mp member
    exact rowidstr_clean m
  have short : (joined (ns.map rowidstr)).length < 2 ^ 31 := by
    match ns, two, few with
    | [a, b], _, _ =>
      have first := length_rowidstr (small a (by simp))
      have second := length_rowidstr (small b (by simp))
      simp only [List.map_cons, List.map_nil, joined, List.length_append, List.length_cons]
      omega
    | [a, b, c], _, _ =>
      have first := length_rowidstr (small a (by simp))
      have second := length_rowidstr (small b (by simp))
      have third := length_rowidstr (small c (by simp))
      simp only [List.map_cons, List.map_nil, joined, List.length_append, List.length_cons]
      omega
  rw [getSubStr_joined clean short (by rw [List.getElem?_map, here]; rfl) (by rwa [List.length_map]), Option.bind_some]
  exact rowidstr_read (small n (List.mem_of_getElem? here))

theorem count_rowid (ns : List Nat) : countChar (joined (ns.map rowidstr)) 95 = (ns.length - 1 : Nat) := by
  rw [count_joined, List.length_map]
  intro field member
  obtain ⟨m, _, rfl⟩ := List.mem_map.mp member
  exact rowidstr_clean m

/-- `rowid_to_file_id` answers -1 to every row id: it wants three underscores where there are two. The other
decoders find what the row ids were made of. -/
theorem roundTrips_never {fileId blockId rowIdx : Int} (file : 0 ≤ fileId ∧ fileId < 2 ^ 31) (block : 0 ≤ blockId ∧ blockId < 2 ^ 31)
    (row : 0 ≤ rowIdx ∧ rowIdx < 2 ^ 31) : ¬ RoundTrips fileId blockId rowIdx ∧
      (makeRowid blockId rowIdx).bind rowidToBlockId = some blockId ∧ (makeRowid blockId rowIdx).bind rowidToRowIdx = some rowIdx ∧
      (makeRowidOfFile fileId blockId rowIdx).bind rowidToFileId = some (-1) ∧
      (makeRowidOfFile fileId blockId rowIdx).bind rowidToBlockId = some blockId ∧
      (makeRowidOfFile fileId blockId rowIdx).bind rowidToRowIdx = some rowIdx := by
  obtain ⟨f, rfl⟩ := Int.eq_ofNat_of_zero_le file.1
  obtain ⟨b, rfl⟩ := Int.eq_ofNat_of_zero_le block.1
  obtain ⟨r, rfl⟩ := Int.eq_ofNat_of_zero_le row.1
  have file : f < 2 ^ 31 := by omega
  have block : b < 2 ^ 31 := by omega
  have row : r < 2 ^ 31 := by omega
  have two : ∀ n ∈ [b, r], n < 2 ^ 31 := List.forall_mem_cons.mpr ⟨block, List.forall_mem_singleton.mpr row⟩
  have three : ∀ n ∈ [f, b, r], n < 2 ^ 31 := List.forall_mem_cons.mpr ⟨file, two⟩
  have one : countChar (joined [rowidstr b, rowidstr r]) 95 = 1 := count_rowid [b, r]
  have both : countChar (joined [rowidstr f, rowidstr b, rowidstr r]) 95 = 2 := count_rowid [f, b, r]
  have fileRead : (makeRowidOfFile f b r).bind rowidToFileId = some (-1) := by
    rw [makeRowidOfFile_eq file block row, Option.bind_some, rowidToFileId, both]
    rfl
  refine ⟨?_, ?_, ?_, fileRead, ?_, ?_⟩
  · rintro ⟨_, _, same, _⟩
    have negative := Option.some.inj (fileRead.symm.trans same)
    omega
  · rw [makeRowid_eq block row, Option.bind_some, rowidToBlockId, one, if_neg (by decide), if_pos rfl]
    exact field_read two (k := 0) rfl (by simp) (by simp)
  · rw [makeRowid_eq block row, Option.bind_some, rowidToRowIdx, one, if_neg (by decide), if_pos rfl]
    exact field_read two (k := 1) rfl (by simp) (by simp)
  · rw [makeRowidOfFile_eq file block row, Option.bind_some, rowidToBlockId, both, if_pos rfl]
    exact field_read three (k := 1) rfl (by simp) (by simp)
  · rw [makeRowidOfFile_eq file block row, Option.bind_some, rowidToRowIdx, both, if_pos rfl]
    exact field_read three (k := 2) rfl (by simp) (by simp)

/-- The row id of record 5 of block 2 in file 1. -/
theorem roundTrips_small : ¬ RoundTrips 1 2 5 ∧ (makeRowidOfFile 1 2 5).bind rowidToBlockId = some 2 := by
  have decoded := roundTrips_never (show (0 : Int) ≤ 1 ∧ (1 : Int) < 2 ^ 31 by decide)
    (show (0 : Int) ≤ 2 ∧ (2 : Int) < 2 ^ 31 by decide) (show (0 : Int) ≤ 5 ∧ (5 : Int) < 2 ^ 31 by decide)
  exact ⟨decoded.1, decoded.2.2.2.2.1⟩

theorem file_id_unread : makeRowidOfFile 1 1 1 = some (ascii "1_1_1") ∧ rowidToFileId (ascii "1_1_1") = some (-1) ∧
    ¬ RoundTrips 1 1 1 := by
  have made : makeRowidOfFile 1 1 1 = some (ascii "1_1_1") := by decide
  have read : rowidToFileId (ascii "1_1_1") = some (-1) := by decide
  refine ⟨made, read, ?_⟩
  rintro ⟨_, _, same, _⟩
  rw [made, Option.bind_some, read] at same
  cases same

end DataFileTool

end Pingkv
