import Mathlib.Data.List.Basic
import Pingkv.Lib.Bytes

/-! The text of a configuration file: lines as `fgets` hands them out, the two
regular expressions, and the numbers of the values; and the report on a line, which
the logger hands to `fprintf` as a format. -/

namespace Pingkv

/-- A C string, without its final zero. -/
abbrev Text : Type := List UInt8

def ascii (text : String) : Text := text.toList.map fun char => char.toNat.toUInt8

/-- `BUFSIZ`. -/
def bufSize : Nat := 8192

/-- `\s`, and `isspace` of the C locale. -/
def isSpace (byte : UInt8) : Bool := byte = 32 || (9 ≤ byte && byte ≤ 13)

/-- `\d`. -/
def isDigit (byte : UInt8) : Bool := 48 ≤ byte && byte ≤ 57

/-- The decimal number that a string of digits stands for. -/
def number (digits : Text) : Nat := digits.foldl (fun value digit => 10 * value + (digit.toNat - 48)) 0

/-- `atoi`: the `long` that `strtol` reads, which stops at the ends of its range, cut to an `int`. -/
def atoi (text : Text) : Int :=
  match text.dropWhile isSpace with
  | 45 :: rest => wrap 32 (max (-number (rest.takeWhile isDigit)) (-2 ^ 63))
  | 43 :: rest => wrap 32 (min (number (rest.takeWhile isDigit)) (2 ^ 63 - 1))
  | rest => wrap 32 (min (number (rest.takeWhile isDigit)) (2 ^ 63 - 1))

/-- Where `fprintf` stands in a format: in plain text, right behind a `%`, in the flags, the
width or the precision of a directive, or past one that takes an argument or is none at all. -/
inductive Format where
  | text | start | flags | width | precision | argument
  deriving DecidableEq, Repr

def isFlag (byte : UInt8) : Bool := byte ∈ ascii "-+ #0'"

/-- One more byte of a directive. Only `%m`, the text of `errno`, takes no argument. -/
def Format.directive (format : Format) (byte : UInt8) : Format :=
  if byte = 109 then .text
  else if format = .flags && isFlag byte then .flags
  else if format = .precision then if isDigit byte then .precision else .argument
  else if isDigit byte then .width
  else if byte = 46 then .precision
  else .argument

/-- One more byte of a format. `%%` is a percent sign. -/
def Format.next (format : Format) (byte : UInt8) : Format :=
  match format with
  | .text => if byte = 37 then .start else .text
  | .start => if byte = 37 then .text else Format.directive .flags byte
  | .argument => .argument
  | _ => format.directive byte

/-- Whether `fprintf` prints a format without looking for an argument. -/
def printsAlone (format : Text) : Bool := format.foldl Format.next .text = .text

namespace KvConf

/-- The report of `_load_conf` on a line. -/
def report (line : Text) : Text := ascii "syntax error in line '" ++ line ++ ascii "'\n"

/-- Whether the report fits into its buffer of `BUFSIZ` bytes, and `kv_logger::_make_log_txt` can
print it: `fprintf(f, e.c_str())`, without any argument. What it puts in front has no `%`. -/
def reports (line : Text) : Bool := (report line).length < bufSize && printsAlone (report line)

/-- `fgets` on what is left of a file: at most `size - 1` bytes, up to a newline. -/
def fgets : Nat → Text → Text × Text
  | 0, text => ([], text)
  | _, [] => ([], [])
  | size + 1, byte :: text =>
    if byte = 10 then ([byte], text) else (byte :: (fgets size text).1, (fgets size text).2)

/-- What has to follow the first group of the expression in `_get_param_val`,
`\s*=\s*(\S+)\s*`: its second group. -/
def matchVal (text : Text) : Option Text :=
  match text.dropWhile isSpace with
  | 61 :: rest =>
    let rest := rest.dropWhile isSpace
    let val := rest.takeWhile fun byte => !isSpace byte
    if val ≠ [] ∧ (rest.dropWhile fun byte => !isSpace byte).all isSpace then some val else none
  | _ => none

/-- The two groups, where the first one starts here. It takes as many bytes as it can. -/
def matchParam : Text → Option (Text × Text)
  | [] => none
  | byte :: rest =>
    if isSpace byte then none
    else match matchParam rest with
      | some (param, val) => some (byte :: param, val)
      | none => (matchVal rest).map fun val => ([byte], val)

/-- `kv_conf::_get_param_val`: two empty strings for a line that does not match. -/
def getParamVal (line : Text) : Text × Text := (matchParam (line.dropWhile isSpace)).getD ([], [])

/-- `kv_conf::_split_servid_param`. -/
def splitServidParam (param : Text) : Int × Text :=
  match param.dropWhile isDigit with
  | 46 :: rest =>
    if param.takeWhile isDigit ≠ [] ∧ rest ≠ [] ∧ rest.all (fun byte => !isSpace byte) then
      (atoi (param.takeWhile isDigit), rest)
    else (-1, [])
  | _ => (-1, [])

/-- `kv_conf::_is_num`. -/
def isNum (text : Text) : Bool := text ≠ [] && text.all isDigit

/-- One `* 1024`, computed in `int`. -/
def kilo (value : Int) : Int := wrap 32 (value * 1024)

/-- `kv_conf::_str_to_bytes`. -/
def strToBytes (text : Text) : Int :=
  if text = [] then -1
  else if isNum text then atoi text
  else
    let unit := text.getLastD 0
    let num := text.dropLast
    if !isNum num then -1
    else if unit = 107 ∨ unit = 75 then kilo (atoi num)
    else if unit = 109 ∨ unit = 77 then kilo (kilo (atoi num))
    else if unit = 103 ∨ unit = 71 then kilo (kilo (kilo (atoi num)))
    else -1

/-- The number of bytes that a size with its unit stands for. -/
def sizeInBytes (text : Text) : Nat :=
  if isNum text then number text
  else
    let unit := text.getLastD 0
    let num := number text.dropLast
    if unit = 107 ∨ unit = 75 then num * 1024
    else if unit = 109 ∨ unit = 77 then num * 1024 ^ 2
    else num * 1024 ^ 3

variable {text line rest : Text}

/-- A line that `fgets` takes in one call and that no zero byte cuts off. -/
structure Plain (line : Text) : Prop where
  short : line.length + 2 ≤ bufSize
  noNewline : 10 ∉ line
  noZero : 0 ∉ line

instance (line : Text) : Decidable (Plain line) :=
  decidable_of_iff (line.length + 2 ≤ bufSize ∧ 10 ∉ line ∧ 0 ∉ line)
    ⟨fun ⟨short, noNewline, noZero⟩ => ⟨short, noNewline, noZero⟩,
      fun plain => ⟨plain.short, plain.noNewline, plain.noZero⟩⟩

/-- The text of a file with these lines, each ended by a newline. -/
def unlines (lines : List Text) : Text := lines.flatMap fun line => line ++ [10]

theorem fgets_line (noNewline : 10 ∉ line) (rest : Text) : ∀ size, line.length < size →
    fgets size (line ++ 10 :: rest) = (line ++ [10], rest) := by
  induction line with
  | nil =>
    rintro (_ | size) enough
    · omega
    · rfl
  | cons byte line ih =>
    rintro (_ | size) enough
    · omega
    · have different : byte ≠ 10 := fun same => noNewline (by simp [same])
      have taken := ih (fun member => noNewline (List.mem_cons_of_mem _ member)) size (by simpa using enough)
      simp only [List.cons_append, fgets, taken, if_neg different]

theorem isNum_iff : isNum text = true ↔ text ≠ [] ∧ ∀ byte ∈ text, isDigit byte = true := by
  simp [isNum]

private theorem digit_not_space {byte : UInt8} (digit : isDigit byte = true) : isSpace byte = false := by
  simp only [isDigit, Bool.and_eq_true, decide_eq_true_eq, UInt8.le_iff_toNat_le] at digit
  simp only [isSpace, Bool.or_eq_false_iff, decide_eq_false_iff_not, ← UInt8.toNat_inj, Bool.and_eq_false_iff,
    UInt8.le_iff_toNat_le]
  simp only [UInt8.reduceToNat] at digit ⊢
  omega

/-- `atoi` of a number. -/
theorem atoi_num (num : isNum text = true) : atoi text = wrap 32 (min (number text) (2 ^ 63 - 1)) := by
  obtain ⟨some, digits⟩ := isNum_iff.mp num
  have whole : (text ++ []).takeWhile isDigit = text ++ [].takeWhile isDigit := List.takeWhile_append_of_pos digits
  simp only [List.takeWhile_nil, List.append_nil] at whole
  cases text with
  | nil => exact absurd rfl some
  | cons byte rest =>
    have digit := digits byte List.mem_cons_self
    have unspaced : (byte :: rest).dropWhile isSpace = byte :: rest := by
      simp [digit_not_space digit]
    have minus : byte ≠ 45 := by rintro rfl; revert digit; decide
    have plus : byte ≠ 43 := by rintro rfl; revert digit; decide
    unfold atoi
    rw [unspaced]
    split
    · cases ‹_ :: _ = _ :: _›
      exact absurd rfl minus
    · cases ‹_ :: _ = _ :: _›
      exact absurd rfl plus
    · rw [whole]

theorem atoi_lt (text : Text) : atoi text < 2 ^ 31 := by
  unfold atoi
  split <;> exact (wrap_32_bounds _).2

/-- A number is read as what it is exactly when it fits an `int`. -/
theorem atoi_eq_iff (num : isNum text = true) : atoi text = number text ↔ number text < 2 ^ 31 := by
  constructor
  · intro same
    have bound := atoi_lt text
    omega
  · intro small
    rw [atoi_num num, Int.min_eq_left (by omega)]
    exact wrap_32_of_range (by omega) (by omega)

theorem atoi_zero (num : isNum text = true) (zero : number text = 0) : atoi text = 0 := by
  have same := (atoi_eq_iff num).mpr (by omega)
  omega

private theorem kilo_lt (value : Int) : kilo value < 2 ^ 31 := (wrap_32_bounds _).2

private theorem kilo_eq {value : Int} (nonneg : 0 ≤ value) (small : value * 1024 < 2 ^ 31) : kilo value = value * 1024 :=
  wrap_32_of_range (by omega) (by omega)

/-- A size that is not refused is read as what it is exactly when it fits an `int`. -/
theorem strToBytes_eq_iff (taken : 0 ≤ strToBytes text) : strToBytes text = sizeInBytes text ↔ sizeInBytes text < 2 ^ 31 := by
  have upper : strToBytes text < 2 ^ 31 := by
    unfold strToBytes
    dsimp only
    split_ifs <;> first | exact kilo_lt _ | exact atoi_lt _ | omega
  constructor
  · intro same
    omega
  · intro small
    unfold strToBytes at taken ⊢
    unfold sizeInBytes at small ⊢
    by_cases empty : text = []
    · simp [empty] at taken
    · rw [if_neg empty] at taken ⊢
      by_cases num : isNum text = true
      · rw [if_pos num] at small taken ⊢
        rw [if_pos num]
        exact (atoi_eq_iff num).mpr small
      · rw [if_neg num] at small taken ⊢
        rw [if_neg num]
        dsimp only at small taken ⊢
        cases digits : isNum text.dropLast with
        | false => simp [digits] at taken
        | true =>
          simp only [digits, Bool.not_true, Bool.false_eq_true, if_false] at taken ⊢
          have read : number text.dropLast < 2 ^ 31 → atoi text.dropLast = number text.dropLast :=
            (atoi_eq_iff digits).mpr
          generalize number text.dropLast = value at read small ⊢
          split_ifs at small taken ⊢
          · rw [read (by omega), kilo_eq (by omega) (by omega)]
            omega
          · rw [read (by omega), kilo_eq (show (0 : Int) ≤ value by omega) (by omega), kilo_eq (by omega) (by omega)]
            omega
          · rw [read (by omega), kilo_eq (show (0 : Int) ≤ value by omega) (by omega),
              kilo_eq (show (0 : Int) ≤ value * 1024 by omega) (by omega), kilo_eq (by omega) (by omega)]
            omega
          · omega

end KvConf

end Pingkv
