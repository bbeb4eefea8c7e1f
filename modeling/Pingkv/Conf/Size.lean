import Mathlib.Algebra.Order.Ring.Int
import Mathlib.Logic.Function.Iterate
import Pingkv.Conf.Syntax

/-! Sizes with a unit: which texts are read as the number of bytes they denote. -/

namespace Pingkv

namespace KvConf

/-- The power of 1024 that the letter of a unit stands for. -/
def unitPower (unit : UInt8) : Option Nat :=
  if unit = 107 ∨ unit = 75 then some 1
  else if unit = 109 ∨ unit = 77 then some 2
  else if unit = 103 ∨ unit = 71 then some 3
  else none

/-- A decimal number, alone or with k, m or g behind it, and the bytes that it denotes. -/
inductive Denotes : Text → Nat → Prop where
  | bare {digits : Text} (num : isNum digits = true) : Denotes digits (number digits)
  | scaled {digits : Text} {unit : UInt8} {power : Nat} (num : isNum digits = true) (unit_power : unitPower unit = some power) :
      Denotes (digits ++ [unit]) (number digits * 1024 ^ power)

variable {text digits : Text} {unit : UInt8} {power bytes : Nat} {value : Int}

theorem strToBytes_bare (num : isNum digits = true) : strToBytes digits = atoi digits := by
  rw [strToBytes, if_neg (isNum_iff.mp num).1, if_pos num]

theorem isNum_scaled (unit_power : unitPower unit = some power) : isNum (digits ++ [unit]) = false := by
  apply Bool.eq_false_iff.mpr
  intro num
  have digit := (isNum_iff.mp num).2 unit (by simp)
  unfold unitPower at unit_power
  split_ifs at unit_power with kilo mega giga
  · rcases kilo with rfl | rfl <;> revert digit <;> decide
  · rcases mega with rfl | rfl <;> revert digit <;> decide
  · rcases giga with rfl | rfl <;> revert digit <;> decide

/-- The number in front of a unit is multiplied by 1024 once for each power. -/
theorem strToBytes_scaled (num : isNum digits = true) (unit_power : unitPower unit = some power) :
    strToBytes (digits ++ [unit]) = kilo^[power] (atoi digits) := by
  have unscaled : ¬ isNum (digits ++ [unit]) = true := Bool.eq_false_iff.mp (isNum_scaled unit_power)
  rw [strToBytes, if_neg (by simp), if_neg unscaled]
  simp only [List.getLastD_concat, List.dropLast_concat, num, Bool.not_true, Bool.false_eq_true, if_false]
  unfold unitPower at unit_power
  split_ifs at unit_power with first second third
  · cases unit_power
    rw [if_pos first]
    rfl
  · cases unit_power
    rw [if_neg first, if_pos second]
    rfl
  · cases unit_power
    rw [if_neg first, if_neg second, if_pos third]
    rfl

/-- Any other text is refused. -/
theorem strToBytes_other (other : ∀ bytes, ¬ Denotes text bytes) : strToBytes text = -1 := by
  unfold strToBytes
  rcases List.eq_nil_or_concat text with rfl | ⟨front, unit, rfl⟩
  · rw [if_pos rfl]
  rw [List.concat_eq_append] at other ⊢
  rw [if_neg (by simp), if_neg fun num => other _ (.bare num)]
  simp only [List.getLastD_concat, List.dropLast_concat]
  cases num : isNum front with
  | false => rfl
  | true =>
    have plain : unitPower unit = none := by
      cases known : unitPower unit with
      | none => rfl
      | some power => exact absurd (.scaled num known) (other _)
    unfold unitPower at plain
    split_ifs at plain with first second third
    rw [if_neg (by simp), if_neg first, if_neg second, if_neg third]

theorem kilo_iterate (nonneg : 0 ≤ value) (small : value * 1024 ^ power < 2 ^ 31) :
    kilo^[power] value = value * 1024 ^ power := by
  induction power with
  | zero => simp
  | succ power ih =>
    rw [pow_succ, ← mul_assoc] at small ⊢
    have positive : 0 ≤ value * 1024 ^ power := mul_nonneg nonneg (pow_nonneg (by decide) power)
    rw [Function.iterate_succ_apply', ih (by omega), kilo, wrap_32_of_range (by omega) (by omega)]

/-- A product of 1024 is still one behind the wrap. -/
theorem kilo_dvd (value : Int) : 1024 ∣ kilo value := by
  rw [kilo, wrap_eq_bmod, Int.bmod_def]
  split <;> omega

theorem unitPower_succ (unit_power : unitPower unit = some power) : ∃ less, power = less + 1 := by
  unfold unitPower at unit_power
  split_ifs at unit_power <;> cases unit_power <;> exact ⟨_, rfl⟩

/-- The bytes that a text denotes are those that its size stands for. -/
theorem Denotes.sizeInBytes (denotes : Denotes text bytes) : sizeInBytes text = bytes := by
  cases denotes with
  | bare num => exact if_pos num
  | @scaled digits unit power num unit_power =>
    have unscaled : ¬ isNum (digits ++ [unit]) = true := Bool.eq_false_iff.mp (isNum_scaled unit_power)
    rw [KvConf.sizeInBytes, if_neg unscaled]
    simp only [List.getLastD_concat, List.dropLast_concat]
    unfold unitPower at unit_power
    split_ifs at unit_power with first second third
    · cases unit_power
      rw [if_pos first, pow_one]
    · cases unit_power
      rw [if_neg first, if_pos second]
    · cases unit_power
      rw [if_neg first, if_neg second]

theorem strToBytes_lt (text : Text) : strToBytes text < 2 ^ 31 := by
  by_cases other : ∀ bytes, ¬ Denotes text bytes
  · rw [strToBytes_other other]
    decide
  push Not at other
  obtain ⟨bytes, denotes⟩ := other
  cases denotes with
  | bare num =>
    rw [strToBytes_bare num]
    exact atoi_lt text
  | @scaled digits unit power num unit_power =>
    rw [strToBytes_scaled num unit_power]
    obtain ⟨less, rfl⟩ := unitPower_succ unit_power
    rw [Function.iterate_succ_apply']
    exact (wrap_32_bounds _).2

/-- Bytes that fit an `int` are counted right. -/
theorem Denotes.counted (denotes : Denotes text bytes) (small : bytes < 2 ^ 31) : strToBytes text = bytes := by
  cases denotes with
  | bare num => rw [strToBytes_bare num, (atoi_eq_iff num).mpr small]
  | @scaled digits unit power num unit_power =>
    have fewer : number digits ≤ number digits * 1024 ^ power := Nat.le_mul_of_pos_right _ (Nat.pow_pos (by decide))
    rw [strToBytes_scaled num unit_power, (atoi_eq_iff num).mpr (by omega),
      kilo_iterate (by omega) (by exact_mod_cast small)]
    push_cast
    rfl

/-- A number that is read as -1. -/
theorem atoi_neg_iff (num : isNum digits = true) :
    atoi digits = -1 ↔ 2 ^ 63 - 1 ≤ number digits ∨ number digits % 2 ^ 32 = 2 ^ 32 - 1 := by
  rw [atoi_num num, wrap_eq_bmod, Int.bmod_def]
  split <;> omega

/-- A size with a unit is never read as -1. -/
theorem strToBytes_scaled_ne (num : isNum digits = true) (unit_power : unitPower unit = some power) :
    strToBytes (digits ++ [unit]) ≠ -1 := by
  rw [strToBytes_scaled num unit_power]
  obtain ⟨less, rfl⟩ := unitPower_succ unit_power
  rw [Function.iterate_succ_apply']
  have multiple := kilo_dvd (kilo^[less] (atoi digits))
  omega

/-- The size comes out as -1 or as the bytes that the text denotes, and as these where they fit an `int`. -/
def Exact (text : Text) : Prop :=
  (strToBytes text = -1 ∨ ∃ bytes : Nat, Denotes text bytes ∧ strToBytes text = bytes) ∧
    ∀ bytes : Nat, Denotes text bytes → bytes ≤ 2 ^ 31 - 1 → strToBytes text = bytes

/-- That is so exactly when the bytes fit an `int`, save for a number alone that `atoi` makes -1 of. -/
theorem exact_iff (text : Text) : Exact text ↔ ∀ bytes, Denotes text bytes →
    bytes < 2 ^ 31 ∨ isNum text = true ∧ (2 ^ 63 - 1 ≤ bytes ∨ bytes % 2 ^ 32 = 2 ^ 32 - 1) := by
  have upper := strToBytes_lt text
  constructor
  · rintro ⟨refused | ⟨bytes', denotes', same⟩, _⟩ bytes denotes
    · cases denotes with
      | bare num => exact .inr ⟨num, (atoi_neg_iff num).mp (by rw [← refused, strToBytes_bare num])⟩
      | scaled num unit_power => exact absurd refused (strToBytes_scaled_ne num unit_power)
    · have unique : bytes = bytes' := denotes.sizeInBytes.symm.trans denotes'.sizeInBytes
      exact .inl (by omega)
  · intro fits
    refine ⟨?_, fun bytes denotes small => denotes.counted (by omega)⟩
    by_cases other : ∀ bytes, ¬ Denotes text bytes
    · exact .inl (strToBytes_other other)
    push Not at other
    obtain ⟨bytes, denotes⟩ := other
    rcases fits bytes denotes with small | ⟨num, wraps⟩
    · exact .inr ⟨bytes, denotes, denotes.counted small⟩
    · cases denotes with
      | bare => exact .inl (by rw [strToBytes_bare num, (atoi_neg_iff num).mpr wraps])
      | scaled _ unit_power => rw [isNum_scaled unit_power] at num; cases num

/-- Four gigabytes are read as no byte at all. -/
theorem four_gigabytes_wrap : Denotes (ascii "4194304k") (2 ^ 32) ∧ strToBytes (ascii "4194304k") = 0 ∧
    ¬ Exact (ascii "4194304k") := by
  have unit : unitPower 107 = some 1 := rfl
  have denotes : Denotes (ascii "4194304" ++ [107]) (2 ^ 32) := .scaled rfl unit
  have none : strToBytes (ascii "4194304k") = 0 := by decide +kernel
  refine ⟨denotes, none, ?_⟩
  rintro ⟨refused | ⟨bytes, same, counted⟩, _⟩
  · rw [none] at refused
    exact absurd refused (by decide)
  · have unique := same.sizeInBytes.symm.trans denotes.sizeInBytes
    omega

end KvConf

end Pingkv
