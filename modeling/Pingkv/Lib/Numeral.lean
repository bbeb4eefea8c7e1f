import Mathlib.Data.Nat.Digits.Lemmas

/-! Numerals in some base: strings of symbols, the first of which counts most. -/

namespace Numeral

variable {α : Type} {base : Nat} {symbol : Nat → α} {worth : α → Nat} {s t : List α} {n : Nat}

/-- The numeral of a number, without leading zeros; 0 has no symbols. -/
def numeral (base : Nat) (symbol : Nat → α) (n : Nat) : List α := ((Nat.digits base n).map symbol).reverse

/-- The number a numeral stands for. -/
def value (base : Nat) (worth : α → Nat) (s : List α) : Nat := s.foldl (fun value c => value * base + worth c) 0

theorem value_append_singleton (c : α) : value base worth (s ++ [c]) = value base worth s * base + worth c := by
  simp [value]

theorem value_eq_ofDigits : value base worth s = Nat.ofDigits base (s.reverse.map worth) := by
  induction s using List.reverseRecOn with
  | nil => rfl
  | append_singleton s c ih =>
    rw [value_append_singleton, ih, List.reverse_append, List.reverse_singleton, List.singleton_append, List.map_cons,
      Nat.ofDigits_cons, Nat.mul_comm, Nat.add_comm]

theorem numeral_zero : numeral base symbol 0 = [] := by simp [numeral]

/-- The last symbol is the remainder, and the ones before it are those of the quotient. -/
theorem numeral_div (two : 1 < base) (positive : 0 < n) :
    numeral base symbol n = numeral base symbol (n / base) ++ [symbol (n % base)] := by
  rw [numeral, Nat.digits_def' two positive, List.map_cons, List.reverse_cons]
  rfl

theorem length_numeral_le (two : 1 < base) {length : Nat} : (numeral base symbol n).length ≤ length ↔ n < base ^ length := by
  rw [numeral, List.length_reverse, List.length_map, Nat.digits_length_le_iff two]

theorem mem_numeral (two : 1 < base) {c : α} (member : c ∈ numeral base symbol n) : ∃ d < base, symbol d = c := by
  obtain ⟨d, digit, rfl⟩ := List.mem_map.mp (List.mem_reverse.mp member)
  exact ⟨d, Nat.digits_lt_base two digit, rfl⟩

theorem value_numeral (two : 1 < base) (inverse : ∀ d < base, worth (symbol d) = d) (n : Nat) :
    value base worth (numeral base symbol n) = n := by
  have digits : ((Nat.digits base n).map symbol).map worth = Nat.digits base n := by
    rw [List.map_map]
    exact (List.map_congr_left fun d digit => inverse d (Nat.digits_lt_base two digit)).trans (List.map_id _)
  rw [value_eq_ofDigits, numeral, List.reverse_reverse, digits, Nat.ofDigits_digits]

/-- A string of symbols that does not begin with a zero is the numeral of its value. -/
theorem numeral_value (two : 1 < base) (inside : ∀ c ∈ s, worth c < base ∧ symbol (worth c) = c)
    (leading : ∀ c ∈ s.head?, worth c ≠ 0) : numeral base symbol (value base worth s) = s := by
  have digits : Nat.digits base (value base worth s) = s.reverse.map worth := by
    rw [value_eq_ofDigits]
    apply Nat.digits_ofDigits _ two
    · intro d member
      obtain ⟨c, there, rfl⟩ := List.mem_map.mp member
      exact (inside c (List.mem_reverse.mp there)).1
    · intro some
      cases s with
      | nil => exact absurd rfl some
      | cons c rest =>
        simp only [List.reverse_cons, List.map_append, List.map_cons, List.map_nil, List.getLast_append_singleton]
        exact leading c rfl
  rw [numeral, digits, List.map_map, List.map_reverse, List.reverse_reverse]
  exact (List.map_congr_left fun c member => (inside c member).2).trans (List.map_id _)

end Numeral
