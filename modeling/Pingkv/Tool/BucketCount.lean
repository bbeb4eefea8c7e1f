import Mathlib.Algebra.Order.Ring.Int
import Pingkv.Tool.Entries

/-! `hash_table::_make_bucket_count`: which numbers of buckets the doubling of an
`int` gets to, and for which it goes on forever. -/

namespace Pingkv

namespace Tool

namespace HashTable

/-- The loop returns a power of two. Where one that is not below `bucketCount` is an `int`, it returns such a
one from 128 on, and each hash masked with one less is the number of a bucket. -/
def Sizes (bucketCount : Int) : Prop := ∃ turns count, doubleUp bucketCount turns 128 = some count ∧
  (∃ k : Nat, count = 2 ^ k) ∧ ((∃ k : Nat, bucketCount ≤ 2 ^ k ∧ (2 : Int) ^ k < 2 ^ 31) →
    128 ≤ count ∧ bucketCount ≤ count ∧
      ∀ hash : Int64, 0 ≤ (hash &&& (Int64.ofInt count - 1)).toInt ∧ (hash &&& (Int64.ofInt count - 1)).toInt < count)

/-- The powers of two up to the largest one of an `int`. -/
theorem power_bounds {m : Nat} (small : m ≤ 30) : (0 : Int) < 2 ^ m ∧ (2 : Int) ^ m ≤ 2 ^ 30 :=
  ⟨pow_pos (by decide) m, pow_le_pow_right₀ (by decide) small⟩

/-- What the doubling gets to: the powers of two of an `int`, then the least `int`, then 0. -/
def Doubled (i : Int) : Prop := (∃ k ≤ 30, i = 2 ^ k) ∨ i = -2147483648 ∨ i = 0

theorem Doubled.twice {i : Int} (doubled : Doubled i) : Doubled (wrap 32 (i * 2)) := by
  rcases doubled with ⟨k, small, rfl⟩ | rfl | rfl
  · rcases Nat.lt_or_eq_of_le small with below | rfl
    · have next : (2 : Int) ^ k * 2 = 2 ^ (k + 1) := (pow_succ 2 k).symm
      obtain ⟨lower, upper⟩ := power_bounds (show k + 1 ≤ 30 from below)
      refine .inl ⟨k + 1, below, ?_⟩
      rw [next, wrap_32_of_range (by omega) (by omega)]
    · exact .inr (.inl (by decide))
  · exact .inr (.inr (by decide))
  · exact .inr (.inr (by decide))

theorem Doubled.le {i : Int} (doubled : Doubled i) : i ≤ 2 ^ 30 := by
  rcases doubled with ⟨k, small, rfl⟩ | rfl | rfl
  · exact (power_bounds small).2
  · decide
  · decide

private theorem doubleUp_doubled {bucketCount : Int} (large : 2 ^ 30 < bucketCount) (turns : Nat) : ∀ {i : Int}, Doubled i →
    doubleUp bucketCount turns i = none := by
  induction turns with
  | zero => exact fun _ => rfl
  | succ turns ih =>
    intro i doubled
    have below : i < bucketCount := Int.lt_of_le_of_lt doubled.le large
    rw [doubleUp, if_pos below]
    exact ih doubled.twice

/-- Past the largest power of two the loop never ends. -/
theorem doubleUp_none {bucketCount : Int} (large : 2 ^ 30 < bucketCount) (turns : Nat) :
    doubleUp bucketCount turns 128 = none :=
  doubleUp_doubled large turns (.inl ⟨7, by decide, rfl⟩)

/-- Up to there it ends at a power of two within the `int`s. -/
theorem doubleUp_some {bucketCount : Int} (small : bucketCount ≤ 2 ^ 30) (turns : Nat) : ∀ {k : Nat}, k ≤ 30 → 31 - k ≤ turns →
    ∃ m, k ≤ m ∧ m ≤ 30 ∧ bucketCount ≤ 2 ^ m ∧ doubleUp bucketCount turns (2 ^ k) = some (2 ^ m) := by
  induction turns with
  | zero =>
    intro k low enough
    omega
  | succ turns ih =>
    intro k low enough
    rw [doubleUp]
    by_cases below : (2 : Int) ^ k < bucketCount
    · have more : k < 30 := by
        refine Nat.lt_of_le_of_ne low fun last => ?_
        rw [last] at below
        omega
      obtain ⟨m, above, high, covers, ends⟩ := ih more (by omega)
      have next : (2 : Int) ^ k * 2 = 2 ^ (k + 1) := (pow_succ 2 k).symm
      obtain ⟨lower, upper⟩ := power_bounds (show k + 1 ≤ 30 from more)
      rw [if_pos below, next, wrap_32_of_range (by omega) (by omega)]
      exact ⟨m, by omega, high, covers, ends⟩
    · rw [if_neg below]
      exact ⟨k, Nat.le_refl k, low, by omega, rfl⟩

/-- `_make_bucket_count` returns exactly for the numbers up to the largest power of two. -/
theorem makeBucketCount_isSome_iff {bucketCount : Int} : (makeBucketCount bucketCount).isSome ↔ bucketCount ≤ 2 ^ 30 := by
  constructor
  · intro returns
    by_contra large
    rw [makeBucketCount, doubleUp_none (by omega)] at returns
    cases returns
  · intro small
    obtain ⟨m, _, _, _, ends⟩ := doubleUp_some small 32 (show 7 ≤ 30 by decide) (by decide)
    have ends : makeBucketCount bucketCount = some (2 ^ m) := ends
    rw [ends]
    rfl

/-- A power of two masks every hash to the number of a bucket. -/
theorem masked_inside {m : Nat} (small : m ≤ 30) (hash : Int64) :
    0 ≤ (hash &&& (Int64.ofInt (2 ^ m) - 1)).toInt ∧ (hash &&& (Int64.ofInt (2 ^ m) - 1)).toInt < 2 ^ m := by
  obtain ⟨lower, upper⟩ := power_bounds small
  have count : (Int64.ofInt (2 ^ m)).toInt = 2 ^ m := Int64.toInt_ofInt_of_le (by omega) (by omega)
  have mask : (Int64.ofInt (2 ^ m) - 1).toInt = 2 ^ m - 1 := by
    rw [Int64.toInt_sub_of_le _ _ (by decide) (Int64.le_iff_toInt_le.mpr (by rw [count]; exact lower)), count]
    rfl
  have inside := toInt_and_mem (Int64.ofInt (2 ^ m) - 1) (by omega) hash
  omega

/-- `_make_bucket_count` does what it is for up to the largest power of two of an `int`, and never returns past it. -/
theorem makeBucketCount_sizes_iff (bucketCount : Int) : Sizes bucketCount ↔ bucketCount ≤ 2 ^ 30 := by
  constructor
  · rintro ⟨turns, count, ends, _⟩
    by_contra large
    rw [doubleUp_none (by omega)] at ends
    cases ends
  · intro small
    obtain ⟨m, above, high, covers, ends⟩ := doubleUp_some small 32 (show 7 ≤ 30 by decide) (by decide)
    have large : (2 : Int) ^ 7 ≤ 2 ^ m := pow_le_pow_right₀ (by decide) above
    exact ⟨32, 2 ^ m, ends, ⟨m, rfl⟩, fun _ => ⟨large, covers, masked_inside high⟩⟩

/-- One more than the largest power of two: 0 is doubled again and again. -/
theorem doubling_never_ends : (∀ turns, doubleUp 1073741825 turns 128 = none) ∧ ¬ Sizes 1073741825 := by
  have never (turns : Nat) : doubleUp 1073741825 turns 128 = none := doubleUp_none (by decide) turns
  refine ⟨never, ?_⟩
  rintro ⟨turns, count, ends, _⟩
  rw [never] at ends
  cases ends

end HashTable

end Tool

end Pingkv
