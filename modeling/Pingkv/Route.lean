import Mathlib.Data.Int.ModEq
import Pingkv.Lib.Bytes

/-! How a key picks its server and its request queue: the hash of its bytes
over a wrapping 64-bit `long`, and the remainders the code takes of it. -/

namespace Pingkv

/-- A byte read through a `char*`, which is signed. -/
def signedChar (byte : UInt8) : Int := wrap 8 byte.toNat

/-- One turn of the loop of `hash_data`. -/
def hashStep (hash : Int) (byte : UInt8) : Int := wrap 64 (wrap 64 (hash * 1313) + signedChar byte)

def hashData (data : List UInt8) : Int := data.foldl hashStep data.length

/-- `kv_route::get_server_no`. The remainder is a `long` and is returned as an `int`. -/
def getServerNo (serverCount : Int) : Option (List UInt8) → Int
  | none => -1
  | some key => wrap 32 ((hashData key).tmod serverCount)

/-- The place in `_req_queue` that `kv_server::_cb_read_sock` takes for a request. -/
def requestQueue (fileCount : Int) (key : List UInt8) : Int := (hashData key).tmod fileCount

/-- The number a key spells in base 1313: its length, then its bytes. -/
def keyNumber (key : List UInt8) : Int :=
  key.foldl (fun number byte => number * 1313 + signedChar byte) key.length

theorem wrap_64_nonneg (value : Int) : 0 ≤ wrap 64 value ↔ value % 2 ^ 64 < 2 ^ 63 := by
  rw [wrap_eq_bmod, Int.bmod_def]
  omega

private theorem hashStep_wrap (number : Int) (byte : UInt8) :
    hashStep (wrap 64 number) byte = wrap 64 (number * 1313 + signedChar byte) := by
  simp only [hashStep, wrap_eq_bmod, Int.bmod_mul_bmod, Int.bmod_add_bmod]

private theorem foldl_hashStep (data : List UInt8) (number : Int) :
    data.foldl hashStep (wrap 64 number) =
      wrap 64 (data.foldl (fun number byte => number * 1313 + signedChar byte) number) := by
  induction data generalizing number with
  | nil => rfl
  | cons byte rest ih => rw [List.foldl_cons, List.foldl_cons, hashStep_wrap, ih]

/-- The hash is the number of the key, cut to 64 bits. -/
theorem hashData_eq {key : List UInt8} (small : key.length < 2 ^ 31) :
    hashData key = wrap 64 (keyNumber key) := by
  have exact : wrap 64 (key.length : Int) = key.length := by
    rw [wrap_eq_bmod, Int.bmod_eq_of_le (by omega) (by omega)]
  rw [hashData, keyNumber, ← foldl_hashStep, exact]

/-- The remainder of a C division lies in range unless a negative number leaves one. -/
theorem tmod_inside {value count : Int} (positive : 1 ≤ count) :
    (0 ≤ value.tmod count ∧ value.tmod count < count) ↔ 0 ≤ value ∨ count ∣ value := by
  have below : value.tmod count < count := Int.tmod_lt_of_pos value (by omega)
  constructor
  · rintro ⟨lower, _⟩
    by_cases nonneg : 0 ≤ value
    · exact .inl nonneg
    · have opposite := Int.tmod_nonneg count (show 0 ≤ -value by omega)
      rw [Int.neg_tmod] at opposite
      exact .inr (Int.dvd_iff_tmod_eq_zero.mpr (by omega))
  · rintro (nonneg | divides)
    · exact ⟨Int.tmod_nonneg count nonneg, below⟩
    · rw [Int.dvd_iff_tmod_eq_zero.mp divides] at below ⊢
      exact ⟨Int.le_refl 0, below⟩

theorem getServerNo_eq {serverCount : Int} (positive : 1 ≤ serverCount) (small : serverCount < 2 ^ 31)
    (key : List UInt8) : getServerNo serverCount (some key) = (hashData key).tmod serverCount := by
  have below : (hashData key).tmod serverCount < serverCount := Int.tmod_lt_of_pos _ (by omega)
  have above : (-hashData key).tmod serverCount < serverCount := Int.tmod_lt_of_pos _ (by omega)
  rw [Int.neg_tmod] at above
  exact wrap_32_of_range (by omega) (by omega)

/-- The server number and the request queue of a key both lie in range. -/
def RoutesInside (serverCount fileCount : Int) (key : List UInt8) : Prop :=
  (0 ≤ getServerNo serverCount (some key) ∧ getServerNo serverCount (some key) < serverCount) ∧
    0 ≤ requestQueue fileCount key ∧ requestQueue fileCount key < fileCount

instance (serverCount fileCount : Int) (key : List UInt8) :
    Decidable (RoutesInside serverCount fileCount key) := inferInstanceAs (Decidable (_ ∧ _))

/-- A key is routed into range exactly when its number has a clear sign bit, or
when both counts divide it. -/
theorem routesInside_iff {serverCount fileCount : Int} {key : List UInt8} (small : key.length < 2 ^ 31)
    (servers : 1 ≤ serverCount ∧ serverCount < 2 ^ 31) (files : 1 ≤ fileCount) :
    RoutesInside serverCount fileCount key ↔ keyNumber key % 2 ^ 64 < 2 ^ 63 ∨
      serverCount ∣ wrap 64 (keyNumber key) ∧ fileCount ∣ wrap 64 (keyNumber key) := by
  rw [RoutesInside, getServerNo_eq servers.1 servers.2, requestQueue, tmod_inside servers.1,
    tmod_inside files, hashData_eq small, ← wrap_64_nonneg, or_and_left]

theorem routesInside_one : RoutesInside 3 4 [49] := (routesInside_iff (by decide) (by decide) (by decide)).mpr
  (.inl (by decide +kernel))

/-- The six bytes of `aaaaaa` go to server -2 of 3 and to queue -4 of 16. -/
theorem six_letters_route_outside : getServerNo 3 (some [97, 97, 97, 97, 97, 97]) = -2 ∧
    requestQueue 16 [97, 97, 97, 97, 97, 97] = -4 ∧ ¬ RoutesInside 3 16 [97, 97, 97, 97, 97, 97] := by
  decide +kernel

end Pingkv
