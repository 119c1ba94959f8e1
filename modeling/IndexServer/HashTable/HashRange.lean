import IndexServer.HashTable.Sound
import Mathlib.Data.Nat.Digits.Defs

/-!
# The range of the hash function

Without overflow the loop of `hashFunction` computes the number whose digits to the base 33 are 5381
and the units of the key. The hash is that number in 64 bits. Its `abs` is negative for one residue,
and then so is the index, unless the size of the table is a power of two.
-/

namespace IndexServer

namespace HashTable

/-- The number with the units of the key as digits behind 5381. -/
def weight (key : WString) : ℕ := Nat.ofDigits 33 ((key.map UInt16.toNat).reverse ++ [5381])

theorem weight_concat (key : WString) (c : WChar) :
    weight (key ++ [c]) = 33 * weight key + c.toNat := by
  simp only [weight, List.map_append, List.map_cons, List.map_nil, List.reverse_append,
    List.reverse_cons, List.reverse_nil, List.nil_append, List.cons_append, Nat.ofDigits_cons]
  omega

theorem hash_concat (key : WString) (c : WChar) :
    hash (key ++ [c]) = wrap64 (33 * hash key + c.toNat) := by
  rw [hash, List.foldl_append]
  rfl

theorem wrap64_mul_add (x c : Int) : wrap64 (33 * wrap64 x + c) = wrap64 (33 * x + c) := by
  rw [wrap64, wrap64, ← Int.bmod_add_bmod, Int.mul_bmod_bmod, Int.bmod_add_bmod, wrap64]

theorem hash_eq_weight (key : WString) : hash key = wrap64 (weight key) := by
  induction key using List.reverseRecOn with
  | nil => decide
  | append_singleton key c ih =>
      rw [hash_concat, weight_concat, ih, wrap64_mul_add, Nat.cast_add, Nat.cast_mul]
      rfl

theorem wrap64_eq_least {x : Int} : wrap64 x = -(2 ^ 63) ↔ x % 2 ^ 64 = 2 ^ 63 := by
  rw [wrap64, Int.bmod_def]
  split <;> omega

/-- The keys whose hash has no `abs` are those of one residue. -/
theorem admissible_iff (key : WString) : Admissible key ↔ weight key % 2 ^ 64 ≠ 2 ^ 63 := by
  rw [Admissible, hash_eq_weight, Ne, wrap64_eq_least, Ne]
  norm_cast

theorem hashFunction_range_iff (key : WString) {tableSize : Int} (hsize : 1 ≤ tableSize) :
    (0 ≤ hashFunction key tableSize ∧ hashFunction key tableSize < tableSize) ↔
      (weight key % 2 ^ 64 ≠ 2 ^ 63 ∨ tableSize ∣ 2 ^ 63) := by
  obtain ⟨size, rfl⟩ := Int.eq_ofNat_of_zero_le (show 0 ≤ tableSize by omega)
  have husable : weight key % 2 ^ 64 ≠ 2 ^ 63 ∨ (size : Int) ∣ 2 ^ 63 ↔ Usable size key := by
    rw [Usable, admissible_iff]
    norm_cast
  rw [husable]
  constructor
  · rintro ⟨hnonneg, _⟩
    by_contra hnot
    have hneg := hashFunction_neg hnot
    omega
  · intro h
    have hlt : home size key < size := Bucket.bucket_lt magnitude (by omega) key
    rw [hashFunction_eq_home h]
    omega

theorem hashFunction_ten : 0 ≤ hashFunction [49, 48] 20 ∧ hashFunction [49, 48] 20 < 20 :=
  (hashFunction_range_iff [49, 48] (by decide)).mpr (.inl (by decide))

/-- The word "aieqwiofjzxjnr", for which `abs` has no value. -/
def leastWord : WString := [97, 105, 101, 113, 119, 105, 111, 102, 106, 122, 120, 106, 110, 114]

theorem leastWord_negative : hashFunction leastWord 20 = -8 ∧
    ¬ ∀ (key : WString) (tableSize : Int), 1 ≤ tableSize →
      0 ≤ hashFunction key tableSize ∧ hashFunction key tableSize < tableSize := by
  have hnegative : hashFunction leastWord 20 = -8 := by decide +kernel
  refine ⟨hnegative, fun h => ?_⟩
  have hrange := (h leastWord 20 (by decide)).1
  rw [hnegative] at hrange
  omega

end HashTable

end IndexServer
