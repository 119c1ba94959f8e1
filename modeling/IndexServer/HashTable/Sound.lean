import IndexServer.HashTable.Model
import IndexServer.Lib.Bucket
import Mathlib.Data.Nat.Prime.Basic

/-!
# Where keys lie, and the accesses of a sound table

A sound table keeps its vectors in step with its size, puts the head of every occupied cell where
its key hashes to, and links an occupied cell to nothing or to a collision entry of the same cell.
In a sound table every locked section reads and writes inside the vectors.
-/

namespace IndexServer

namespace HashTable

def magnitude (key : WString) : ℕ := (hash key).natAbs

abbrev home (size : ℕ) (key : WString) : ℕ := Bucket.bucket magnitude size key

theorem hash_range (key : WString) : -(2 ^ 63) ≤ hash key ∧ hash key < 2 ^ 63 := by
  rcases List.eq_nil_or_concat key with rfl | ⟨front, c, rfl⟩
  · decide
  · rw [hash, List.concat_eq_append, List.foldl_append]
    exact wrap64_range _

theorem admissible_nil : Admissible [] := by decide

/-- The key has a cell in a table of the given size: `hashFunction` is not negative. -/
def Usable (size : ℕ) (key : WString) : Prop := Admissible key ∨ size ∣ 2 ^ 63

theorem hashFunction_eq_home {size : ℕ} {key : WString} (hkey : Usable size key) :
    hashFunction key size = home size key := by
  obtain ⟨hlow, hhigh⟩ := hash_range key
  by_cases hleast : hash key = -(2 ^ 63)
  · have hdvd : size ∣ 2 ^ 63 := hkey.resolve_left (not_not_intro hleast)
    have hdvd' : (size : Int) ∣ -(2 ^ 63) := by
      rw [Int.dvd_neg]
      exact_mod_cast hdvd
    have habs : abs64 (-(2 ^ 63)) = -(2 ^ 63) := by decide
    have hhome : home size key = 0 := by
      rw [home, Bucket.bucket, magnitude, hleast]
      exact Nat.mod_eq_zero_of_dvd hdvd
    rw [hashFunction, hleast, habs, hhome, Int.tmod_eq_zero_of_dvd hdvd']
    rfl
  · have habs : abs64 (hash key) = ((hash key).natAbs : ℕ) := by
      rw [abs64, wrap64_eq_self] <;> omega
    rw [hashFunction, habs, Int.tmod_eq_emod_of_nonneg (Int.natCast_nonneg _)]
    exact (Int.natCast_mod _ _).symm

theorem hashFunction_neg {size : ℕ} {key : WString} (hkey : ¬ Usable size key) :
    hashFunction key size < 0 := by
  rw [Usable, not_or, Admissible, not_not] at hkey
  obtain ⟨hleast, hdvd⟩ := hkey
  have habs : abs64 (-(2 ^ 63)) = -(2 ^ 63) := by decide
  have hcast : (2 ^ 63 : Int).tmod size = ((2 ^ 63 % size : ℕ) : Int) := by
    rw [Int.tmod_eq_emod_of_nonneg (by decide)]
    norm_cast
  have hpos : 0 < 2 ^ 63 % size := Nat.pos_of_ne_zero fun h => hdvd (Nat.dvd_of_mod_eq_zero h)
  rw [hashFunction, hleast, habs, Int.neg_tmod, hcast]
  omega

/-- A table that may still grow has no key without a cell in the larger table. -/
theorem Usable.double {size : ℕ} (hsmall : 2 * size < maxCapacity) {key : WString}
    (hkey : Usable size key) : Usable (2 * size) key := by
  apply hkey.imp_right
  intro hdvd
  obtain ⟨k, hk, rfl⟩ := (Nat.dvd_prime_pow Nat.prime_two).mp hdvd
  rw [← pow_succ']
  refine pow_dvd_pow 2 (Nat.lt_of_le_of_ne hk ?_)
  rintro rfl
  exact absurd hsmall (by decide)

/-! ### Mutexes -/

def Locks (T : HashTable) : Prop := 0 < T.itemsMutexesSize ∧ T.itemsMutexes = T.itemsMutexesSize

theorem Locks.getMutexIndex_range {T : HashTable} (hT : T.Locks) (i : ℕ) :
    0 ≤ T.getMutexIndex i ∧ T.getMutexIndex i < T.itemsMutexes := by
  obtain ⟨hpos, heq⟩ := hT
  have hdiv : (0 : Int) ≤ (i : Int) / itemsSizeOnItemsMutexRatio := Int.natCast_nonneg _
  unfold getMutexIndex
  dsimp only
  split <;> omega

theorem Locks.readCell_eq {T : HashTable} (hT : T.Locks) {i : ℕ} {cell : HashItem}
    (hcell : T.items[i]? = some cell) : T.readCell i = .ok cell := by
  rw [readCell, lockMutex, if_pos (hT.getMutexIndex_range i)]
  exact vectorGet_natCast hcell

theorem Locks.modifyCell_eq {T : HashTable} (hT : T.Locks) {i : ℕ} {cell : HashItem}
    (hcell : T.items[i]? = some cell) (f : HashItem → HashItem) :
    T.modifyCell i f = .ok { T with items := T.items.set i (f cell) } := by
  have hlt : i < T.items.length := (List.getElem?_eq_some_iff.mp hcell).1
  rw [modifyCell, lockMutex, if_pos (hT.getMutexIndex_range i), vectorGet_natCast hcell,
    Exec.ok_bind, Exec.ok_bind, vectorSet_natCast hlt]
  rfl

theorem readCell_of_neg {T : HashTable} {index : Int} (hneg : index < 0) :
    T.readCell index = .error .outOfRange := by
  have hdiv : index / itemsSizeOnItemsMutexRatio < 0 := Int.ediv_neg_of_neg_of_pos hneg (by decide)
  have hmutex : T.getMutexIndex index < 0 := by
    unfold getMutexIndex
    dsimp only
    rw [if_neg (by omega)]
    exact hdiv
  rw [readCell, lockMutex, if_neg (by omega)]
  rfl

/-! ### Sound tables -/

structure Sound (T : HashTable) : Prop where
  size_pos : 0 < T.size
  items_length : T.items.length = T.size
  locks : T.Locks
  idle : T.busyThreadCount = 0
  cell_usable : ∀ (i : ℕ) (cell : HashItem), T.items[i]? = some cell → Usable T.size cell.key
  cell_home : ∀ (i : ℕ) (cell : HashItem), T.items[i]? = some cell → cell.value ≠ [] →
    home T.size cell.key = i
  cell_next : ∀ (i : ℕ) (cell : HashItem), T.items[i]? = some cell → cell.value ≠ [] →
    cell.next = -1 ∨ ∃ (j : ℕ) (entry : HashItem),
      cell.next = (j : Int) ∧ T.colisions[j]? = some entry ∧ home T.size entry.key = i ∧
        entry.key ≠ cell.key
  entry_usable : ∀ entry ∈ T.colisions, Usable T.size entry.key
  entry_next : ∀ entry ∈ T.colisions, entry.next = -1

theorem new_getElem? {n i : ℕ} {cell : HashItem} (h : (new n).items[i]? = some cell) :
    cell = ⟨[], [], -1, -1⟩ := by
  have hmem : cell ∈ createNewVector n := List.mem_of_getElem? h
  exact List.eq_of_mem_replicate hmem

theorem new_sound {n : ℕ} (hn : 1 ≤ n) : (new n).Sound where
  size_pos := hn
  items_length := List.length_replicate
  locks := by
    refine ⟨?_, rfl⟩
    change 0 < if n < 32 then 1 else n / 32
    split <;> omega
  idle := rfl
  cell_usable i cell h := by
    rw [new_getElem? h]
    exact .inl admissible_nil
  cell_home i cell h hvalue := absurd (by rw [new_getElem? h]) hvalue
  cell_next i cell h hvalue := absurd (by rw [new_getElem? h]) hvalue
  entry_usable _ h := absurd h List.not_mem_nil
  entry_next _ h := absurd h List.not_mem_nil

namespace Sound

variable {T : HashTable} (hT : T.Sound)
include hT

theorem home_lt (key : WString) : home T.size key < T.items.length := by
  rw [hT.items_length]
  exact Bucket.bucket_lt magnitude hT.size_pos key

theorem exists_cell (key : WString) : ∃ cell, T.items[home T.size key]? = some cell :=
  ⟨_, List.getElem?_eq_getElem (hT.home_lt key)⟩

end Sound

end HashTable

end IndexServer
