import Mathlib.Algebra.Order.BigOperators.Group.Finset
import Mathlib.Data.Finset.Card
import Mathlib.Data.List.Induction

/-!
# Buckets of a hashed key

A key lies in the bucket given by its hash modulo the number of buckets. Doubling that number splits
every bucket into two, so a set of keys meets at most twice as many buckets as before. The positions
of a vector whose elements satisfy a predicate are counted as a finite set, and a write changes that
set at one position.
-/

namespace Bucket

variable {κ : Type*} (hash : κ → ℕ)

/-- The bucket of a key among `size` buckets. -/
def bucket (size : ℕ) (key : κ) : ℕ := hash key % size

theorem bucket_lt {size : ℕ} (hsize : 0 < size) (key : κ) : bucket hash size key < size :=
  Nat.mod_lt _ hsize

theorem bucket_double_mod (size : ℕ) (key : κ) :
    bucket hash (2 * size) key % size = bucket hash size key :=
  Nat.mod_mul_left_mod (hash key) 2 size

def buckets (size : ℕ) (keys : Finset κ) : Finset ℕ := keys.image (bucket hash size)

theorem mem_buckets {size i : ℕ} {keys : Finset κ} :
    i ∈ buckets hash size keys ↔ ∃ key ∈ keys, bucket hash size key = i :=
  Finset.mem_image

theorem card_buckets_le (size : ℕ) (keys : Finset κ) : (buckets hash size keys).card ≤ keys.card :=
  Finset.card_image_le

/-- Twice as many buckets: each old bucket is met by at most two new ones. -/
theorem card_buckets_double_le {size : ℕ} (hsize : 0 < size) (keys : Finset κ) :
    (buckets hash (2 * size) keys).card ≤ 2 * (buckets hash size keys).card := by
  have hmaps : ∀ i ∈ buckets hash (2 * size) keys, i % size ∈ buckets hash size keys := by
    intro i hi
    obtain ⟨key, hkey, rfl⟩ := (mem_buckets hash).mp hi
    rw [bucket_double_mod]
    exact (mem_buckets hash).mpr ⟨key, hkey, rfl⟩
  apply Finset.card_le_mul_card_image_of_maps_to hmaps 2
  intro j _
  have hsub : (buckets hash (2 * size) keys).filter (fun i => i % size = j) ⊆ {j, j + size} := by
    intro i hi
    obtain ⟨hmem, hij⟩ := Finset.mem_filter.mp hi
    obtain ⟨key, _, rfl⟩ := (mem_buckets hash).mp hmem
    have hlt : bucket hash (2 * size) key < 2 * size := bucket_lt hash (by omega) key
    have hdiv := Nat.div_add_mod (bucket hash (2 * size) key) size
    have hquot : bucket hash (2 * size) key / size < 2 := Nat.div_lt_of_lt_mul (by omega)
    rw [hij] at hdiv
    rw [Finset.mem_insert, Finset.mem_singleton]
    rcases Nat.le_one_iff_eq_zero_or_eq_one.mp (Nat.le_of_lt_succ hquot) with hzero | hone
    · left
      rw [hzero] at hdiv
      omega
    · right
      rw [hone] at hdiv
      omega
  exact (Finset.card_le_card hsub).trans Finset.card_le_two

/-! ### Positions of a vector -/

variable {α : Type*} {p : α → Bool} {v : List α}

/-- The positions of a vector that hold an element with the property. -/
def positions (p : α → Bool) (v : List α) : Finset ℕ :=
  (Finset.range v.length).filter fun i => (v[i]?).any p

theorem mem_positions {i : ℕ} : i ∈ positions p v ↔ ∃ a, v[i]? = some a ∧ p a := by
  rw [positions, Finset.mem_filter, Finset.mem_range, Option.any_eq_true]
  apply and_iff_right_of_imp
  rintro ⟨a, ha, _⟩
  exact (List.getElem?_eq_some_iff.mp ha).1

theorem card_positions (p : α → Bool) (v : List α) : (positions p v).card = v.countP p := by
  induction v using List.reverseRecOn with
  | nil => rfl
  | append_singleton v a ih =>
      have hfront : (Finset.range v.length).filter (fun i => ((v ++ [a])[i]?).any p) =
          positions p v := by
        apply Finset.filter_congr
        intro i hi
        rw [List.getElem?_append_left (Finset.mem_range.mp hi)]
      have hlast : v.length ∉ positions p v := by
        rw [mem_positions, List.getElem?_eq_none le_rfl]
        rintro ⟨a, ha, _⟩
        cases ha
      rw [positions, List.length_append, List.length_singleton, Finset.range_add_one,
        Finset.filter_insert, hfront, List.getElem?_concat_length, List.countP_append, ← ih,
        List.countP_singleton]
      by_cases ha : p a
      · rw [if_pos ha, Option.any_some, if_pos ha, Finset.card_insert_of_notMem hlast]
      · rw [if_neg ha, Option.any_some, if_neg ha, Nat.add_zero]

section write

variable {i : ℕ} {a : α}

theorem mem_positions_set {m : ℕ} (hm : m ∈ positions p (v.set i a)) :
    (m = i ∧ p a) ∨ (m ≠ i ∧ m ∈ positions p v) := by
  obtain ⟨b, hb, hpb⟩ := mem_positions.mp hm
  by_cases hmi : m = i
  · subst hmi
    have hlt := (List.getElem?_eq_some_iff.mp hb).1
    rw [List.length_set] at hlt
    rw [List.getElem?_set_self hlt, Option.some.injEq] at hb
    exact .inl ⟨rfl, hb ▸ hpb⟩
  · rw [List.getElem?_set_ne (Ne.symm hmi)] at hb
    exact .inr ⟨hmi, mem_positions.mpr ⟨b, hb, hpb⟩⟩

theorem positions_set_subset_insert : positions p (v.set i a) ⊆ insert i (positions p v) := by
  intro m hm
  rcases mem_positions_set hm with ⟨rfl, _⟩ | ⟨_, hold⟩
  · exact Finset.mem_insert_self _ _
  · exact Finset.mem_insert_of_mem hold

theorem positions_set_subset (h : p a → i ∈ positions p v) :
    positions p (v.set i a) ⊆ positions p v := by
  intro m hm
  rcases mem_positions_set hm with ⟨rfl, ha⟩ | ⟨_, hold⟩
  · exact h ha
  · exact hold

theorem positions_set_subset_erase (h : ¬ p a) :
    positions p (v.set i a) ⊆ (positions p v).erase i := by
  intro m hm
  rcases mem_positions_set hm with ⟨_, ha⟩ | ⟨hne, hold⟩
  · exact absurd ha h
  · exact Finset.mem_erase.mpr ⟨hne, hold⟩

theorem mem_positions_set_self (hlt : i < v.length) (ha : p a) : i ∈ positions p (v.set i a) :=
  mem_positions.mpr ⟨a, List.getElem?_set_self hlt, ha⟩

theorem mem_positions_set_ne {m : ℕ} (hne : m ≠ i) :
    m ∈ positions p (v.set i a) ↔ m ∈ positions p v := by
  rw [mem_positions, mem_positions, List.getElem?_set_ne (Ne.symm hne)]

theorem positions_set_eq_insert (hlt : i < v.length) (ha : p a) :
    positions p (v.set i a) = insert i (positions p v) := by
  ext m
  rw [Finset.mem_insert]
  by_cases hm : m = i
  · subst hm
    exact iff_of_true (mem_positions_set_self hlt ha) (.inl rfl)
  · rw [mem_positions_set_ne hm]
    exact (or_iff_right hm).symm

theorem positions_set_eq_self (hi : i ∈ positions p v) (ha : p a) :
    positions p (v.set i a) = positions p v := by
  obtain ⟨_, hb, _⟩ := mem_positions.mp hi
  rw [positions_set_eq_insert (List.getElem?_eq_some_iff.mp hb).1 ha, Finset.insert_eq_of_mem hi]

end write

end Bucket
