import Mathlib.Algebra.BigOperators.Group.Finset.Piecewise
import Mathlib.Algebra.Order.BigOperators.Group.Finset
import Mathlib.Data.Fintype.BigOperators

/-!
# Tallies over processes

A family of processes gives every index a state. Weights on states add up to the tally of the
family, and a process that moves changes the tally by the difference of two weights. A weight of
zero or one counts the processes with a property.
-/

namespace Tally

variable {ι α : Type*} [Fintype ι]

/-- The sum of the weights of all processes. -/
def tally (weight : α → ℕ) (f : ι → α) : ℕ := ∑ i, weight (f i)

def count (p : α → Bool) (f : ι → α) : ℕ := tally (fun a => (p a).toNat) f

variable {weight weight' : α → ℕ} {p : α → Bool} {f g : ι → α}

theorem sum_add_eq {M : Type*} [AddCommMonoid M] [DecidableEq ι] {f g : ι → M} {i : ι}
    (h : ∀ j ≠ i, g j = f j) : ∑ j, g j + f i = ∑ j, f j + g i := by
  have hrest : ∑ j ∈ Finset.univ.erase i, g j = ∑ j ∈ Finset.univ.erase i, f j :=
    Finset.sum_congr rfl fun j hj => h j (Finset.ne_of_mem_erase hj)
  rw [← Finset.sum_erase_add Finset.univ g (Finset.mem_univ i),
    ← Finset.sum_erase_add Finset.univ f (Finset.mem_univ i), hrest, add_right_comm]

theorem tally_update [DecidableEq ι] (weight : α → ℕ) (f : ι → α) (i : ι) (a : α) :
    tally weight (Function.update f i a) + weight (f i) = tally weight f + weight a := by
  have hsum := sum_add_eq (f := fun j => weight (f j))
    (g := fun j => weight (Function.update f i a j)) (i := i)
    fun j hj => by rw [Function.update_of_ne hj]
  rwa [Function.update_self] at hsum

theorem tally_eq_zero : tally weight f = 0 ↔ ∀ i, weight (f i) = 0 := by
  simp [tally]

theorem tally_le (h : ∀ i, weight (f i) ≤ weight' (g i)) : tally weight f ≤ tally weight' g :=
  Finset.sum_le_sum fun i _ => h i

theorem le_tally (weight : α → ℕ) (f : ι → α) (i : ι) : weight (f i) ≤ tally weight f :=
  Finset.single_le_sum (f := fun j => weight (f j)) (fun _ _ => Nat.zero_le _) (Finset.mem_univ i)

/-- Where no weight is larger but the tally is not smaller, the weights are the same. -/
theorem eq_of_tally_le (h : ∀ i, weight (f i) ≤ weight' (g i))
    (hle : tally weight' g ≤ tally weight f) (i : ι) : weight (f i) = weight' (g i) := by
  have htally := le_antisymm (tally_le h) hle
  exact (Finset.sum_eq_sum_iff_of_le fun j _ => h j).mp htally i (Finset.mem_univ i)

theorem tally_option (weight : α → ℕ) (f : Option ι → α) :
    tally weight f = weight (f none) + tally weight fun i => f (some i) :=
  Fintype.sum_option _

end Tally
