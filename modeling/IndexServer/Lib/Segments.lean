import Mathlib.Algebra.BigOperators.Group.Finset.Basic
import Mathlib.Algebra.Order.BigOperators.Group.Finset
import Mathlib.Data.List.Basic

/-!
# Segments of a stream

A list is handed out in segments of given sizes, one after another. The segments taken so far make
up the front of the list, and a list that is put together from pieces of these sizes is handed out
in those pieces. If no size exceeds its bound, the totals agree only where all sizes do.
-/

namespace Segments

open Finset

variable {α : Type*} {l : List α} {sizes bounds : ℕ → ℕ} {pieces : List (List α)} {n w : ℕ}

def total (sizes : ℕ → ℕ) (n : ℕ) : ℕ := ∑ i ∈ range n, sizes i

def segment (l : List α) (sizes : ℕ → ℕ) (n : ℕ) : List α := (l.drop (total sizes n)).take (sizes n)

theorem total_succ (sizes : ℕ → ℕ) (n : ℕ) : total sizes (n + 1) = total sizes n + sizes n :=
  sum_range_succ sizes n

theorem total_succ' (sizes : ℕ → ℕ) (n : ℕ) :
    total sizes (n + 1) = sizes 0 + total (fun i => sizes (i + 1)) n :=
  (sum_range_succ' sizes n).trans (Nat.add_comm _ _)

theorem total_const (w n : ℕ) : total (fun _ => w) n = w * n := by
  rw [total, sum_const_nat fun _ _ => rfl, card_range, Nat.mul_comm]

theorem length_segment_le (l : List α) (sizes : ℕ → ℕ) (n : ℕ) :
    (segment l sizes n).length ≤ sizes n := List.length_take_le _ _

theorem flatMap_segment (l : List α) (sizes : ℕ → ℕ) (n : ℕ) :
    (List.range n).flatMap (segment l sizes) = l.take (total sizes n) := by
  induction n with
  | zero => rfl
  | succ n ih =>
      rw [List.range_succ, List.flatMap_append, List.flatMap_singleton, ih, total_succ, segment,
        List.take_add]

theorem segment_congr {sizes' : ℕ → ℕ} (h : ∀ i ≤ n, sizes i = sizes' i) :
    segment l sizes n = segment l sizes' n := by
  have htotal : total sizes n = total sizes' n :=
    sum_congr rfl fun i hi => h i (mem_range.mp hi).le
  rw [segment, segment, htotal, h n le_rfl]

/-- A list is handed out in the pieces it is made of, if these have the sizes. -/
theorem segment_flatten (h : ∀ i piece, pieces[i]? = some piece → piece.length = sizes i)
    {piece : List α} (hpiece : pieces[n]? = some piece) :
    segment pieces.flatten sizes n = piece := by
  induction pieces generalizing n sizes with
  | nil => cases hpiece
  | cons first rest ih =>
      have hfirst : first.length = sizes 0 := h 0 first rfl
      cases n with
      | zero =>
          cases hpiece
          rw [segment, ← hfirst]
          exact List.take_left
      | succ n =>
          have hlengths : ∀ i piece, rest[i]? = some piece → piece.length = sizes (i + 1) :=
            fun i piece hi => h (i + 1) piece hi
          have hrest := ih hlengths hpiece
          rw [segment, total_succ', ← hfirst, List.flatten_cons, List.drop_length_add_append]
          exact hrest

theorem total_le (h : ∀ i, sizes i ≤ bounds i) (n : ℕ) : total sizes n ≤ total bounds n :=
  sum_le_sum fun i _ => h i

theorem total_eq_iff (h : ∀ i, sizes i ≤ bounds i) :
    total sizes n = total bounds n ↔ ∀ i < n, sizes i = bounds i := by
  rw [total, total, sum_eq_sum_iff_of_le fun i _ => h i]
  simp only [mem_range]

/-! ### Pieces of one size -/

theorem exists_pieces {k : ℕ} (h : l.length = w * k) :
    ∃ pieces : List (List α), pieces.flatten = l ∧ pieces.length = k ∧
      ∀ piece ∈ pieces, piece.length = w := by
  induction k generalizing l with
  | zero =>
      refine ⟨[], ?_, rfl, List.forall_mem_nil _⟩
      rw [List.length_eq_zero_iff.mp h]
      rfl
  | succ k ih =>
      rw [Nat.mul_succ] at h
      obtain ⟨pieces, hflatten, hlength, hall⟩ := ih (l := l.drop w) (by
        rw [List.length_drop]
        omega)
      refine ⟨l.take w :: pieces, ?_, by rw [List.length_cons, hlength], ?_⟩
      · rw [List.flatten_cons, hflatten, List.take_append_drop]
      · refine List.forall_mem_cons.mpr ⟨?_, hall⟩
        rw [List.length_take]
        omega

theorem length_flatten (h : ∀ piece ∈ pieces, piece.length = w) :
    pieces.flatten.length = w * pieces.length := by
  rw [List.length_flatten, List.map_congr_left h, List.map_const', List.sum_replicate_nat,
    Nat.mul_comm]

end Segments
