import Mathlib.Data.List.Basic
import Mathlib.Logic.Function.Basic

/-!
# Lists under keys

A multimap gives every key a list of values, and an insertion appends to the list of one key. A list
of insertions stands for the multimap that they make of an empty one.
-/

namespace Multimap

variable {κ β : Type*} [DecidableEq κ]

/-- The values go behind those that the key has. -/
def insert (m : κ → List β) (k : κ) (v : List β) : κ → List β := Function.update m k (m k ++ v)

theorem insert_apply (m : κ → List β) (k : κ) (v : List β) (k' : κ) :
    insert m k v k' = if k' = k then m k ++ v else m k' :=
  Function.update_apply m k (m k ++ v) k'

@[simp] theorem insert_self (m : κ → List β) (k : κ) (v : List β) : insert m k v k = m k ++ v :=
  Function.update_self k _ m

theorem insert_of_ne (m : κ → List β) {k k' : κ} (v : List β) (h : k' ≠ k) :
    insert m k v k' = m k' :=
  Function.update_of_ne h _ m

/-- What a list of insertions leaves under a key. -/
def collect (entries : List (κ × List β)) (k : κ) : List β :=
  (entries.filter fun e => decide (e.1 = k)).flatMap Prod.snd

@[simp] theorem collect_nil (k : κ) : collect ([] : List (κ × List β)) k = [] := rfl

theorem collect_append (first last : List (κ × List β)) (k : κ) :
    collect (first ++ last) k = collect first k ++ collect last k := by
  rw [collect, List.filter_append, List.flatMap_append]
  rfl

theorem collect_singleton (k : κ) (v : List β) (k' : κ) :
    collect [(k, v)] k' = if k' = k then v else [] := by
  by_cases h : k' = k
  · simp [collect, h]
  · simp [collect, h, Ne.symm h]

theorem collect_cons (k : κ) (v : List β) (rest : List (κ × List β)) (k' : κ) :
    collect ((k, v) :: rest) k' = (if k' = k then v else []) ++ collect rest k' := by
  rw [← List.singleton_append, collect_append, collect_singleton]

theorem collect_eq_nil_of_forall {entries : List (κ × List β)} {k : κ}
    (h : ∀ e ∈ entries, e.1 = k → e.2 = []) : collect entries k = [] := by
  rw [collect, List.flatMap_eq_nil_iff]
  intro e he
  obtain ⟨hmem, hkey⟩ := List.mem_filter.mp he
  exact h e hmem (of_decide_eq_true hkey)

end Multimap
