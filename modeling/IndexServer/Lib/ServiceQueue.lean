import Mathlib.Data.List.Basic
import Mathlib.Data.List.Infix

/-!
# Accounts of a service queue

A queue is filled at its back and emptied at its front, and each removal is preceded by the reading
of one element, the one that is served. Whether the elements are served in the order in which they
came is then a question about each reading: it has to deliver the element that the removal drops.
-/

namespace ServiceQueue

variable {α : Type*}

/-- What has been pushed is what has been dropped followed by what waits, and the served elements
are as many as the dropped ones and the `reading` ones, which are read but not yet dropped. -/
def Account (queue pushed served : List α) (reading : Nat) : Prop :=
  ∃ dropped, pushed = dropped ++ queue ∧ served.length = dropped.length + reading

/-- The elements were served in the order in which they were pushed, each one once. -/
def InOrder (pushed served : List α) : Prop := served <+: pushed

variable {queue pushed served : List α} {reading : Nat}

theorem account_nil : Account ([] : List α) [] [] 0 := ⟨[], rfl, rfl⟩

theorem inOrder_nil : InOrder ([] : List α) [] := List.prefix_rfl

theorem Account.pushes (h : Account queue pushed served reading) (as : List α) :
    Account (queue ++ as) (pushed ++ as) served reading := by
  obtain ⟨dropped, rfl, hlen⟩ := h
  exact ⟨dropped, List.append_assoc _ _ _, hlen⟩

theorem Account.read (h : Account queue pushed served 0) (a : α) :
    Account queue pushed (served ++ [a]) 1 := by
  obtain ⟨dropped, hpushed, hlen⟩ := h
  exact ⟨dropped, hpushed, by simp [hlen]⟩

theorem Account.drop {a : α} (h : Account (a :: queue) pushed served 1) :
    Account queue pushed served 0 := by
  obtain ⟨dropped, rfl, hlen⟩ := h
  exact ⟨dropped ++ [a], by simp, by simp [hlen]⟩

theorem Account.inOrder_pushes_iff (h : Account queue pushed served reading)
    (hreading : reading ≤ queue.length) (as : List α) :
    InOrder (pushed ++ as) served ↔ InOrder pushed served := by
  obtain ⟨dropped, rfl, hlen⟩ := h
  have hle : served.length ≤ (dropped ++ queue).length := by
    simp only [List.length_append]
    omega
  constructor
  · exact fun hprefix => List.prefix_of_prefix_length_le hprefix (List.prefix_append _ _) hle
  · exact fun hprefix => hprefix.trans (List.prefix_append _ _)

/-- A reading keeps the order exactly when it delivers the front of the queue. -/
theorem Account.inOrder_read_iff (h : Account queue pushed served 0) (a : α) :
    InOrder pushed (served ++ [a]) ↔ InOrder pushed served ∧ queue.head? = some a := by
  obtain ⟨dropped, rfl, hlen⟩ := h
  rw [Nat.add_zero] at hlen
  constructor
  · intro hread
    have hserved : served <+: dropped ++ queue := (List.prefix_append _ _).trans hread
    have heq : served = dropped :=
      (List.prefix_of_prefix_length_le hserved (List.prefix_append _ _) hlen.le).eq_of_length hlen
    subst heq
    obtain ⟨rest, hrest⟩ := hread
    rw [List.append_assoc] at hrest
    have hqueue : [a] ++ rest = queue := List.append_cancel_left hrest
    exact ⟨hserved, by simp [← hqueue]⟩
  · rintro ⟨hserved, hhead⟩
    have heq : served = dropped :=
      (List.prefix_of_prefix_length_le hserved (List.prefix_append _ _) hlen.le).eq_of_length hlen
    subst heq
    obtain ⟨rest, rfl⟩ : ∃ rest, queue = a :: rest := by
      cases queue with
      | nil => simp at hhead
      | cons b rest => exact ⟨rest, by simpa using hhead⟩
    exact ⟨rest, by simp⟩

/-- With nothing being read, the order means that the served and the waiting elements together are
the pushed ones. -/
theorem Account.inOrder_iff (h : Account queue pushed served 0) :
    InOrder pushed served ↔ served ++ queue = pushed := by
  obtain ⟨dropped, rfl, hlen⟩ := h
  constructor
  · intro hserved
    have heq : served = dropped :=
      (List.prefix_of_prefix_length_le hserved (List.prefix_append _ _) hlen.le).eq_of_length hlen
    rw [heq]
  · exact fun heq => ⟨queue, heq⟩

end ServiceQueue
