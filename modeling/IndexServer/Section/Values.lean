import IndexServer.Section.Model
import IndexServer.StringFunctions.Split

/-!
# The text of a list of values

`writeVectorToString` puts a delimiter behind each value, and `split` cuts between delimiters, so
behind the values stands one more piece, which is empty.
-/

namespace IndexServer

open Splitting

namespace HashTable

variable {vector : List WString}

theorem delimiter_ne_nil : delimiter ≠ [] := List.cons_ne_nil _ _

theorem delimiter_unbordered : Unbordered delimiter := by decide

theorem intercalate_concat_nil (vector : List WString) :
    delimiter.intercalate (vector ++ [[]]) = writeVectorToString vector := by
  rw [writeVectorToString]
  induction vector with
  | nil => rfl
  | cons value rest ih =>
      obtain ⟨next, more, hnext⟩ := List.exists_cons_of_ne_nil (show rest ++ [[]] ≠ [] by simp)
      rw [List.cons_append, hnext, List.intercalate_cons_cons, ← hnext, ih, List.flatMap_cons]

theorem split_writeVectorToString (hfree : ∀ value ∈ vector, ¬ delimiter <:+: value) :
    split (writeVectorToString vector) delimiter = .ok (vector ++ [[]]) := by
  rw [split_eq_ok delimiter_ne_nil, ← intercalate_concat_nil]
  apply cuts_intercalate delimiter_unbordered (by simp)
  intro piece hpiece
  rcases List.mem_append.mp hpiece with hvalue | hlast
  · exact hfree piece hvalue
  · rw [List.mem_singleton.mp hlast]
    decide

theorem length_writeVectorToString (vector : List WString) :
    (writeVectorToString vector).length = joinedLength delimiter vector := by
  simp only [writeVectorToString, List.length_flatMap, joinedLength, List.length_append]

/-- No list is read back from its text: the pieces are longer by one delimiter. -/
theorem split_writeVectorToString_ne (vector : List WString) :
    split (writeVectorToString vector) delimiter ≠ .ok vector := by
  intro hsplit
  have hlength := split_length hsplit
  rw [length_writeVectorToString] at hlength
  have htwelve : delimiter.length = 12 := rfl
  omega

theorem oneValue_not_read_back :
    split (writeVectorToString [[97]]) delimiter = .ok [[97], []] ∧
      ¬ ∀ vector : List WString, (∀ value ∈ vector, ¬ delimiter <:+: value) →
        split (writeVectorToString vector) delimiter = .ok vector := by
  refine ⟨by decide, fun h => ?_⟩
  have hread := h [[97]] (by decide)
  exact absurd hread (by decide)

end HashTable

end IndexServer
