import IndexServer.StringFunctions
import IndexServer.Lib.Splitting

/-!
# What `split` returns

`split` returns the pieces between the occurrences of the delimiter, for every delimiter that is not
empty.
-/

namespace IndexServer

open Splitting

variable {s delimiter : WString} {pos p : ℕ} {pieces : List WString}

theorem find_first (h : find s delimiter pos = some p) :
    delimiter <+: s.drop p ∧ ∀ q, pos ≤ q → q < p → ¬ delimiter <+: s.drop q := by
  rw [find, List.find?_range_eq_some] at h
  obtain ⟨hfound, _, hbefore⟩ := h
  simp only [Bool.and_eq_true, decide_eq_true_eq, List.isPrefixOf_iff_prefix] at hfound
  refine ⟨hfound.2, fun q hpos hq hfront => ?_⟩
  have hnot := hbefore q hq
  simp [hpos, List.isPrefixOf_iff_prefix.mpr hfront] at hnot

theorem not_infix_of_find (hd : delimiter ≠ []) (h : find s delimiter pos = none) :
    ¬ delimiter <:+: s.drop pos := by
  intro hoccurs
  obtain ⟨q, hq⟩ := infix_iff_drop.mp hoccurs
  rw [List.drop_drop] at hq
  have hle := length_le_of_prefix_drop hd hq
  rw [find, List.find?_range_eq_none] at h
  have hnot := h (pos + q) (by omega)
  simp [List.isPrefixOf_iff_prefix.mpr hq] at hnot

/-- What is left is the next piece, the delimiter and what comes behind it. -/
theorem drop_of_find (h : find s delimiter pos = some p) :
    s.drop pos = substr s pos (p - pos) ++ delimiter ++ s.drop (p + delimiter.length) := by
  obtain ⟨hle, _⟩ := find_eq_some h
  obtain ⟨⟨after, hafter⟩, _⟩ := find_first h
  have hfront : (s.drop pos).drop (p - pos) = s.drop p := by
    rw [List.drop_drop, Nat.add_sub_cancel' hle]
  have hback : s.drop (p + delimiter.length) = after := by
    rw [← List.drop_drop, ← hafter, List.drop_left]
  rw [hback, List.append_assoc, hafter, ← hfront, substr, List.take_append_drop]

theorem piece_of_find (hd : delimiter ≠ []) (h : find s delimiter pos = some p) :
    ¬ delimiter <:+: substr s pos (p - pos) ++ delimiter.dropLast := by
  obtain ⟨hle, _⟩ := find_eq_some h
  obtain ⟨_, hfirst⟩ := find_first h
  have hnone : ∀ q < (substr s pos (p - pos)).length,
      ¬ delimiter <+: (substr s pos (p - pos) ++ delimiter ++
        s.drop (p + delimiter.length)).drop q := by
    intro q hq
    rw [substr, List.length_take, List.length_drop] at hq
    rw [← drop_of_find h, List.drop_drop]
    exact hfirst (pos + q) (by omega) (by omega)
  exact not_infix_of_first hd hnone

theorem splitLoop_cuts (hd : delimiter ≠ []) {fuel : ℕ} {res : List WString}
    (hpos : pos ≤ s.length) (hfuel : s.length - pos < fuel) :
    ∃ pieces, splitLoop s delimiter fuel pos res = .ok (res ++ pieces) ∧
      Cuts delimiter (s.drop pos) pieces := by
  induction fuel generalizing pos res with
  | zero => omega
  | succ fuel ih =>
      rw [splitLoop]
      cases hfind : find s delimiter pos with
      | none => exact ⟨[s.drop pos], rfl, .last (not_infix_of_find hd hfind)⟩
      | some posEnd =>
          obtain ⟨hle, hend⟩ := find_eq_some hfind
          have hdelimiter := List.length_pos_iff.mpr hd
          obtain ⟨pieces, hrest, hcuts⟩ : ∃ pieces, splitLoop s delimiter fuel
              (posEnd + delimiter.length) (res ++ [substr s pos (posEnd - pos)]) =
                .ok (res ++ [substr s pos (posEnd - pos)] ++ pieces) ∧
              Cuts delimiter (s.drop (posEnd + delimiter.length)) pieces := ih hend (by omega)
          refine ⟨substr s pos (posEnd - pos) :: pieces, ?_, ?_⟩
          · simpa only [List.append_assoc, List.singleton_append] using hrest
          · rw [drop_of_find hfind]
            exact .cons (piece_of_find hd hfind) hcuts

theorem exists_split (s : WString) (hd : delimiter ≠ []) :
    ∃ pieces, split s delimiter = .ok pieces ∧ Cuts delimiter s pieces :=
  splitLoop_cuts hd (Nat.zero_le _) (Nat.lt_succ_self _)

theorem split_eq_ok (hd : delimiter ≠ []) :
    split s delimiter = .ok pieces ↔ Cuts delimiter s pieces := by
  obtain ⟨found, hsplit, hcuts⟩ := exists_split s hd
  constructor
  · intro h
    rw [hsplit, Except.ok.injEq] at h
    exact h ▸ hcuts
  · intro h
    rw [hsplit, hcuts.unique hd h]

/-- `split` returns at least one token; the tokens contain no delimiter, and joined by it they give
back the string. -/
theorem split_tokens (s : WString) {delimiter : WString} (hd : delimiter ≠ []) :
    ∃ tokens, split s delimiter = .ok tokens ∧ tokens ≠ [] ∧ delimiter.intercalate tokens = s ∧
      ∀ token ∈ tokens, ¬ delimiter <:+: token := by
  obtain ⟨tokens, hsplit, hcuts⟩ := exists_split s hd
  exact ⟨tokens, hsplit, hcuts.ne_nil, hcuts.intercalate, hcuts.free⟩

/-- The delimiter overlaps itself, and its first occurrence counts. -/
theorem split_overlapping : split [97, 97, 97] [97, 97] = .ok [[], [97]] ∧
    ∃ tokens, split [97, 97, 97] [97, 97] = .ok tokens ∧ tokens ≠ [] ∧
      List.intercalate [97, 97] tokens = [97, 97, 97] ∧
        ∀ token ∈ tokens, ¬ [97, 97] <:+: token :=
  ⟨by decide, split_tokens [97, 97, 97] (List.cons_ne_nil _ _)⟩

end IndexServer
