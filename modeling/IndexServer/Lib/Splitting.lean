import Mathlib.Data.List.Infix

/-!
# Splitting at a delimiter

A list is cut at the first occurrence of a delimiter, and the rest behind it is cut again, until the
delimiter no longer occurs. The pieces are unique, contain no delimiter and give back the list when
they are joined. Joined pieces are cut where they were joined if no occurrence can overlap another,
that is, if no proper end of the delimiter is a beginning of it.
-/

namespace Splitting

variable {α : Type*} {d p s x y rest : List α} {pieces pieces' : List (List α)}

/-- The pieces of `s` between the occurrences of `d`, the first one first. -/
inductive Cuts (d : List α) : List α → List (List α) → Prop
  | last {s : List α} (hs : ¬ d <:+: s) : Cuts d s [s]
  | cons {p rest : List α} {pieces : List (List α)} (hp : ¬ d <:+: p ++ d.dropLast)
      (hrest : Cuts d rest pieces) : Cuts d (p ++ d ++ rest) (p :: pieces)

/-- No proper end of the list is a beginning of it. -/
def Unbordered (d : List α) : Prop := ∀ n < d.length, 0 < n → ¬ d.drop n <+: d

instance [DecidableEq α] (d : List α) : Decidable (Unbordered d) :=
  inferInstanceAs (Decidable (∀ n < d.length, _))

/-! ### Occurrences -/

theorem infix_iff_drop : d <:+: s ↔ ∃ q, d <+: s.drop q := by
  constructor
  · rintro ⟨front, back, rfl⟩
    exact ⟨front.length, by simp⟩
  · rintro ⟨q, hq⟩
    exact hq.isInfix.trans (List.drop_suffix q s).isInfix

theorem length_le_of_prefix_drop {q : ℕ} (hd : d ≠ []) (h : d <+: s.drop q) :
    q + d.length ≤ s.length := by
  have hle := h.length_le
  have hpos := List.length_pos_iff.mpr hd
  rw [List.length_drop] at hle
  omega

/-- Where a piece ends at the first occurrence, none begins in front of it. -/
theorem not_infix_of_first (hd : d ≠ []) (h : ∀ q < p.length, ¬ d <+: (p ++ d ++ rest).drop q) :
    ¬ d <:+: p ++ d.dropLast := by
  intro hoccurs
  obtain ⟨q, hq⟩ := infix_iff_drop.mp hoccurs
  have hle := length_le_of_prefix_drop hd hq
  have hpos := List.length_pos_iff.mpr hd
  rw [List.length_append, List.length_dropLast] at hle
  have hfront : p ++ d.dropLast <+: p ++ d ++ rest :=
    ((List.prefix_append_right_inj p).mpr (List.dropLast_prefix d)).trans (List.prefix_append _ _)
  exact h q (by omega) (hq.trans (hfront.drop q))

theorem length_le_of_first {p' rest' : List α} (hd : d ≠ []) (hp : ¬ d <:+: p ++ d.dropLast)
    (h : p ++ d ++ rest = p' ++ d ++ rest') : p.length ≤ p'.length := by
  by_contra hlt
  apply hp
  have hpos := List.length_pos_iff.mpr hd
  have hfront : p' ++ d <+: p ++ d.dropLast := by
    have hback : p' ++ d <+: p ++ d ++ rest := h ▸ List.prefix_append _ _
    apply List.prefix_of_prefix_length_le hback
    · exact ((List.prefix_append_right_inj p).mpr (List.dropLast_prefix d)).trans
        (List.prefix_append _ _)
    · simp only [List.length_append, List.length_dropLast]
      omega
  exact (List.suffix_append p' d).isInfix.trans hfront.isInfix

/-! ### The pieces -/

theorem Cuts.ne_nil (h : Cuts d s pieces) : pieces ≠ [] := by
  cases h <;> simp

theorem Cuts.intercalate (h : Cuts d s pieces) : d.intercalate pieces = s := by
  induction h with
  | last => simp
  | @cons p rest pieces _ hrest ih =>
      obtain ⟨q, more, rfl⟩ := List.exists_cons_of_ne_nil hrest.ne_nil
      rw [List.intercalate_cons_cons, ih]

theorem Cuts.first_prefix {first : List α} (h : Cuts d s (first :: pieces)) : first <+: s := by
  cases h with
  | last => exact List.prefix_refl _
  | cons => exact (List.prefix_append _ _).trans (List.prefix_append _ _)

theorem Cuts.free (h : Cuts d s pieces) : ∀ piece ∈ pieces, ¬ d <:+: piece := by
  induction h with
  | last hs => simpa using hs
  | cons hp _ ih =>
      intro piece hpiece
      rcases List.mem_cons.mp hpiece with rfl | hmem
      · exact fun hoccurs => hp (hoccurs.trans (List.prefix_append _ _).isInfix)
      · exact ih piece hmem

theorem Cuts.unique (hd : d ≠ []) (h : Cuts d s pieces) (h' : Cuts d s pieces') :
    pieces = pieces' := by
  induction h generalizing pieces' with
  | @last s hs =>
      generalize hs' : s = s' at h'
      cases h' with
      | last => rfl
      | @cons p rest more _ _ =>
          apply absurd _ hs
          rw [hs']
          exact ⟨p, rest, rfl⟩
  | @cons p rest pieces hp _ ih =>
      generalize hs' : p ++ d ++ rest = s' at h'
      cases h' with
      | last hfree => exact absurd ⟨p, rest, hs'⟩ hfree
      | @cons p' rest' more hp' hrest' =>
          have hlength : p.length = p'.length :=
            le_antisymm (length_le_of_first hd hp hs') (length_le_of_first hd hp' hs'.symm)
          rw [List.append_assoc, List.append_assoc] at hs'
          obtain ⟨rfl, hrest⟩ := List.append_inj hs' hlength
          rw [ih (List.append_cancel_left hrest ▸ hrest')]

/-! ### Delimiters that do not overlap themselves -/

/-- An occurrence that begins in a list ends in it. -/
theorem Unbordered.not_infix (hd : Unbordered d) (hx : ¬ d <:+: x) : ¬ d <:+: x ++ d.dropLast := by
  intro hoccurs
  obtain ⟨q, hq⟩ := infix_iff_drop.mp hoccurs
  have hne : d ≠ [] := by
    rintro rfl
    exact hx List.nil_infix
  have hle := length_le_of_prefix_drop hne hq
  have hpos := List.length_pos_iff.mpr hne
  rw [List.length_append, List.length_dropLast] at hle
  rw [List.drop_append_of_le_length (by omega)] at hq
  by_cases hinside : q + d.length ≤ x.length
  · apply hx
    apply infix_iff_drop.mpr ⟨q, ?_⟩
    apply List.prefix_of_prefix_length_le hq (List.prefix_append _ _)
    rw [List.length_drop]
    omega
  · -- the end of this occurrence is a beginning of the next one
    apply hd (x.length - q) (by omega) (by omega)
    have hdrop := hq.drop (x.length - q)
    rw [List.drop_left' (by rw [List.length_drop])] at hdrop
    exact hdrop.trans (List.dropLast_prefix d)

theorem Cuts.append (hd : Unbordered d) (hx : Cuts d x pieces) (hy : Cuts d y pieces') :
    Cuts d (x ++ d ++ y) (pieces ++ pieces') := by
  induction hx with
  | last hfree => exact .cons (hd.not_infix hfree) hy
  | @cons p rest pieces hp _ ih =>
      have hcut := Cuts.cons hp ih
      simpa only [List.append_assoc, List.cons_append] using hcut

/-- Pieces without the delimiter are what their join is cut into. -/
theorem cuts_intercalate (hd : Unbordered d) (hne : pieces ≠ [])
    (hfree : ∀ piece ∈ pieces, ¬ d <:+: piece) : Cuts d (d.intercalate pieces) pieces := by
  induction pieces with
  | nil => exact absurd rfl hne
  | cons p more ih =>
      have hp := hfree p List.mem_cons_self
      cases more with
      | nil => simpa using Cuts.last hp
      | cons q more =>
          have hrest := ih (List.cons_ne_nil q more) fun piece hpiece =>
            hfree piece (List.mem_cons_of_mem p hpiece)
          rw [List.intercalate_cons_cons]
          exact (Cuts.last hp).append hd hrest

end Splitting
