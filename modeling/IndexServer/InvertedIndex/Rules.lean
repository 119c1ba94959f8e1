import IndexServer.InvertedIndex.Model

/-!
# What insertions and handlers keep

The loop of `add` and the handlers change an index in a few ways. What each of these keeps, a whole
call keeps.
-/

namespace IndexServer

namespace InvertedIndex

variable (Inv : InvertedIndex → Prop) {s s' : InvertedIndex}

/-- The rule for the loop of `add`. -/
theorem addWords_rule {sources words : List WString} (hpush : ∀ s e, Inv s → Inv (s.push e))
    (hword : ∀ s s' word id, Inv s → s.wordId word = .ok (s', id) → Inv s')
    (htable : ∀ s s' id code, Inv s → s.tableAdd id sources = .ok (s', code) → Inv s')
    (h : Inv s) (hrun : addWords sources words s = .ok s') : Inv s' := by
  induction words generalizing s with
  | nil =>
      cases hrun
      exact h
  | cons word rest ih =>
      obtain ⟨⟨s₁, id⟩, hid, hrun⟩ := Exec.bind_eq_ok.mp hrun
      have h₁ := hword s s₁ word id h hid
      cases id with
      | none =>
          cases hrun
          exact h₁
      | some id =>
          obtain ⟨⟨s₂, code⟩, hadd, hrun⟩ := Exec.bind_eq_ok.mp hrun
          have h₂ := htable s₁ s₂ id code h₁ hadd
          dsimp only at hrun
          split at hrun
          · cases hrun
            exact hpush s₂ _ h₂
          · exact ih h₂ hrun

/-- The rule for the handlers. -/
theorem handle_rule {e : Exception} {stored : ℕ} (hpush : ∀ s e, Inv s → Inv (s.push e))
    (htable : e = .fullTable → ∀ table code, s.table.increaseTable = .ok (table, code) →
      Inv { s with table })
    (hdictionary : e = .fullDict → ∀ dictionary code,
      s.dictionary.increaseTable = .ok (dictionary, code) → Inv { s with dictionary })
    (hsave : Inv { s with table := HashTable.new startSize }) (hclear : Inv s.clear)
    (h : Inv s) (hrun : s.handle stored e = .ok s') : Inv s' := by
  cases e with
  | ok | maxMemory =>
      cases hrun
      exact h
  | fullTable =>
      obtain ⟨⟨table, code⟩, hgrow, hrun⟩ := Exec.bind_eq_ok.mp hrun
      have hgrown := htable rfl table code hgrow
      cases hrun
      split
      · exact hgrown
      · exact hpush _ _ hgrown
  | fullDict =>
      obtain ⟨⟨dictionary, code⟩, hgrow, hrun⟩ := Exec.bind_eq_ok.mp hrun
      have hgrown := hdictionary rfl dictionary code hgrow
      cases hrun
      split
      · exact hgrown
      · exact hpush _ _ hgrown
  | maxTable =>
      cases hrun
      split
      · exact hpush _ .maxMemory hsave
      · exact hsave
  | maxDict =>
      cases hrun
      exact hclear

end InvertedIndex

end IndexServer
