import IndexServer.InvertedIndex.Rules
import IndexServer.HashTable.WellFormed
import IndexServer.HashTable.Values
import Mathlib.Logic.Relator

/-!
# Ids of words

Every id that the dictionary stores under a word was made for that word from a value that the
counter has passed, so no two words share one. Insertions of new words keep it so, and clearing
does; a growth of the dictionary does unless it re-adds a word that it finds behind the head of a
cell, whose ids then end up under the word of that head.
-/

namespace IndexServer

open HashTable

/-- The ids in a dictionary were made from smaller numbers than `n`, each one for one word. -/
structure Numbered (dictionary : HashTable) (n : ℕ) : Prop where
  sound : dictionary.Sound
  filled : dictionary.Entries fun _ value => value ≠ []
  ids : ∃ R : WString → WString → Prop, dictionary.Within R ∧ Relator.LeftUnique R ∧
    ∀ word id, R word id → ∃ m < n, id = toWString m

/-- A dictionary that stores ids under words as `R` relates them, and all that `Numbered` asks. -/
structure Named (R : WString → WString → Prop) (dictionary : HashTable) (n : ℕ) : Prop where
  sound : dictionary.Sound
  filled : dictionary.Entries fun _ value => value ≠ []
  within : dictionary.Within R
  unique : Relator.LeftUnique R
  bound : ∀ word id, R word id → ∃ m < n, id = toWString m

theorem numbered_iff {dictionary : HashTable} {n : ℕ} :
    Numbered dictionary n ↔ ∃ R, Named R dictionary n := by
  constructor
  · rintro ⟨hsound, hfilled, R, hwithin, hunique, hbound⟩
    exact ⟨R, hsound, hfilled, hwithin, hunique, hbound⟩
  · rintro ⟨R, hsound, hfilled, hwithin, hunique, hbound⟩
    exact ⟨hsound, hfilled, R, hwithin, hunique, hbound⟩

namespace Named

variable {R : WString → WString → Prop} {dictionary dictionary' : HashTable} {n : ℕ}

theorem new {size : ℕ} (hsize : 1 ≤ size) (n : ℕ) :
    Named (fun _ _ => False) (HashTable.new size) n where
  sound := new_sound hsize
  filled := entries_new _ size
  within := new_within _ size
  unique _ _ _ h := h.elim
  bound _ _ h := h.elim

theorem not_next (h : Named R dictionary n) (word : WString) : ¬ R word (toWString n) := by
  intro hword
  obtain ⟨m, hm, hsame⟩ := h.bound word _ hword
  exact absurd (toWString_injective hsame) (Nat.ne_of_gt hm)

theorem insert (h : Named R dictionary n) {word : WString} {code : ℕ}
    (hresult : AddResult dictionary word [toWString n] dictionary' code)
    (husable : Usable dictionary.size word)
    (hguard : ¬ dictionary.Chained word [toWString n]) :
    Named (fun w id => R w id ∨ (w = word ∧ id = toWString n)) dictionary' (n + 1) where
  sound := hresult.sound h.sound husable
  filled := hresult.entries h.filled (List.cons_ne_nil _ _)
  within := by
    refine hresult.within (h.within.mono fun _ _ => .inl) (fun x hx => ?_) hguard
    exact .inr ⟨rfl, List.mem_singleton.mp hx⟩
  unique := by
    rintro w₁ w₂ id (h₁ | ⟨rfl, rfl⟩) (h₂ | ⟨rfl, hid⟩)
    · exact h.unique h₁ h₂
    · exact absurd (hid ▸ h₁) (h.not_next w₁)
    · exact absurd h₂ (h.not_next w₂)
    · rfl
  bound := by
    rintro w id (hold | ⟨_, rfl⟩)
    · obtain ⟨m, hm, hid⟩ := h.bound w id hold
      exact ⟨m, Nat.lt_succ_of_lt hm, hid⟩
    · exact ⟨n, Nat.lt_succ_self n, rfl⟩

theorem increaseTable (h : Named R dictionary n) {code : ℕ}
    (hguard : EachAdd (fun T key value => ¬ T.Chained key value) dictionary .increaseTable)
    (hgrow : dictionary.increaseTable = .ok (dictionary', code)) : Named R dictionary' n := by
  obtain ⟨hsound, hfilled⟩ := h.sound.increaseTable_entries joins_filled h.filled hgrow
  exact ⟨hsound, hfilled, h.sound.increaseTable_within h.within hguard hgrow, h.unique, h.bound⟩

theorem get_first (h : Named R dictionary n) {word id : WString} {rest : List WString}
    (hget : dictionary.get word = .ok (id :: rest)) : R word id :=
  h.sound.get_within h.within hget List.mem_cons_self

end Named

namespace Numbered

variable {dictionary dictionary' : HashTable} {n : ℕ}

theorem new {size : ℕ} (hsize : 1 ≤ size) (n : ℕ) : Numbered (HashTable.new size) n :=
  numbered_iff.mpr ⟨_, Named.new hsize n⟩

theorem insert (h : Numbered dictionary n) {word : WString} {code : ℕ}
    (hresult : AddResult dictionary word [toWString n] dictionary' code)
    (husable : Usable dictionary.size word)
    (hguard : ¬ dictionary.Chained word [toWString n]) : Numbered dictionary' (n + 1) := by
  obtain ⟨R, hnamed⟩ := numbered_iff.mp h
  exact numbered_iff.mpr ⟨_, hnamed.insert hresult husable hguard⟩

theorem increaseTable (h : Numbered dictionary n) {code : ℕ}
    (hguard : EachAdd (fun T key value => ¬ T.Chained key value) dictionary .increaseTable)
    (hgrow : dictionary.increaseTable = .ok (dictionary', code)) : Numbered dictionary' n := by
  obtain ⟨R, hnamed⟩ := numbered_iff.mp h
  exact numbered_iff.mpr ⟨R, hnamed.increaseTable hguard hgrow⟩

theorem first_ne (h : Numbered dictionary n) {word₁ word₂ id₁ id₂ : WString}
    {rest₁ rest₂ : List WString} (hne : word₁ ≠ word₂)
    (hget₁ : dictionary.get word₁ = .ok (id₁ :: rest₁))
    (hget₂ : dictionary.get word₂ = .ok (id₂ :: rest₂)) : id₁ ≠ id₂ := by
  obtain ⟨R, hnamed⟩ := numbered_iff.mp h
  rintro rfl
  exact hne (hnamed.unique (hnamed.get_first hget₁) (hnamed.get_first hget₂))

end Numbered

namespace InvertedIndex

variable {s s' : InvertedIndex}

theorem dictionaryAdd_eq {word strLong : WString} {dictionary : HashTable} {code : ℕ}
    (hadd : s.dictionary.add word [strLong] = .ok (dictionary, code)) :
    s.dictionaryAdd word strLong = .ok ({ s with dictionary }, code) := by
  rw [dictionaryAdd, hadd]
  rfl

theorem dictionaryException_cases {T T' : HashTable} {key : WString}
    {value : List WString} {code : ℕ} (h : AddResult T key value T' code) :
    (code = 0 ∧ dictionaryException code = none) ∨
      (code ≠ 0 ∧ ∃ e, dictionaryException code = some e) := by
  cases h with
  | maxed => exact .inr ⟨by decide, _, rfl⟩
  | full => exact .inr ⟨by decide, _, rfl⟩
  | _ => exact .inl ⟨rfl, rfl⟩

/-- The id of a word is found, or made, or refused. -/
theorem wordId_cases (hs : s.dictionary.Sound) {word : WString} {id : Option WString}
    (hrun : s.wordId word = .ok (s', id)) :
    (∃ found rest, s.dictionary.get word = .ok (found :: rest) ∧ s' = s ∧ id = some found) ∨
    (Usable s.dictionary.size word ∧ s.dictionary.lookup word = [] ∧
      ∃ dictionary' code,
        AddResult s.dictionary word [toWString s.dictIdCounter] dictionary' code ∧
        ((s' = { s with dictionary := dictionary' }.countId ∧
            id = some (toWString s.dictIdCounter)) ∨
          (∃ e, s' = s.push e) ∧ id = none)) := by
  by_cases husable : Usable s.dictionary.size word
  · have hget : s.dictionary.get word = .ok (s.dictionary.lookup word) := hs.get_eq husable
    rw [wordId, hget, Exec.ok_bind] at hrun
    cases hfound : s.dictionary.lookup word with
    | nil =>
        obtain ⟨dictionary', code, hadd, hresult⟩ :=
          hs.add_result husable [toWString s.dictIdCounter]
        rw [hfound, if_pos (by rfl)] at hrun
        dsimp only at hrun
        rw [dictionaryAdd_eq hadd, Exec.ok_bind] at hrun
        refine .inr ⟨husable, rfl, dictionary', code, hresult, ?_⟩
        rcases dictionaryException_cases hresult with ⟨_, hnone⟩ | ⟨hcode, e, hsome⟩
        · simp only [hnone] at hrun
          cases hrun
          exact .inl ⟨rfl, rfl⟩
        · simp only [hsome] at hrun
          cases hrun
          rw [hresult.eq_of_code_ne hcode]
          exact .inr ⟨⟨e, rfl⟩, rfl⟩
    | cons found rest =>
        rw [hfound, if_neg (by simp)] at hrun
        cases hrun
        exact .inl ⟨found, rest, hget.trans (congrArg _ hfound), rfl, rfl⟩
  · rw [wordId, get_of_not_usable husable] at hrun
    cases hrun

theorem numbered_wordId (h : Numbered s.dictionary s.dictIdCounter) {word : WString}
    {id : Option WString} (hrun : s.wordId word = .ok (s', id)) :
    Numbered s'.dictionary s'.dictIdCounter := by
  rcases wordId_cases h.sound hrun with
    ⟨_, _, _, rfl, _⟩ | ⟨husable, hempty, dictionary', code, hresult, ⟨rfl, _⟩ | ⟨⟨e, rfl⟩, _⟩⟩
  · exact h
  · exact h.insert hresult husable (not_chained_of_lookup h.sound h.filled hempty _)
  · exact h

theorem numbered_addWords {sources : List WString} {words : List WString}
    (h : Numbered s.dictionary s.dictIdCounter) (hrun : addWords sources words s = .ok s') :
    Numbered s'.dictionary s'.dictIdCounter := by
  refine addWords_rule (fun s => Numbered s.dictionary s.dictIdCounter) (fun _ _ hs => hs)
    (fun _ _ _ _ hs hid => numbered_wordId hs hid) ?_ h hrun
  intro s₁ s₂ id code hs htable
  obtain ⟨⟨table, code'⟩, _, htable⟩ := Exec.bind_eq_ok.mp htable
  cases htable
  exact hs

theorem numbered_handle (h : Numbered s.dictionary s.dictIdCounter) {e : Exception} {stored : ℕ}
    (hguard : e = .fullDict →
      EachAdd (fun T key value => ¬ T.Chained key value) s.dictionary .increaseTable)
    (hrun : s.handle stored e = .ok s') : Numbered s'.dictionary s'.dictIdCounter :=
  handle_rule (fun s => Numbered s.dictionary s.dictIdCounter) (fun _ _ hs => hs) (fun _ _ _ _ => h)
    (fun he _ _ hgrow => h.increaseTable (hguard he) hgrow) h (Numbered.new (by decide) _) h hrun

/-- A growth of the dictionary re-adds no word that it finds behind the head of a cell. -/
def Regrows (s : InvertedIndex) : Op → Prop
  | .handle .fullDict _ =>
      EachAdd (fun T key value => ¬ T.Chained key value) s.dictionary .increaseTable
  | _ => True

instance (s : InvertedIndex) : ∀ op, Decidable (s.Regrows op)
  | .handle .fullDict _ =>
      inferInstanceAs (Decidable
        (EachAdd (fun T key value => ¬ T.Chained key value) s.dictionary .increaseTable))
  | .handle .ok _ | .handle .maxTable _ | .handle .maxDict _ | .handle .maxMemory _
  | .handle .fullTable _ | .add _ _ | .clear => isTrue trivial

theorem numbered_step {op : Op} (h : Numbered s.dictionary s.dictIdCounter)
    (hguard : s.Regrows op) (hstep : s.step op = some s') :
    Numbered s'.dictionary s'.dictIdCounter := by
  cases op with
  | add queue sources =>
      rw [step, Exec.toOption_eq_some, add, Exec.bind_eq_ok] at hstep
      obtain ⟨wordList, _, hrun⟩ := hstep
      exact numbered_addWords h hrun
  | handle e stored =>
      rw [step, Exec.toOption_eq_some] at hstep
      refine numbered_handle h ?_ hstep
      rintro rfl
      exact hguard
  | clear =>
      cases hstep
      exact Numbered.new (by decide) _

theorem run_first_ne {ops : List Op}
    (hguard : Machine.Meets step Regrows new ops)
    (hrun : Machine.run step new ops = some s) {word₁ word₂ id₁ id₂ : WString}
    {rest₁ rest₂ : List WString} (hne : word₁ ≠ word₂)
    (hget₁ : s.dictionary.get word₁ = .ok (id₁ :: rest₁))
    (hget₂ : s.dictionary.get word₂ = .ok (id₂ :: rest₂)) : id₁ ≠ id₂ := by
  have hnumbered := Machine.run_invariant_of_meets
    (fun s => Numbered s.dictionary s.dictIdCounter)
    (fun _ _ _ h hguard hstep => numbered_step h hguard hstep)
    (Numbered.new (by decide) _) hguard hrun
  exact hnumbered.first_ne hne hget₁ hget₂

/-- The words "F", "2" and "Z" share a cell of the dictionary; the growth drops the first and adds
the last one again. -/
def readded : List Op :=
  [.add [70, 32, 50, 32, 90] [[115]], .handle .fullDict 0, .add [99] [[115]]]

theorem readded_first_ne : ∃ s, Machine.run step new readded = some s ∧
    s.dictionary.get [50] = .ok [[50]] ∧ s.dictionary.get [90] = .ok [[51]] ∧
      ([50] : WString) ≠ [51] := by
  obtain ⟨s, hrun⟩ : ∃ s, Machine.run step new readded = some s :=
    Option.isSome_iff_exists.mp (by decide +kernel)
  have hgets : (Machine.run step new readded).map
      (fun s => (s.dictionary.get [50], s.dictionary.get [90])) =
        some (.ok [[50]], .ok [[51]]) := by decide +kernel
  rw [hrun, Option.map_some, Option.some.injEq, Prod.mk.injEq] at hgets
  have hguard : Machine.Meets step Regrows new readded := by decide +kernel
  exact ⟨s, hrun, hgets.1, hgets.2,
    run_first_ne hguard hrun (by decide) hgets.1 hgets.2⟩

/-- The words "F", "2" and "Z" share a cell of the dictionary and "2" and "Z" come twice; then new
words fill the dictionary until it refuses one, and the dictionary grows. -/
def sharedId : List Op :=
  [.add [70, 32, 50, 32, 90, 32, 50, 32, 90] [[115]],
    .add [97, 32, 98, 32, 99, 32, 100, 32, 101, 32, 102, 32, 103, 32, 104, 32, 105, 32, 106, 32,
      107] [[115]],
    .add [108] [[115]], .handle .fullDict 0]

theorem sharedId_first_eq : ¬ ∀ (ops : List Op) (s : InvertedIndex),
    Machine.run step new ops = some s → ∀ word₁ word₂ id₁ id₂ rest₁ rest₂, word₁ ≠ word₂ →
      s.dictionary.get word₁ = .ok (id₁ :: rest₁) →
      s.dictionary.get word₂ = .ok (id₂ :: rest₂) → id₁ ≠ id₂ := by
  intro h
  obtain ⟨s, hrun⟩ : ∃ s, Machine.run step new sharedId = some s :=
    Option.isSome_iff_exists.mp (by decide +kernel)
  have hgets : (Machine.run step new sharedId).map
      (fun s => (s.dictionary.get [50], s.dictionary.get [90])) =
        some (.ok [[51], [53]], .ok [[51]]) := by decide +kernel
  rw [hrun, Option.map_some, Option.some.injEq, Prod.mk.injEq] at hgets
  exact h sharedId s hrun [50] [90] [51] [51] [[53]] [] (by decide) hgets.1 hgets.2 rfl

end InvertedIndex

end IndexServer
