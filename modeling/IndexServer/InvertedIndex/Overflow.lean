import IndexServer.InvertedIndex.Ids
import Mathlib.Algebra.Order.Field.Rat
import Mathlib.Tactic.Ring

/-!
# The two tests of the load

`isOverflowed` compares the quotient of count and size with `percent`, and `add` the count with the
product of size and `percent`, of which it drops the fraction. Sizes start at 20 and double, so
there is no fraction.
-/

namespace IndexServer

open HashTable

namespace HashTable

def percent : ℚ := 3 / 4

def getPercent (_ : HashTable) : ℚ := percent

/-- The sizes that construction and growth produce. -/
structure Sized (T : HashTable) : Prop where
  doubled : ∃ k, T.size = InvertedIndex.startSize * 2 ^ k
  bound : T.size < maxCapacity

namespace Sized

variable {T T' : HashTable}

theorem new : (HashTable.new InvertedIndex.startSize).Sized where
  doubled := ⟨0, rfl⟩
  bound := by decide

theorem add (h : T.Sized) {key : WString} {value : List WString} {code : ℕ}
    (hresult : AddResult T key value T' code) : T'.Sized where
  doubled := hresult.size_eq ▸ h.doubled
  bound := hresult.size_eq ▸ h.bound

theorem increaseTable (h : T.Sized) (hT : T.Sound) {code : ℕ}
    (hgrow : T.increaseTable = .ok (T', code)) : T'.Sized := by
  rcases hT.increaseTable_cases with ⟨_, hsame⟩ | ⟨_, _, T₂, hsmall, _, _, _, hsize, hnew⟩
  · rw [hsame] at hgrow
    cases hgrow
    exact h
  · rw [hnew] at hgrow
    cases hgrow
    obtain ⟨k, hk⟩ := h.doubled
    exact ⟨⟨k + 1, by rw [hsize, hk]; ring⟩, hsize ▸ hsmall⟩

/-- The product that `add` truncates is a whole number. -/
theorem percent_mul (h : T.Sized) : percent * T.size = T.loadLimit := by
  obtain ⟨k, hk⟩ := h.doubled
  have hlimit : T.loadLimit = 15 * 2 ^ k := by
    rw [loadLimit, hk, InvertedIndex.startSize]
    omega
  rw [hlimit, hk, percent, InvertedIndex.startSize]
  push_cast
  ring

theorem getPercent_le_iff (h : T.Sized) :
    T.getPercent ≤ (T.count : ℚ) / T.size ↔ T.loadLimit ≤ T.count := by
  obtain ⟨k, hk⟩ := h.doubled
  have hpos : (0 : ℚ) < T.size := by
    rw [Nat.cast_pos, hk]
    exact Nat.mul_pos (by decide) (Nat.two_pow_pos k)
  rw [getPercent, le_div_iff₀ hpos, h.percent_mul, Nat.cast_le]

end Sized

end HashTable

/-! ### What both tables keep -/

/-- Both tables are sound and have the property. -/
structure InvertedIndex.Both (P : HashTable → Prop) (s : InvertedIndex) : Prop where
  table_sound : s.table.Sound
  dictionary_sound : s.dictionary.Sound
  table : P s.table
  dictionary : P s.dictionary

namespace InvertedIndex

section rule

variable {P : HashTable → Prop} {s s' : InvertedIndex}

theorem both_new (hnew : P (HashTable.new startSize)) : new.Both P :=
  ⟨new_sound (by decide), new_sound (by decide), hnew, hnew⟩

theorem Both.clear (hnew : P (HashTable.new startSize)) : s.clear.Both P :=
  ⟨new_sound (by decide), new_sound (by decide), hnew, hnew⟩

theorem Both.push (h : s.Both P) (e : Exception) : (s.push e).Both P :=
  ⟨h.table_sound, h.dictionary_sound, h.table, h.dictionary⟩

section add

variable (hadd : ∀ T key value T' code, T.Sound → P T → AddResult T key value T' code → P T')
include hadd

theorem Both.wordId (h : s.Both P) {word : WString} {id : Option WString}
    (hrun : s.wordId word = .ok (s', id)) : s'.Both P := by
  rcases wordId_cases h.dictionary_sound hrun with
    ⟨_, _, _, rfl, _⟩ | ⟨husable, _, dictionary', code, hresult, ⟨rfl, _⟩ | ⟨⟨e, rfl⟩, _⟩⟩
  · exact h
  · exact ⟨h.table_sound, hresult.sound h.dictionary_sound husable, h.table,
      hadd _ _ _ _ _ h.dictionary_sound h.dictionary hresult⟩
  · exact h.push e

theorem Both.tableAdd (h : s.Both P) {id : WString} {sources : List WString} {code : ℕ}
    (hrun : s.tableAdd id sources = .ok (s', code)) : s'.Both P := by
  obtain ⟨⟨table, code'⟩, htable, hrun⟩ := Exec.bind_eq_ok.mp hrun
  cases hrun
  obtain ⟨husable, hresult⟩ := h.table_sound.add_eq_ok htable
  exact ⟨hresult.sound h.table_sound husable, h.dictionary_sound,
    hadd _ _ _ _ _ h.table_sound h.table hresult, h.dictionary⟩

theorem Both.addWords {sources wordList : List WString} (h : s.Both P)
    (hrun : addWords sources wordList s = .ok s') : s'.Both P :=
  addWords_rule (Both P) (fun _ e hs => hs.push e) (fun _ _ _ _ hs hid => hs.wordId hadd hid)
    (fun _ _ _ _ hs htable => hs.tableAdd hadd htable) h hrun

variable (hgrow : ∀ T T' code, T.Sound → P T → T.increaseTable = .ok (T', code) → P T')
  (hnew : P (HashTable.new startSize))
include hgrow hnew

omit hadd in
theorem Both.handle (h : s.Both P) {e : Exception} {stored : ℕ}
    (hrun : s.handle stored e = .ok s') : s'.Both P := by
  refine handle_rule (Both P) (fun _ e hs => hs.push e) ?_ ?_
    ⟨new_sound (by decide), h.dictionary_sound, hnew, h.dictionary⟩ (Both.clear hnew) h hrun
  · intro _ table code hincrease
    exact ⟨(h.table_sound.increaseTable_entries joins_true (fun _ _ => trivial) hincrease).1,
      h.dictionary_sound, hgrow _ _ _ h.table_sound h.table hincrease, h.dictionary⟩
  · intro _ dictionary code hincrease
    exact ⟨h.table_sound,
      (h.dictionary_sound.increaseTable_entries joins_true (fun _ _ => trivial) hincrease).1,
      h.table, hgrow _ _ _ h.dictionary_sound h.dictionary hincrease⟩

theorem Both.step {op : Op} (h : s.Both P) (hstep : s.step op = some s') : s'.Both P := by
  cases op with
  | add queue sources =>
      obtain ⟨wordList, _, hrun⟩ := Exec.bind_eq_ok.mp (Exec.toOption_eq_some.mp hstep)
      exact h.addWords hadd hrun
  | handle e stored => exact h.handle hgrow hnew (Exec.toOption_eq_some.mp hstep)
  | clear =>
      cases hstep
      exact Both.clear hnew

theorem run_both {ops : List Op} (hrun : Machine.run step new ops = some s) : s.Both P :=
  Machine.run_invariant_of_meets (Both P) (fun _ _ _ h _ hstep => h.step hadd hgrow hnew hstep)
    (both_new hnew) (Machine.meets_label fun _ _ => trivial) hrun

end add

end rule

/-! ### The test of the handlers -/

def isOverflowed (s : InvertedIndex) : Bool :=
  let isTableFlowed := decide (s.table.getPercent ≤ (s.table.count : ℚ) / s.table.size)
  let isDictionaryFlowed :=
    decide (s.dictionary.getPercent ≤ (s.dictionary.count : ℚ) / s.dictionary.size)
  isTableFlowed || isDictionaryFlowed

end InvertedIndex

theorem HashTable.add_eq_one_iff {T : HashTable} {key : WString} {value : List WString}
    {cell : HashItem} (hcell : T.readCell (hashFunction key T.size) = .ok cell)
    (hvacant : cell.value = []) (hfits : T.Fits key value) :
    (∃ T', T.add key value = .ok (T', 1)) ↔ T.loadLimit ≤ T.count := by
  have hcapacity : ¬ T.currentCapacity + getItemCapacity (newItem key value) ≥ maxCapacity :=
    Nat.not_le.mpr hfits
  have hempty : cell.value.length = 0 := by rw [hvacant]; rfl
  rw [add, hcell, Exec.ok_bind, if_neg hcapacity, if_pos hempty]
  constructor
  · rintro ⟨T', hadd⟩
    by_contra hload
    rw [if_neg hload] at hadd
    obtain ⟨T₁, _, hadd⟩ := Exec.bind_eq_ok.mp hadd
    cases hadd
  · exact fun hload => ⟨T, if_pos hload⟩

/-- The test of `isOverflowed` holds of a table exactly if `add` refuses a new cell of it. -/
def HashTable.TestsAgree (T : HashTable) : Prop :=
  ∀ key value cell, T.readCell (hashFunction key T.size) = .ok cell → cell.value = [] →
    T.Fits key value →
      (T.getPercent ≤ (T.count : ℚ) / T.size ↔ ∃ T', T.add key value = .ok (T', 1))

theorem HashTable.Sized.testsAgree {T : HashTable} (h : T.Sized) : T.TestsAgree := by
  intro key value cell hcell hvacant hfits
  exact h.getPercent_le_iff.trans (add_eq_one_iff hcell hvacant hfits).symm

namespace InvertedIndex

/-- In every state that can be reached the two tests agree on both tables, and `isOverflowed` is
the disjunction of them. -/
theorem run_isOverflowed {ops : List Op} {s : InvertedIndex}
    (hrun : Machine.run step new ops = some s) :
    s.table.TestsAgree ∧ s.dictionary.TestsAgree ∧
      (s.isOverflowed ↔ s.table.getPercent ≤ (s.table.count : ℚ) / s.table.size ∨
        s.dictionary.getPercent ≤ (s.dictionary.count : ℚ) / s.dictionary.size) := by
  have hboth := run_both (fun _ _ _ _ _ _ h hresult => h.add hresult)
    (fun _ _ _ hT h hgrow => h.increaseTable hT hgrow) Sized.new hrun
  refine ⟨hboth.table.testsAgree, hboth.dictionary.testsAgree, ?_⟩
  rw [isOverflowed, Bool.or_eq_true, decide_eq_true_eq, decide_eq_true_eq]

theorem grownTwice_isOverflowed : ∃ s, Machine.run step new
      [.add [97, 32, 98] [[115]], .handle .fullTable 0, .handle .fullDict 0, .add [99] [[115]]] =
        some s ∧
    s.table.TestsAgree ∧ s.dictionary.TestsAgree ∧
      (s.isOverflowed ↔ s.table.getPercent ≤ (s.table.count : ℚ) / s.table.size ∨
        s.dictionary.getPercent ≤ (s.dictionary.count : ℚ) / s.dictionary.size) := by
  obtain ⟨s, hrun⟩ := Option.isSome_iff_exists.mp (show (Machine.run step new
    [.add [97, 32, 98] [[115]], .handle .fullTable 0, .handle .fullDict 0,
      .add [99] [[115]]]).isSome by decide +kernel)
  exact ⟨s, hrun, run_isOverflowed hrun⟩

end InvertedIndex

end IndexServer
