import IndexServer.Storage.SavedPath
import Mathlib.Data.Set.Finite.Basic
import Mathlib.Data.Finset.Card

/-!
# Unique names

`getUnicName` tests the name of the count first. Behind that test its loop takes the next name after
each test, so it returns the name behind the first free one.
-/

namespace IndexServer

/-- The system in which exactly the files of these names exist. -/
def Platform.holding (p : Platform) (names : Finset WString) : Platform :=
  { p with opens := fun name => decide (name ∈ names) }

namespace InvertedIndex

def countNames (names : Finset WString) (type : WString) : ℕ :=
  (names.filter fun name => (find name type 0).isSome).card

/-- From the number `count` on the names are taken, up to a first free one at `j`, and the next one
is taken again. -/
def Gap (names : Finset WString) (type : WString) (count j : ℕ) : Prop :=
  count < j ∧ (∀ i, count ≤ i → i < j → unicName type i ∈ names) ∧
    unicName type j ∉ names ∧ unicName type (j + 1) ∈ names

theorem unicName_injective (type : WString) : Function.Injective (unicName type) := by
  intro i j h
  have hnumber := List.append_cancel_right h
  exact toWString_injective (List.append_cancel_left hnumber)

theorem exists_first_free (names : Finset WString) (type : WString) (count : ℕ) :
    ∃ j, count ≤ j ∧ (∀ i, count ≤ i → i < j → unicName type i ∈ names) ∧
      unicName type j ∉ names := by
  have hfree : ∃ k, unicName type (count + k) ∉ names := by
    by_contra hall
    push Not at hall
    have hinjective : Function.Injective fun k => unicName type (count + k) :=
      (unicName_injective type).comp (add_right_injective count)
    exact Set.infinite_of_injective_forall_mem hinjective hall names.finite_toSet
  refine ⟨count + Nat.find hfree, Nat.le_add_right _ _, ?_, Nat.find_spec hfree⟩
  intro i hle hlt
  obtain ⟨k, rfl⟩ := Nat.exists_eq_add_of_le hle
  exact not_not.mp (Nat.find_min hfree (by omega))

section loop

variable {p : Platform} {names : Finset WString} {type : WString}

theorem getUnicNameLoop_taken {k n : ℕ}
    (htaken : ∀ i, k ≤ i → i < k + n → unicName type i ∈ names)
    (hfree : unicName type (k + n) ∉ names) :
    getUnicNameLoop (p.holding names) type (n + 1) true (unicName type k) (k + 1) =
      .ok (unicName type (k + n + 1)) := by
  induction n generalizing k with
  | zero =>
      have hopens : (p.holding names).opens (unicName type k) = false := decide_eq_false hfree
      rw [getUnicNameLoop, hopens]
      rfl
  | succ n ih =>
      have hopens : (p.holding names).opens (unicName type k) = true :=
        decide_eq_true (htaken k (le_refl k) (by omega))
      have hshift : k + (n + 1) = k + 1 + n := by omega
      rw [hshift] at hfree ⊢
      rw [getUnicNameLoop, hopens]
      exact ih (fun i hle hlt => htaken i (by omega) (by omega)) hfree

theorem getUnicNameLoop_mono {fuel more i : ℕ} {fileExist : Bool} {name result : WString}
    (h : getUnicNameLoop p type fuel fileExist name i = .ok result) :
    getUnicNameLoop p type (fuel + more) fileExist name i = .ok result := by
  induction fuel generalizing fileExist name i with
  | zero =>
      cases fileExist with
      | false =>
          cases h
          cases more <;> rfl
      | true => cases h
  | succ fuel ih =>
      cases fileExist with
      | false =>
          cases h
          rw [Nat.add_right_comm]
          rfl
      | true =>
          rw [Nat.add_right_comm]
          exact ih h

end loop

variable (p : Platform) (names : Finset WString) (fm : FileManager) (type : WString)

/-- What `getUnicName` returns, if the first free name is that of `j`. -/
theorem getUnicName_first_free {j : ℕ} (hle : fm.countFilesOfType type ≤ j)
    (htaken : ∀ i, fm.countFilesOfType type ≤ i → i < j → unicName type i ∈ names)
    (hfree : unicName type j ∉ names) :
    ∃ fuel, getUnicName (p.holding names) fm type fuel =
      .ok (unicName type (if j = fm.countFilesOfType type then j else j + 1)) := by
  generalize hcount : fm.countFilesOfType type = count at *
  by_cases hj : j = count
  · have hopens : (p.holding names).opens (unicName type count) = false :=
      decide_eq_false (hj ▸ hfree)
    refine ⟨0, ?_⟩
    rw [getUnicName, hcount, hopens, if_pos hj, hj]
    rfl
  · obtain ⟨n, rfl⟩ := Nat.exists_eq_add_of_le hle
    have hopens : (p.holding names).opens (unicName type count) = true :=
      decide_eq_true (htaken count (le_refl count) (by omega))
    refine ⟨n + 1, ?_⟩
    rw [getUnicName, hcount, hopens, if_neg hj]
    exact getUnicNameLoop_taken htaken hfree

theorem getUnicName_unique {fuel fuel' : ℕ} {name name' : WString}
    (h : getUnicName p fm type fuel = .ok name) (h' : getUnicName p fm type fuel' = .ok name') :
    name = name' := by
  have hmore : getUnicName p fm type (fuel + fuel') = .ok name := getUnicNameLoop_mono h
  have hmore' : getUnicName p fm type (fuel' + fuel) = .ok name' := getUnicNameLoop_mono h'
  rw [Nat.add_comm, hmore] at hmore'
  exact Except.ok.inj hmore'

/-- `getUnicName` terminates, and the name is free exactly if no gap follows the names that are
taken from the count on. -/
theorem getUnicName_free_iff :
    ∃ name, (∃ fuel, getUnicName (p.holding names) fm type fuel = .ok name) ∧
      (∀ fuel result, getUnicName (p.holding names) fm type fuel = .ok result → result = name) ∧
      (name ∉ names ↔ ∀ j, ¬ Gap names type (fm.countFilesOfType type) j) := by
  obtain ⟨j, hle, htaken, hfree⟩ := exists_first_free names type (fm.countFilesOfType type)
  obtain ⟨fuel, hname⟩ := getUnicName_first_free p names fm type hle htaken hfree
  refine ⟨_, ⟨fuel, hname⟩, fun fuel' result h => getUnicName_unique _ fm type h hname, ?_⟩
  have hfirst : ∀ j', Gap names type (fm.countFilesOfType type) j' → j' = j := by
    rintro j' ⟨hlt, htaken', hfree', _⟩
    by_contra hne
    rcases Nat.lt_or_gt_of_ne hne with hbefore | hbehind
    · exact hfree' (htaken j' hlt.le hbefore)
    · exact hfree (htaken' j hle hbehind)
  split
  · have hcount : j = fm.countFilesOfType type := by assumption
    refine iff_of_true hfree fun j' hgap => ?_
    have hlt := hgap.1
    rw [hfirst j' hgap] at hlt
    omega
  · have hlt : fm.countFilesOfType type < j := by omega
    constructor
    · intro hnext j' hgap
      rw [hfirst j' hgap] at hgap
      exact hnext hgap.2.2.2
    · exact fun hno hnext => hno j ⟨hlt, htaken, hfree, hnext⟩

/-! ### A section in a gap -/

def leftNames : Finset WString := {unicName sectionType 2, unicName sectionType 4}

def leftSections : FileManager where
  currentStoringCapacity := 0
  sectionsInfo := [⟨unicName sectionType 2, sectionType, 0, 0⟩,
    ⟨unicName sectionType 4, sectionType, 0, 0⟩]
  clearInProcess := false

/-- The third section takes the name of the section 4. -/
theorem leftSections_clash : ¬ ∀ (p : Platform) (names : Finset WString) (fm : FileManager)
    (type : WString), fm.countFilesOfType type = countNames names type →
      ∃ fuel name, getUnicName (p.holding names) fm type fuel = .ok name ∧ name ∉ names := by
  intro hclaim
  obtain ⟨fuel, name, hname, hfree⟩ :=
    hclaim Storage.plainPlatform leftNames leftSections sectionType (by decide)
  have htaken : getUnicName (Storage.plainPlatform.holding leftNames) leftSections sectionType 2 =
      .ok (unicName sectionType 4) := by decide
  rw [getUnicName_unique _ _ _ hname htaken] at hfree
  exact hfree (by decide)

end InvertedIndex

end IndexServer
