import IndexServer.Section.Saved
import IndexServer.HashTable.Runs
import Mathlib.Tactic.LinearCombination

/-!
# The links that a record describes

The four cells that `itemToArray` makes of an entry, by the rules of `loadItemValue`: the first one
is 0 in a record that is not used, and the fourth one is -1 at the end of a chain or leads to the
record behind it. The writer marks an empty entry by the largest `long long` and never writes -1,
and it takes a record for twice its size in bytes.
-/

namespace IndexServer

namespace HashTable

/-- The position that `loadItemValue` reads the next record from. -/
def linkAddress (dlongArray : Vector Int 4) : Int := wrap64 ((dlongArray[3] + 1) * cellSize)

/-- The position at which `saveTable` writes the record of `colisions[j]`: behind the size, the
records of the cells and those of the collision entries before it. -/
def recordAddress (T : HashTable) (j : ℕ) : ℕ := cellSize + 4 * (T.size + j)

/-- The reader takes the cells for the links of the entry. -/
structure Describes (T : HashTable) (item : HashItem) (dlongArray : Vector Int 4) : Prop where
  absent_iff : dlongArray[0] = 0 ↔ item.value = []
  ends_iff : item.value ≠ [] → (dlongArray[3] = -1 ↔ item.next = -1)
  follows : item.value ≠ [] → ∀ j : ℕ, item.next = j → linkAddress dlongArray = T.recordAddress j

/-! ### What the cells hold -/

variable {T : HashTable} {item : HashItem} {valueAddress : Int} {dlongArray : Vector Int 4}

theorem itemToArray_empty (hvalue : item.value = [])
    (h : T.itemToArray item cellSize valueAddress = .ok dlongArray) : dlongArray[0] = zero := by
  obtain ⟨key, _, h⟩ := Exec.bind_eq_ok.mp h
  rw [if_pos (List.length_eq_zero_iff.mpr hvalue)] at h
  cases h
  rfl

theorem itemToArray_next (hvalue : item.value ≠ []) (hnext : item.next ≠ zero)
    (h : T.itemToArray item cellSize valueAddress = .ok dlongArray) :
    dlongArray[3] = wrap64 ((T.size + item.next) * 2 * 4 + 2) := by
  obtain ⟨key, _, h⟩ := Exec.bind_eq_ok.mp h
  rw [if_neg (mt List.length_eq_zero_iff.mp hvalue)] at h
  cases h
  exact if_pos hnext

theorem itemToArray_zero (hvalue : item.value ≠ []) (hnext : item.next = zero)
    (h : T.itemToArray item cellSize valueAddress = .ok dlongArray) : dlongArray[3] = zero := by
  obtain ⟨key, _, h⟩ := Exec.bind_eq_ok.mp h
  rw [if_neg (mt List.length_eq_zero_iff.mp hvalue)] at h
  cases h
  exact if_neg (not_not_intro hnext)

theorem next_ne_last (size : ℕ) (next : Int) : wrap64 ((size + next) * 2 * 4 + 2) ≠ -1 := by
  obtain ⟨c, hc⟩ := exists_wrap64 ((size + next) * 2 * 4 + 2)
  omega

theorem seven_mul_ne {z m : Int} (hz : 0 ≤ z) (hrange : 4 + 4 * z < 2 ^ 63) :
    7 * z + 2 ≠ 2 ^ 62 * m := by
  have hresidue : (7 * z + 2) % 7 = 2 := by omega
  have hpower : (2 ^ 62 : Int) % 7 = 4 := by decide
  intro hm
  -- the remainders by 7 leave no multiplier below 4, and the range none above
  have hlow : 2 ^ 62 * m ≤ 7 * z + 2 := hm.ge
  have hhigh : 7 * z + 2 ≤ 2 ^ 62 * m := hm.le
  rw [hm, Int.mul_emod, hpower] at hresidue
  clear hm
  have hpos : 0 < m := by omega
  have hsmall : m < 4 := by omega
  omega

theorem linkAddress_ne (size j : ℕ) :
    wrap64 ((wrap64 (((size : Int) + j) * 2 * 4 + 2) + 1) * 4) ≠ 4 + 4 * (size + j) := by
  generalize hz : (size : Int) + j = z
  have hpos : 0 ≤ z := by omega
  obtain ⟨c, hc⟩ := exists_wrap64 (z * 2 * 4 + 2)
  obtain ⟨d, hd⟩ := exists_wrap64 ((wrap64 (z * 2 * 4 + 2) + 1) * 4)
  have hrange := (wrap64_range ((wrap64 (z * 2 * 4 + 2) + 1) * 4)).2
  intro heq
  rw [heq] at hd hrange
  have hfour : 4 * (7 * z + 2) = 4 * (2 ^ 62 * -(4 * c + d)) := by
    linear_combination -4 * hc - hd
  exact seven_mul_ne hpos hrange (Int.eq_of_mul_eq_mul_left (by decide) hfour)

theorem Reachable.not_describes (hT : T.Reachable) (hitem : item ∈ T.stored)
    (h : T.itemToArray item cellSize valueAddress = .ok dlongArray) :
    ¬ T.Describes item dlongArray := by
  intro hdescribes
  by_cases hvalue : item.value = []
  · have hzero := hdescribes.absent_iff.mpr hvalue
    rw [itemToArray_empty hvalue h] at hzero
    exact absurd hzero (by decide)
  have hlinks : item.next = -1 ∨ ∃ j : ℕ, item.next = j := by
    rcases List.mem_append.mp hitem with hcell | hentry
    · obtain ⟨i, hi⟩ := List.getElem?_of_mem hcell
      refine (hT.sound.cell_next i item hi hvalue).imp_right ?_
      rintro ⟨j, entry, hnext, _⟩
      exact ⟨j, hnext⟩
    · exact .inl (hT.sound.entry_next item hentry)
  rcases hlinks with hlast | ⟨j, hnext⟩
  · have hend := (hdescribes.ends_iff hvalue).mpr hlast
    rw [itemToArray_next hvalue (by rw [hlast]; decide) h] at hend
    exact next_ne_last _ _ hend
  · have haddress := hdescribes.follows hvalue j hnext
    have hrecord : (T.recordAddress j : Int) = 4 + 4 * (T.size + j) := by
      rw [recordAddress, cellSize]
      push_cast
      rfl
    rw [linkAddress, hrecord] at haddress
    by_cases hzero : item.next = zero
    · rw [itemToArray_zero hvalue hzero h] at haddress
      change 0 = _ at haddress
      omega
    · rw [itemToArray_next hvalue hzero h, hnext] at haddress
      exact linkAddress_ne T.size j haddress

/-- The cells of the key 12 in a table of two cells: there is no link, and they hold the one to the
place before `colisions`. -/
theorem twelve_not_describes : ∃ T : HashTable, T.Reachable ∧ ⟨[49, 50], [[]], 0, -1⟩ ∈ T.stored ∧
    T.itemToArray ⟨[49, 50], [[]], 0, -1⟩ cellSize 53 = .ok #v[12, 53, 0, 10] ∧
      ¬ T.Describes ⟨[49, 50], [[]], 0, -1⟩ #v[12, 53, 0, 10] := by
  have hrun : (Machine.run step (new 2) [.add [49, 50] [[]]]).map (fun T =>
      decide (⟨[49, 50], [[]], 0, -1⟩ ∈ T.stored ∧
        T.itemToArray ⟨[49, 50], [[]], 0, -1⟩ cellSize 53 = .ok #v[12, 53, 0, 10])) =
          some true := by decide
  obtain ⟨T, hrun, hread⟩ := Option.map_eq_some_iff.mp hrun
  obtain ⟨hitem, harray⟩ := of_decide_eq_true hread
  have hT : T.Reachable :=
    ⟨2, [.add [49, 50] [[]]], by decide, List.forall_mem_singleton.mpr (by decide), hrun⟩
  exact ⟨T, hT, hitem, harray, hT.not_describes hitem harray⟩

/-- The reader does not take the record of an empty cell for an unused one. -/
theorem emptyCell_misread : ¬ ∀ (T : HashTable) (item : HashItem) (valueAddress : Int)
    (dlongArray : Vector Int 4), T.Reachable → T.Keys Decimal → item ∈ T.stored →
    T.itemToArray item cellSize valueAddress = .ok dlongArray → T.Describes item dlongArray := by
  intro hclaim
  have hT : (new 1).Reachable := ⟨1, [], le_refl 1, List.forall_mem_nil _, rfl⟩
  have hdescribes := hclaim (new 1) ⟨[], [], -1, -1⟩ 37 #v[zero, zero, zero, zero] hT
    (keys_new _ 1) (by decide) rfl
  have hunused := hdescribes.absent_iff.mpr rfl
  exact absurd hunused (by decide)

end HashTable

end IndexServer
