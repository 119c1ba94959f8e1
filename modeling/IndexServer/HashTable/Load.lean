import IndexServer.HashTable.Lookup

/-!
# The load of a table

`count` is raised neither by a growth nor by the first collision of a cell, and by every other
collision. What keeps it above the number of occupied cells is that it is at least the number of
heads that stand alone and of collision entries together. The limit on the load holds of the
occupied cells and of the cells that collision entries hash to taken as one set, since these are
what a growth spreads over twice as many cells.
-/

namespace IndexServer

namespace HashTable

open Bucket

def occupied (T : HashTable) : Finset ℕ := positions (fun cell => cell.value ≠ []) T.items

/-- The occupied cells without a link. -/
def singles (T : HashTable) : Finset ℕ :=
  positions (fun cell => cell.value ≠ [] ∧ cell.next = -1) T.items

/-- The cells that collision entries hash to. -/
def collided (T : HashTable) : Finset ℕ :=
  buckets magnitude T.size (T.colisions.map HashItem.key).toFinset

structure Load (T : HashTable) : Prop where
  count : T.colisions.length + T.singles.card ≤ T.count
  limit : (T.occupied ∪ T.collided).card ≤ T.loadLimit

theorem mem_occupied {T : HashTable} {i : ℕ} :
    i ∈ T.occupied ↔ ∃ cell, T.items[i]? = some cell ∧ cell.value ≠ [] := by
  simp only [occupied, mem_positions, decide_eq_true_eq]

theorem mem_singles {T : HashTable} {i : ℕ} :
    i ∈ T.singles ↔ ∃ cell, T.items[i]? = some cell ∧ cell.value ≠ [] ∧ cell.next = -1 := by
  simp only [singles, mem_positions, decide_eq_true_eq]

theorem mem_collided {T : HashTable} {i : ℕ} :
    i ∈ T.collided ↔ ∃ entry ∈ T.colisions, home T.size entry.key = i := by
  simp only [collided, mem_buckets, List.mem_toFinset, List.mem_map]
  constructor
  · rintro ⟨_, ⟨entry, hentry, rfl⟩, hhome⟩
    exact ⟨entry, hentry, hhome⟩
  · rintro ⟨entry, hentry, hhome⟩
    exact ⟨entry.key, ⟨entry, hentry, rfl⟩, hhome⟩

theorem card_collided_le (T : HashTable) : T.collided.card ≤ T.colisions.length := by
  refine (card_buckets_le magnitude T.size _).trans ((List.toFinset_card_le _).trans ?_)
  rw [List.length_map]

theorem Sound.occupied_subset {T : HashTable} (hT : T.Sound) :
    T.occupied ⊆ T.singles ∪ T.collided := by
  intro i hi
  obtain ⟨cell, hcell, hvalue⟩ := mem_occupied.mp hi
  rcases hT.cell_next i cell hcell hvalue with hend | ⟨j, entry, _, hentry, hhome, _⟩
  · exact Finset.mem_union_left _ (mem_singles.mpr ⟨cell, hcell, hvalue, hend⟩)
  · exact Finset.mem_union_right _ (mem_collided.mpr ⟨entry, List.mem_of_getElem? hentry, hhome⟩)

theorem Load.card_le_count {T : HashTable} (hload : T.Load) (hT : T.Sound) :
    (T.occupied ∪ T.collided).card ≤ T.count := by
  have hsub : T.occupied ∪ T.collided ⊆ T.singles ∪ T.collided :=
    Finset.union_subset hT.occupied_subset Finset.subset_union_right
  have hunion := Finset.card_union_le T.singles T.collided
  have hcollided := T.card_collided_le
  have hcount := hload.count
  have hcard := Finset.card_le_card hsub
  omega

theorem new_load (n : ℕ) : (new n).Load := by
  have hoccupied : (new n).occupied = ∅ := by
    apply Finset.eq_empty_of_forall_notMem
    intro i hi
    obtain ⟨cell, hcell, hvalue⟩ := mem_occupied.mp hi
    exact hvalue (by rw [new_getElem? hcell])
  have hsingles : (new n).singles = ∅ := by
    apply Finset.eq_empty_of_forall_notMem
    intro i hi
    obtain ⟨cell, hcell, hvalue, _⟩ := mem_singles.mp hi
    exact hvalue (by rw [new_getElem? hcell])
  have hcollided : (new n).collided = ∅ := rfl
  refine ⟨?_, ?_⟩
  · rw [hsingles]
    exact le_rfl
  · rw [hoccupied, hcollided]
    exact Nat.zero_le _

/-! ### Insertions -/

section write

variable {T : HashTable} {i : ℕ} {cell : HashItem} {entries : List HashItem}
  {count currentCapacity : ℕ}

theorem collided_write_nil :
    (T.write i cell [] count currentCapacity).collided = T.collided := by
  rw [collided, write, List.append_nil]
  rfl

theorem collided_write_subset (hentries : ∀ entry ∈ entries, home T.size entry.key = i) :
    (T.write i cell entries count currentCapacity).collided ⊆ insert i T.collided := by
  intro m hm
  obtain ⟨entry, hentry, hhome⟩ := mem_collided.mp hm
  rcases List.mem_append.mp hentry with hold | hnew
  · exact Finset.mem_insert_of_mem (mem_collided.mpr ⟨entry, hold, hhome⟩)
  · rw [← hhome]
    change home T.size entry.key ∈ _
    rw [hentries entry hnew]
    exact Finset.mem_insert_self _ _

theorem limit_write (hi : i ∈ T.occupied)
    (hentries : ∀ entry ∈ entries, home T.size entry.key = i) :
    (T.write i cell entries count currentCapacity).occupied ∪
      (T.write i cell entries count currentCapacity).collided ⊆ T.occupied ∪ T.collided := by
  refine Finset.union_subset ?_ ?_
  · exact (positions_set_subset fun _ => hi).trans Finset.subset_union_left
  · refine (collided_write_subset hentries).trans (Finset.insert_subset ?_ ?_)
    · exact Finset.mem_union_left _ hi
    · exact Finset.subset_union_right

end write

theorem AddResult.load {T T' : HashTable} {key : WString} {value : List WString} {code : ℕ}
    (h : AddResult T key value T' code) (hT : T.Sound) (hload : T.Load) : T'.Load := by
  have hnone : ∀ entry ∈ ([] : List HashItem), home T.size entry.key = home T.size key :=
    fun _ h => absurd h List.not_mem_nil
  have hnew : ∀ entry ∈ [newItem key value], home T.size entry.key = home T.size key := by
    intro entry hentry
    rw [List.mem_singleton.mp hentry]
    rfl
  have hcount := hload.count
  have hlimit := hload.limit
  cases h with
  | maxed => exact hload
  | full => exact hload
  | placed hcap hcell hvacant hroom =>
      have hsingles : (T.write (home T.size key) (newItem key value) [] (T.count + 1)
          (T.currentCapacity + charge key value)).singles.card ≤ T.singles.card + 1 :=
        (Finset.card_le_card positions_set_subset_insert).trans (Finset.card_insert_le _ _)
      have hoccupied : (T.write (home T.size key) (newItem key value) [] (T.count + 1)
          (T.currentCapacity + charge key value)).occupied ∪ T.collided ⊆
            insert (home T.size key) (T.occupied ∪ T.collided) := by
        rw [← Finset.insert_union]
        exact Finset.union_subset_union_left positions_set_subset_insert
      have hcard := (Finset.card_le_card hoccupied).trans (Finset.card_insert_le _ _)
      have hbound := hload.card_le_count hT
      refine ⟨?_, ?_⟩
      · change (T.colisions ++ []).length + _ ≤ T.count + 1
        rw [List.append_nil]
        omega
      · rw [collided_write_nil]
        change _ ≤ T.loadLimit
        omega
  | @extended _ head hcell hvalue hhead =>
      have hocc : home T.size key ∈ T.occupied := mem_occupied.mpr ⟨head, hcell, hvalue⟩
      refine ⟨?_, (Finset.card_le_card (limit_write hocc hnone)).trans hlimit⟩
      have hsingles : (T.write (home T.size key) { head with value := head.value ++ value } []
          T.count (T.currentCapacity + charge key value)).singles ⊆ T.singles := by
        refine positions_set_subset fun hcell' => mem_singles.mpr ⟨head, hcell, hvalue, ?_⟩
        exact (of_decide_eq_true hcell').2
      have hcard := Finset.card_le_card hsingles
      change (T.colisions ++ []).length + _ ≤ T.count
      rw [List.append_nil]
      omega
  | @pushed _ head hcell hvalue hhead hnext =>
      have hocc : home T.size key ∈ T.occupied := mem_occupied.mpr ⟨head, hcell, hvalue⟩
      refine ⟨?_, (Finset.card_le_card (limit_write hocc hnew)).trans hlimit⟩
      have hlink : ((T.colisions.length : ℕ) : Int) ≠ -1 := by omega
      have hsingles : (T.write (home T.size key) { head with next := T.colisions.length }
          [newItem key value] T.count T.currentCapacity).singles ⊆
            T.singles.erase (home T.size key) :=
        positions_set_subset_erase fun hcell' => hlink (of_decide_eq_true hcell').2
      have hmem : home T.size key ∈ T.singles := mem_singles.mpr ⟨head, hcell, hvalue, hnext⟩
      have hcard := Finset.card_le_card hsingles
      have hpos := Finset.card_pos.mpr ⟨_, hmem⟩
      rw [Finset.card_erase_of_mem hmem] at hcard
      change (T.colisions ++ [newItem key value]).length + _ ≤ T.count
      rw [List.length_append, List.length_singleton]
      omega
  | @merged _ head hcell hvalue hhead j hnext entry hentry hkey =>
      have hocc : home T.size key ∈ T.occupied := mem_occupied.mpr ⟨head, hcell, hvalue⟩
      refine ⟨?_, (Finset.card_le_card (limit_write hocc hnone)).trans hlimit⟩
      have hlink : head.next ≠ -1 := by omega
      have hsingles : (T.write (home T.size key) { head with value := entry.value ++ value } []
          (T.count + 1) (T.currentCapacity + charge key value +
            getVectorByteSize value)).singles ⊆ T.singles :=
        positions_set_subset fun hcell' => absurd (of_decide_eq_true hcell').2 hlink
      have hcard := Finset.card_le_card hsingles
      change (T.colisions ++ []).length + _ ≤ T.count + 1
      rw [List.append_nil]
      omega
  | @relinked _ head hcell hvalue hhead j hnext entry hentry hkey =>
      have hocc : home T.size key ∈ T.occupied := mem_occupied.mpr ⟨head, hcell, hvalue⟩
      refine ⟨?_, (Finset.card_le_card (limit_write hocc hnew)).trans hlimit⟩
      have hlink : ((T.colisions.length : ℕ) : Int) ≠ -1 := by omega
      have hsingles : (T.write (home T.size key) { head with next := T.colisions.length }
          [newItem key value] (T.count + 1) (T.currentCapacity + charge key value)).singles ⊆
            T.singles :=
        positions_set_subset fun hcell' => absurd (of_decide_eq_true hcell').2 hlink
      have hcard := Finset.card_le_card hsingles
      change (T.colisions ++ [newItem key value]).length + _ ≤ T.count + 1
      rw [List.length_append, List.length_singleton]
      omega

/-! ### Growths -/

/-- The occupied cells after a growth are those that the old collision entries hash to. -/
theorem Sound.rehash_occupied {T T₁ : HashTable} {tmpColisions : List HashItem} (hT : T.Sound)
    (hsmall : 2 * T.size < maxCapacity) (hrun : T.rehash = .ok (T₁, tmpColisions)) :
    T₁.occupied ⊆ buckets magnitude (2 * T.size) (T.colisions.map HashItem.key).toFinset := by
  have hspec := hT.rehashed hsmall hrun (joins_keys fun key => key ∈ T.colisions.map HashItem.key)
    fun entry hentry => List.mem_map_of_mem hentry
  intro i hi
  obtain ⟨cell, hcell, hvalue⟩ := mem_occupied.mp hi
  have hkey := (hspec.cell_entry i cell hcell hvalue).2
  have hhome := hspec.sound.cell_home i cell hcell hvalue
  rw [hspec.size] at hhome
  exact (mem_buckets magnitude).mpr ⟨cell.key, List.mem_toFinset.mpr hkey, hhome⟩

theorem Sound.rehash_load {T T₁ : HashTable} {tmpColisions : List HashItem} (hT : T.Sound)
    (hload : T.Load) (hsmall : 2 * T.size < maxCapacity)
    (hrun : T.rehash = .ok (T₁, tmpColisions)) : T₁.Load := by
  have hspec := hT.rehashed hsmall hrun joins_true fun _ _ => trivial
  have hoccupied := Finset.card_le_card (hT.rehash_occupied hsmall hrun)
  have hsingles : T₁.singles ⊆ T₁.occupied := by
    intro i hi
    obtain ⟨cell, hcell, hvalue, _⟩ := mem_singles.mp hi
    exact mem_occupied.mpr ⟨cell, hcell, hvalue⟩
  have hcollided : T₁.collided = ∅ := by
    rw [collided, hspec.colisions]
    rfl
  refine ⟨?_, ?_⟩
  · have hkeys := card_buckets_le magnitude (2 * T.size) (T.colisions.map HashItem.key).toFinset
    have hlength := List.toFinset_card_le (T.colisions.map HashItem.key)
    have hcard := Finset.card_le_card hsingles
    have hcount := hload.count
    rw [List.length_map] at hlength
    rw [hspec.colisions, hspec.count, List.length_nil]
    omega
  · have hdouble := card_buckets_double_le magnitude hT.size_pos
      (T.colisions.map HashItem.key).toFinset
    have hlimit := (Finset.card_le_card Finset.subset_union_right).trans hload.limit
    change T.collided.card ≤ 3 * T.size / 4 at hlimit
    rw [hcollided, Finset.union_empty, loadLimit, hspec.size]
    change _ ≤ 2 * T.collided.card at hdouble
    omega

theorem run_load {n : ℕ} (hn : 1 ≤ n) {ops : List Op} {T : HashTable}
    (hrun : Machine.run step (new n) ops = some T) : T.Sound ∧ T.Load := by
  have hall : Machine.Meets step (EachAdd fun _ _ _ => True) (new n) ops :=
    (Machine.meets_label fun _ _ => trivial).mono fun T op _ => eachAdd_true T op
  exact Sound.run_rule (P := Load)
    (fun _ _ _ _ _ hT hload _ _ hresult => hresult.load hT hload)
    (fun _ _ _ hT hload hsmall hrun => hT.rehash_load hload hsmall hrun)
    (new_sound hn) (new_load n) hall hrun

theorem Reachable.occupied_le {T : HashTable} (hT : T.Reachable) :
    T.items.countP (fun cell => cell.value ≠ []) ≤ 3 * T.size / 4 ∧
      T.items.countP (fun cell => cell.value ≠ []) ≤ T.count := by
  obtain ⟨n, ops, hn, _, hrun⟩ := hT
  obtain ⟨hsound, hload⟩ := run_load hn hrun
  have hcard : T.occupied.card = T.items.countP fun cell => cell.value ≠ [] :=
    card_positions _ _
  have hsub : T.occupied.card ≤ (T.occupied ∪ T.collided).card :=
    Finset.card_le_card Finset.subset_union_left
  rw [← hcard]
  exact ⟨hsub.trans hload.limit, hsub.trans (hload.card_le_count hsound)⟩

theorem sharedCell_occupied_le :
    sharedCell.items.countP (fun cell => cell.value ≠ []) ≤ 3 * 2 / 4 ∧
      sharedCell.items.countP (fun cell => cell.value ≠ []) ≤ 1 :=
  sharedCell_reachable.occupied_le

end HashTable

end IndexServer
