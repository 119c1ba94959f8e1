import IndexServer.HashTable.WellFormed

/-!
# What a growth changes for lookups

The first loop of `increaseTable` skips the cells that have values, so a growth carries over the
collision entries alone and every head is lost. A table keeps its lookups through a growth only if
it refuses to grow or has nothing to lose.
-/

namespace IndexServer

namespace HashTable

theorem usable_double_iff {size : ℕ} (hsmall : 2 * size < maxCapacity) {key : WString} :
    Usable (2 * size) key ↔ Usable size key := by
  constructor
  · exact fun hkey => hkey.imp_right fun hdvd => (Nat.dvd_mul_left size 2).trans hdvd
  · exact fun hkey => hkey.double hsmall

theorem Sound.lookup_eq_nil {T : HashTable} (hT : T.Sound) {p : WString → Prop} (hkeys : T.Keys p)
    {key : WString} (hkey : ¬ p key) : T.lookup key = [] := by
  obtain ⟨cell, hcell⟩ := hT.exists_cell key
  have hhead : cell.value ≠ [] → key ≠ cell.key := by
    rintro hvalue rfl
    exact hkey (hkeys.cell _ _ hcell hvalue)
  rw [lookup]
  rcases hT.cell_cases hcell with ⟨_, hslot⟩ | ⟨hvalue, _, hslot⟩ |
    ⟨j, entry, hvalue, _, hentry, hslot⟩
  · rw [hslot]
    rfl
  · rw [hslot]
    exact if_neg (hhead hvalue)
  · have hbehind : key ≠ entry.key := by
      rintro rfl
      exact hkey (hkeys.entries entry (List.mem_of_getElem? hentry))
    rw [hslot]
    exact (if_neg (hhead hvalue)).trans (if_neg hbehind)

theorem Sound.lookup_head {T : HashTable} (hT : T.Sound) {i : ℕ} {cell : HashItem}
    (hcell : T.items[i]? = some cell) (hvalue : cell.value ≠ []) :
    T.lookup cell.key = cell.value := by
  rw [lookup, hT.cell_home i cell hcell hvalue]
  rcases hT.cell_cases hcell with ⟨hvacant, _⟩ | ⟨_, _, hslot⟩ | ⟨_, _, _, _, _, hslot⟩
  · exact absurd hvacant hvalue
  · rw [hslot]
    exact if_pos rfl
  · rw [hslot]
    exact if_pos rfl

/-- `increaseTable` returns; with zero, the size is doubled and every `get` is as before, and with
one the table is as before. -/
def GrowthKeeps (T : HashTable) : Prop :=
  ∃ T' code, T.increaseTable = .ok (T', code) ∧
    (code = 0 → T'.size = 2 * T.size ∧ ∀ key, T'.get key = T.get key) ∧ (code = 1 → T' = T)

/-- The key of a head is the key of no collision entry, so a growth loses it. -/
theorem Sound.growth_loses_head {T T' : HashTable} (hT : T.Sound) (hfronted : T.Fronted) {i : ℕ}
    {cell : HashItem} (hcell : T.items[i]? = some cell) (hvalue : cell.value ≠ [])
    (hT' : T'.Sound) (hgrow : T.increaseTable = .ok (T', 0)) : T'.lookup cell.key = [] := by
  have hkeys : T'.Keys fun key => ∃ entry ∈ T.colisions, entry.key = key :=
    hT.increaseTable_keys (fun entry hentry => ⟨entry, hentry, rfl⟩) hgrow
  apply hT'.lookup_eq_nil hkeys
  rintro ⟨entry, hentry, hsame⟩
  obtain ⟨head, hhead, _, hne⟩ := hfronted entry hentry
  rw [hsame, hT.cell_home i cell hcell hvalue, hcell, Option.some.injEq] at hhead
  exact hne (hhead ▸ hsame.symm)

/-- Without a head there are no collision entries either, and no keys. -/
theorem Fronted.keys_false {T : HashTable} (hfronted : T.Fronted)
    (hempty : ∀ cell ∈ T.items, cell.value = []) : T.Keys fun _ => False where
  cell _ cell hcell hvalue := hvalue (hempty cell (List.mem_of_getElem? hcell))
  entries entry hentry := by
    obtain ⟨head, hhead, hvalue, _⟩ := hfronted entry hentry
    exact hvalue (hempty head (List.mem_of_getElem? hhead))

theorem run_growthKeeps_iff {n : ℕ} (hn : 1 ≤ n) {ops : List Op} (hops : ∀ op ∈ ops, op.Filled)
    {T : HashTable} (hrun : Machine.run step (new n) ops = some T) :
    T.GrowthKeeps ↔ maxCapacity ≤ 2 * T.size ∨ ∀ cell ∈ T.items, cell.value = [] := by
  obtain ⟨hT, _, hfronted⟩ := run_shape hn (meets_not_emptiesHead hn hops) hrun
  rcases hT.increaseTable_cases with
    ⟨hlarge, hsame⟩ | ⟨T₁, tmp, T', hsmall, _, _, hT', hsize, hgrow⟩
  · refine iff_of_true ⟨T, 1, hsame, fun h => absurd h (by decide), fun _ => rfl⟩ (.inl hlarge)
  have husable : ∀ key, Usable T.size key → Usable T'.size key := by
    intro key hkey
    rw [hsize]
    exact hkey.double hsmall
  constructor
  · intro hkeeps
    refine .inr fun cell hmem => ?_
    by_contra hvalue
    obtain ⟨i, hcell⟩ := List.mem_iff_getElem?.mp hmem
    obtain ⟨T₂, code, hgrow₂, hkept, _⟩ := hkeeps
    rw [hgrow, Except.ok.injEq, Prod.mk.injEq] at hgrow₂
    obtain ⟨rfl, rfl⟩ := hgrow₂
    have hkey := hT.cell_usable i cell hcell
    have hget := (hkept rfl).2 cell.key
    have hbefore : T.get cell.key = .ok (T.lookup cell.key) := hT.get_eq hkey
    have hafter : T'.get cell.key = .ok (T'.lookup cell.key) := hT'.get_eq (husable _ hkey)
    rw [hbefore, hafter, hT.lookup_head hcell hvalue,
      hT.growth_loses_head hfronted hcell hvalue hT' hgrow, Except.ok.injEq] at hget
    exact hvalue hget.symm
  · intro hempty
    have hnone : ∀ cell ∈ T.items, cell.value = [] :=
      hempty.resolve_left (Nat.not_le.mpr hsmall)
    have hkeys := hfronted.keys_false hnone
    have hkeys' := hT.increaseTable_keys hkeys.entries hgrow
    refine ⟨T', 0, hgrow, fun _ => ⟨hsize, fun key => ?_⟩, fun h => absurd h (by decide)⟩
    by_cases hkey : Usable T.size key
    · have hbefore : T.get key = .ok (T.lookup key) := hT.get_eq hkey
      have hafter : T'.get key = .ok (T'.lookup key) := hT'.get_eq (husable key hkey)
      rw [hbefore, hafter, hT.lookup_eq_nil hkeys not_false, hT'.lookup_eq_nil hkeys' not_false]
    · have hkey' : ¬ Usable T'.size key := by
        rw [hsize, usable_double_iff hsmall]
        exact hkey
      rw [get_of_not_usable hkey, get_of_not_usable hkey']

def oneHead : HashTable where
  size := 2
  count := 1
  currentCapacity := 18
  items := [⟨[97], [[49]], 1, -1⟩, ⟨[], [], -1, -1⟩]
  colisions := []
  itemsMutexesSize := 1
  itemsMutexes := 1
  busyThreadCount := 0

theorem oneHead_growthKeeps : oneHead.GrowthKeeps ↔
    maxCapacity ≤ 2 * 2 ∨ ∀ cell ∈ oneHead.items, cell.value = [] := by
  have hrun : Machine.run step (new 2) [.add [97] [[49]]] = some oneHead := by decide
  exact run_growthKeeps_iff (by decide) (by decide) hrun

theorem oneHead_not_growthKeeps : ¬ ∀ n : ℕ, 1 ≤ n → ∀ ops : List Op, (∀ op ∈ ops, op.Filled) →
    ∀ T, Machine.run step (new n) ops = some T → T.GrowthKeeps := by
  intro h
  obtain ⟨T', code, hgrow, hkept, _⟩ :=
    h 2 (by decide) [.add [97] [[49]]] (by decide) oneHead (by decide)
  have hresult : oneHead.increaseTable = .ok ({ oneHead with
      size := 4
      items := [⟨[], [], -1, -1⟩, ⟨[], [], -1, -1⟩, ⟨[], [], -1, -1⟩, ⟨[], [], -1, -1⟩] }, 0) := by
    decide
  rw [hresult] at hgrow
  cases hgrow
  exact absurd ((hkept rfl).2 [97]) (by decide)

end HashTable

end IndexServer
