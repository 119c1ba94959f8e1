import IndexServer.HashTable.Load
import IndexServer.HashTable.WellFormed

/-!
# What `count` counts

`count` is raised for every step along a chain, though the cell is occupied already, and a growth
leaves it as it is while it drops every head. As long as neither happens to a table that counts its
occupied cells, the collision entries are as many as the linked heads and lie in cells of their own.
So a growth keeps the count right exactly if every head is linked: then each collision entry takes
the place of one head.
-/

namespace IndexServer

namespace HashTable

open Bucket

def Counted (T : HashTable) : Prop := T.count = T.items.countP fun cell => cell.value ≠ []

/-- An insertion takes no step along a chain, and a growth finds every head linked. -/
def Op.Tallies (T : HashTable) : Op → Prop
  | .add key value =>
      T.Fits key value →
        match T.slot (home T.size key) with
        | .linked head _ => head.key = key
        | _ => True
  | .increaseTable =>
      maxCapacity ≤ 2 * T.size ∨ ∀ cell ∈ T.items, cell.value ≠ [] → cell.next ≠ -1

theorem card_occupied (T : HashTable) :
    T.occupied.card = T.items.countP fun cell => cell.value ≠ [] := card_positions _ _

theorem new_counted (n : ℕ) : (new n).Counted := by
  simp [Counted, new, createNewVector, List.countP_replicate]

/-! ### Insertions -/

theorem occupied_write {T : HashTable} {i : ℕ} (hi : i ∈ T.occupied) {cell : HashItem}
    (hvalue : cell.value ≠ []) (entries : List HashItem) (count currentCapacity : ℕ) :
    (T.write i cell entries count currentCapacity).occupied = T.occupied :=
  positions_set_eq_self hi (decide_eq_true hvalue)

theorem card_occupied_write {T : HashTable} {i : ℕ} {old : HashItem}
    (hold : T.items[i]? = some old) (hvacant : old.value = []) {cell : HashItem}
    (hvalue : cell.value ≠ []) (entries : List HashItem) (count currentCapacity : ℕ) :
    (T.write i cell entries count currentCapacity).occupied.card = T.occupied.card + 1 := by
  have hnot : i ∉ T.occupied := by
    intro hi
    obtain ⟨c, hc, hcvalue⟩ := mem_occupied.mp hi
    rw [hold, Option.some.injEq] at hc
    exact hcvalue (hc ▸ hvacant)
  have hinsert : (T.write i cell entries count currentCapacity).occupied = insert i T.occupied :=
    positions_set_eq_insert (List.getElem?_eq_some_iff.mp hold).1 (decide_eq_true hvalue)
  rw [hinsert, Finset.card_insert_of_notMem hnot]

theorem AddResult.tallies_iff {T T' : HashTable} {key : WString} {value : List WString} {code : ℕ}
    (h : AddResult T key value T' code) (hT : T.Sound) (hcounted : T.Counted)
    (hvalue : value ≠ []) : Op.Tallies T (.add key value) ↔ T'.Counted := by
  have hcount : T.count = T.occupied.card := hcounted.trans (card_occupied T).symm
  rw [Counted, ← card_occupied]
  cases h with
  | maxed hcap => exact iff_of_true (fun h => absurd h hcap) hcount
  | full _ hcell hvacant =>
      apply iff_of_true _ hcount
      intro _
      rw [slot_eq_vacant hcell hvacant]
      trivial
  | placed hcap hcell hvacant =>
      apply iff_of_true
      · intro _
        rw [slot_eq_vacant hcell hvacant]
        trivial
      · rw [card_occupied_write hcell hvacant hvalue, ← hcount]
        rfl
  | @extended hcap head hcell hhead hkey =>
      have hi : home T.size key ∈ T.occupied := mem_occupied.mpr ⟨head, hcell, hhead⟩
      apply iff_of_true
      · intro _
        rcases hT.cell_cases hcell with ⟨hvacant, _⟩ | ⟨_, _, hslot⟩ | ⟨_, _, _, _, _, hslot⟩
        · exact absurd hvacant hhead
        · rw [hslot]
          trivial
        · rw [hslot]
          exact hkey
      · rw [occupied_write hi (List.append_ne_nil_of_left_ne_nil hhead value)]
        exact hcount
  | @pushed hcap head hcell hhead hkey hnext =>
      have hi : home T.size key ∈ T.occupied := mem_occupied.mpr ⟨head, hcell, hhead⟩
      apply iff_of_true
      · intro _
        rw [slot_eq_single hcell hhead hnext]
        trivial
      · rw [occupied_write hi (by exact hhead)]
        exact hcount
  | @merged hcap head hcell hhead hkey j hnext entry hentry hentryKey =>
      have hi : home T.size key ∈ T.occupied := mem_occupied.mpr ⟨head, hcell, hhead⟩
      apply iff_of_false
      · intro htallies
        have hsame := htallies hcap
        rw [slot_eq_linked hcell hhead hnext hentry] at hsame
        exact hkey hsame
      · rw [occupied_write hi (List.append_ne_nil_of_right_ne_nil entry.value hvalue), ← hcount]
        exact Nat.succ_ne_self _
  | @relinked hcap head hcell hhead hkey j hnext entry hentry hentryKey =>
      have hi : home T.size key ∈ T.occupied := mem_occupied.mpr ⟨head, hcell, hhead⟩
      apply iff_of_false
      · intro htallies
        have hsame := htallies hcap
        rw [slot_eq_linked hcell hhead hnext hentry] at hsame
        exact hkey hsame
      · rw [occupied_write hi (by exact hhead), ← hcount]
        exact Nat.succ_ne_self _

theorem AddResult.count_le {T T' : HashTable} {key : WString} {value : List WString} {code : ℕ}
    (h : AddResult T key value T' code) : T.count ≤ T'.count := by
  cases h with
  | maxed => exact le_rfl
  | full => exact le_rfl
  | placed => exact Nat.le_succ _
  | extended => exact le_rfl
  | pushed => exact le_rfl
  | merged => exact Nat.le_succ _
  | relinked => exact Nat.le_succ _

theorem AddResult.occupied_subset {T T' : HashTable} {key : WString} {value : List WString}
    {code : ℕ} (h : AddResult T key value T' code) :
    T'.occupied ⊆ insert (home T.size key) T.occupied := by
  intro m hm
  obtain ⟨cell, hcell, hvalue⟩ := mem_occupied.mp hm
  rcases h.cell_cases hcell with hold | ⟨rfl, _⟩ | ⟨head, hhead, hheadValue, _⟩
  · exact Finset.mem_insert_of_mem (mem_occupied.mpr ⟨cell, hold, hvalue⟩)
  · exact Finset.mem_insert_self _ _
  · exact Finset.mem_insert_of_mem (mem_occupied.mpr ⟨head, hhead, hheadValue⟩)

/-! ### Growths -/

def Growth.Fills (g : Growth) (m : ℕ) : Prop :=
  ∃ cell, g.newItemsVector[m]? = some cell ∧ cell.value ≠ []

section fills

variable {g g' : Growth} {newSize i : ℕ} {old cell item : HashItem}

theorem Growth.fills_set_self (hold : g.newItemsVector[i]? = some old) (hvalue : cell.value ≠ []) :
    Fills { g with newItemsVector := g.newItemsVector.set i cell } i :=
  ⟨cell, List.getElem?_set_self (List.getElem?_eq_some_iff.mp hold).1, hvalue⟩

theorem Growth.fills_set (hold : g.newItemsVector[i]? = some old)
    (hkept : old.value ≠ [] → cell.value ≠ []) {m : ℕ} (hm : g.Fills m) :
    Fills { g with newItemsVector := g.newItemsVector.set i cell } m := by
  obtain ⟨c, hc, hvalue⟩ := hm
  by_cases hmi : m = i
  · subst hmi
    rw [hold, Option.some.injEq] at hc
    subst hc
    exact fills_set_self hold (hkept hvalue)
  · exact ⟨c, (List.getElem?_set_ne (Ne.symm hmi)).trans hc, hvalue⟩

theorem PlaceResult.fills (h : PlaceResult g newSize item g') :
    (∀ m, g.Fills m → g'.Fills m) ∧ (item.value ≠ [] → g'.Fills (home newSize item.key)) := by
  cases h with
  | deferred hcell hvalue => exact ⟨fun _ => id, fun _ => ⟨_, hcell, hvalue⟩⟩
  | merged hcell hvalue =>
      have hjoined := List.append_ne_nil_of_left_ne_nil hvalue item.value
      exact ⟨fun m => Growth.fills_set hcell fun _ => hjoined,
        fun _ => Growth.fills_set_self hcell hjoined⟩
  | put hcell hvalue =>
      exact ⟨fun m => Growth.fills_set hcell fun hne => absurd hvalue hne,
        Growth.fills_set_self hcell⟩

end fills

theorem Sound.growColisions_fills {T : HashTable} (hT : T.Sound) {newSize : ℕ} (hsize : 0 < newSize)
    (husable : ∀ key, Usable T.size key → Usable newSize key) {indices : List ℕ} {g g' : Growth}
    (hlength : g.newItemsVector.length = newSize)
    (hgrow : T.growColisions newSize indices g = .ok g') :
    (∀ m, g.Fills m → g'.Fills m) ∧
      ∀ i ∈ indices, ∀ entry, T.colisions[i]? = some entry → entry.value ≠ [] →
        g'.Fills (home newSize entry.key) := by
  induction indices generalizing g with
  | nil =>
      cases hgrow
      exact ⟨fun _ => id, fun i hi => absurd hi List.not_mem_nil⟩
  | cons i rest ih =>
      rw [growColisions, Exec.bind_eq_ok] at hgrow
      obtain ⟨item, hitem, hgrow⟩ := hgrow
      rw [Exec.bind_eq_ok] at hgrow
      obtain ⟨g₁, hplace, hgrow⟩ := hgrow
      have hentry : T.colisions[i]? = some item := vectorGet_natCast_eq_ok.mp hitem
      have hkey := husable _ (hT.entry_usable _ (List.mem_of_getElem? hentry))
      have hplaced : Usable newSize ({ item with next := -1 } : HashItem).key := hkey
      obtain ⟨g₂, hplace', hresult⟩ := place_result hsize hlength hplaced
      rw [hplace'] at hplace
      cases hplace
      obtain ⟨hkept, hall⟩ := ih (hresult.length.trans hlength) hgrow
      obtain ⟨hold, hnew⟩ := hresult.fills
      refine ⟨fun m hm => hkept m (hold m hm), fun j hj entry hj' hvalue => ?_⟩
      rcases List.mem_cons.mp hj with rfl | hj
      · rw [hentry, Option.some.injEq] at hj'
        subst hj'
        exact hkept _ (hnew hvalue)
      · exact hall j hj entry hj' hvalue

theorem Sound.rehash_fills {T T₁ : HashTable} {tmpColisions : List HashItem} (hT : T.Sound)
    (hsmall : 2 * T.size < maxCapacity) (hrun : T.rehash = .ok (T₁, tmpColisions))
    {entry : HashItem} (hentry : entry ∈ T.colisions) (hvalue : entry.value ≠ []) :
    home (2 * T.size) entry.key ∈ T₁.occupied := by
  have hpos : 0 < 2 * T.size := Nat.mul_pos Nat.two_pos hT.size_pos
  have husable : ∀ key, Usable T.size key → Usable (2 * T.size) key :=
    fun key hkey => hkey.double hsmall
  have hitems : ∀ i ∈ List.range T.size, i < T.items.length := by
    intro i hi
    rw [hT.items_length]
    exact List.mem_range.mp hi
  obtain ⟨g, hgrow, hlength, _⟩ := growItems_rule (P := fun _ => True)
    (g := ⟨createNewVector (2 * T.size), []⟩) hT hpos husable (fun _ _ _ _ _ _ _ _ => trivial)
    hitems List.length_replicate trivial
  rw [rehash, hgrow, Exec.ok_bind, Exec.bind_eq_ok] at hrun
  obtain ⟨g', hgrow', hinstall⟩ := hrun
  rw [if_neg (not_not_intro hT.idle)] at hinstall
  cases hinstall
  obtain ⟨j, hj⟩ := List.mem_iff_getElem?.mp hentry
  have hmem : j ∈ List.range T.colisions.length :=
    List.mem_range.mpr (List.getElem?_eq_some_iff.mp hj).1
  exact mem_occupied.mpr
    ((hT.growColisions_fills hpos husable hlength hgrow').2 j hmem entry hj hvalue)

/-- A table with values in all collision entries that counts its occupied cells has as many
collision entries as linked heads, each in a cell of its own. -/
theorem Sound.collided_spec {T : HashTable} (hT : T.Sound) (hload : T.Load)
    (hcounted : T.Counted) :
    T.colisions.length + T.singles.card = T.occupied.card ∧
      (T.colisions.map fun entry => home T.size entry.key).Nodup := by
  have hcount : T.count = T.occupied.card := hcounted.trans (card_occupied T).symm
  have hcover := (Finset.card_le_card hT.occupied_subset).trans (Finset.card_union_le _ _)
  have hle := T.card_collided_le
  have hload := hload.count
  have hcollided : T.collided = (T.colisions.map fun entry => home T.size entry.key).toFinset := by
    ext i
    rw [mem_collided, List.mem_toFinset, List.mem_map]
  refine ⟨by omega, Multiset.coe_nodup.mp (Multiset.toFinset_card_eq_card_iff_nodup.mp ?_)⟩
  show (T.colisions.map fun entry => home T.size entry.key).toFinset.card = _
  rw [← hcollided, Multiset.coe_card, List.length_map]
  omega

/-- Collision entries in cells of their own lie in cells of their own after a growth. -/
theorem nodup_double {T : HashTable}
    (hnodup : (T.colisions.map fun entry => home T.size entry.key).Nodup) :
    (T.colisions.map fun entry => home (2 * T.size) entry.key).Nodup := by
  apply List.Nodup.of_map (fun i => i % T.size)
  rw [List.map_map]
  have hmod : ((fun i => i % T.size) ∘ fun entry : HashItem => home (2 * T.size) entry.key) =
      fun entry => home T.size entry.key := by
    funext entry
    exact bucket_double_mod magnitude T.size entry.key
  rw [hmod]
  exact hnodup

theorem Sound.rehash_deferred_nil {T T₁ : HashTable} {tmpColisions : List HashItem} (hT : T.Sound)
    (hsmall : 2 * T.size < maxCapacity) (hrun : T.rehash = .ok (T₁, tmpColisions))
    (hnodup : (T.colisions.map fun entry => home T.size entry.key).Nodup) : tmpColisions = [] := by
  have hspec := hT.rehashed hsmall hrun
    (joins_keys fun key => ∃ entry ∈ T.colisions, entry.key = key)
    fun entry hentry => ⟨entry, hentry, rfl⟩
  apply List.eq_nil_iff_forall_not_mem.mpr
  intro hi hmem
  obtain ⟨_, ⟨entry, hentry, hkey⟩, head, hhead, hvalue, hne⟩ := hspec.deferred hi hmem
  obtain ⟨_, other, hother, hotherKey⟩ := hspec.cell_entry _ head hhead hvalue
  have hhome := hspec.sound.cell_home _ head hhead hvalue
  rw [hspec.size, ← hkey, ← hotherKey] at hhome
  have hsame : other = entry := List.inj_on_of_nodup_map (nodup_double hnodup) hother hentry hhome
  apply hne
  rw [← hotherKey, ← hkey, hsame]

theorem Sound.growth_count {T T' : HashTable} (hT : T.Sound)
    (hgrow : T.increaseTable = .ok (T', 0)) :
    T.count ≤ T'.count ∧
      T'.occupied ⊆ buckets magnitude (2 * T.size) (T.colisions.map HashItem.key).toFinset := by
  have hP := (hT.growth_rule
    (P := fun T' => T'.size = 2 * T.size ∧ T.count ≤ T'.count ∧
      T'.occupied ⊆ buckets magnitude (2 * T.size) (T.colisions.map HashItem.key).toFinset)
    (joins_keys fun key => key ∈ T.colisions.map HashItem.key)
    (fun entry hentry => List.mem_map_of_mem hentry) ?_ ?_ (eachAdd_true T _) hgrow).2
  · exact hP.2
  · intro T₁ key value T₂ code _ hP _ hkey _ hresult
    obtain ⟨hsize, hcount, hoccupied⟩ := hP
    refine ⟨hresult.size_eq.trans hsize, hcount.trans hresult.count_le, ?_⟩
    apply hresult.occupied_subset.trans
    rw [hsize]
    exact Finset.insert_subset ((mem_buckets magnitude).mpr ⟨key, List.mem_toFinset.mpr hkey, rfl⟩)
      hoccupied
  · intro T₁ tmpColisions hsmall hrun hspec
    exact ⟨hspec.size, hspec.count.ge, hT.rehash_occupied hsmall hrun⟩

/-- After a growth of a table that counts its occupied cells the count is right exactly if every
head was linked, or the table was too large to grow. -/
theorem Sound.growth_tallies_iff {T T' : HashTable} {code : ℕ} (hT : T.Sound) (hload : T.Load)
    (hfilled : T.Entries fun _ value => value ≠ []) (hcounted : T.Counted)
    (hgrow : T.increaseTable = .ok (T', code)) :
    Op.Tallies T .increaseTable ↔ T'.Counted := by
  obtain ⟨hlength, hnodup⟩ := hT.collided_spec hload hcounted
  have hcount : T.count = T.occupied.card := hcounted.trans (card_occupied T).symm
  rcases hT.increaseTable_cases with
    ⟨hlarge, hsame⟩ | ⟨T₁, tmp, T₂, hsmall, hrun, hreadd, _, _, hnew⟩
  · rw [hsame] at hgrow
    cases hgrow
    exact iff_of_true (.inl hlarge) hcounted
  rw [hnew] at hgrow
  cases hgrow
  rw [Counted, ← card_occupied]
  constructor
  · intro hguard
    have hlinked := hguard.resolve_left (Nat.not_le.mpr hsmall)
    have hsingles : T.singles = ∅ := by
      apply Finset.eq_empty_of_forall_notMem
      intro i hi
      obtain ⟨cell, hcell, hvalue, hend⟩ := mem_singles.mp hi
      exact hlinked cell (List.mem_of_getElem? hcell) hvalue hend
    obtain rfl := hT.rehash_deferred_nil hsmall hrun hnodup
    cases hreadd
    have hspec := hT.rehashed hsmall hrun joins_true fun _ _ => trivial
    have hcells : (T.colisions.map fun entry => home (2 * T.size) entry.key).toFinset =
        T'.occupied := by
      apply Finset.Subset.antisymm
      · intro i hi
        obtain ⟨entry, hentry, rfl⟩ := List.mem_map.mp (List.mem_toFinset.mp hi)
        exact hT.rehash_fills hsmall hrun hentry (hfilled entry hentry)
      · intro i hi
        obtain ⟨key, hkey, rfl⟩ := (mem_buckets magnitude).mp (hT.rehash_occupied hsmall hrun hi)
        obtain ⟨entry, hentry, rfl⟩ := List.mem_map.mp (List.mem_toFinset.mp hkey)
        exact List.mem_toFinset.mpr (List.mem_map.mpr ⟨entry, hentry, rfl⟩)
    have hcard := List.toFinset_card_of_nodup (nodup_double hnodup)
    rw [hcells, List.length_map] at hcard
    rw [hsingles, Finset.card_empty] at hlength
    have hkept := hspec.count
    omega
  · intro hcounted'
    refine .inr fun cell hcell hvalue hend => ?_
    obtain ⟨i, hi⟩ := List.mem_iff_getElem?.mp hcell
    have hsingle : 0 < T.singles.card :=
      Finset.card_pos.mpr ⟨i, mem_singles.mpr ⟨cell, hi, hvalue, hend⟩⟩
    obtain ⟨hle, hoccupied⟩ := hT.growth_count hnew
    have hcells := (Finset.card_le_card hoccupied).trans (card_buckets_le _ _ _)
    have hkeys := List.toFinset_card_le (T.colisions.map HashItem.key)
    rw [List.length_map] at hkeys
    omega

/-! ### Runs -/

theorem Sound.step_filled {T T' : HashTable} {op : Op} (hT : T.Sound) (hload : T.Load)
    (hfilled : T.Entries fun _ value => value ≠ []) (hop : op.Filled)
    (hstep : T.step op = some T') : T'.Sound ∧ T'.Load ∧ T'.Entries fun _ value => value ≠ [] := by
  refine Sound.step_rule (P := fun T => T.Load ∧ T.Entries fun _ value => value ≠ []) ?_ ?_
    hT ⟨hload, hfilled⟩ (hop.eachAdd hT hfilled) hstep
  · intro T key value T' code hT hP _ hvalue hresult
    exact ⟨hresult.load hT hP.1, hresult.entries hP.2 hvalue⟩
  · intro T T₁ tmpColisions hT hP hsmall hrun
    exact ⟨hT.rehash_load hP.1 hsmall hrun, hT.rehash_entries hsmall hrun _⟩

theorem Sound.step_tallies_iff {T T' : HashTable} {op : Op} (hT : T.Sound) (hload : T.Load)
    (hfilled : T.Entries fun _ value => value ≠ []) (hcounted : T.Counted) (hop : op.Filled)
    (hstep : T.step op = some T') : Op.Tallies T op ↔ T'.Counted := by
  cases op with
  | add key value =>
      obtain ⟨_, code, hresult⟩ := hT.step_add hstep
      exact hresult.tallies_iff hT hcounted hop
  | increaseTable =>
      rw [step] at hstep
      obtain ⟨⟨T₁, code⟩, hgrow, hfirst⟩ := Option.map_eq_some_iff.mp hstep
      cases hfirst
      exact hT.growth_tallies_iff hload hfilled hcounted (Exec.toOption_eq_some.mp hgrow)

theorem run_counted_iff {n : ℕ} (hn : 1 ≤ n) {ops : List Op} (hops : ∀ op ∈ ops, op.Filled)
    {T : HashTable} (hrun : Machine.run step (new n) ops = some T) :
    Machine.Meets step Op.Tallies (new n) ops ↔
      ∀ front T', front <+: ops → Machine.run step (new n) front = some T' → T'.Counted := by
  refine Machine.meets_iff_reached
    (fun T => T.Sound ∧ T.Load ∧ T.Entries fun _ value => value ≠ []) Counted ?_ ?_ hops
    ⟨new_sound hn, new_load n, entries_new _ n⟩ (new_counted n) hrun
  · intro T op T' hop hT hstep
    exact hT.1.step_filled hT.2.1 hT.2.2 hop hstep
  · intro T op T' hop hT hcounted hstep
    exact hT.1.step_tallies_iff hT.2.1 hT.2.2 hcounted hop hstep

theorem sharedCell_counted_iff :
    Machine.Meets step Op.Tallies (new 2) [.add [97] [[49]], .add [99] [[50]]] ↔
      ∀ front T, front <+: [Op.add [97] [[49]], .add [99] [[50]]] →
        Machine.run step (new 2) front = some T → T.Counted := by
  have hrun : Machine.run step (new 2) [.add [97] [[49]], .add [99] [[50]]] = some sharedCell := by
    decide
  exact run_counted_iff (by decide) (by decide) hrun

/-- The second insertion of "c" takes a step along the chain of its cell. -/
theorem sharedCell_not_counted : ¬ ∀ n : ℕ, 1 ≤ n → ∀ ops : List Op, (∀ op ∈ ops, op.Filled) →
    ∀ T, Machine.run step (new n) ops = some T → T.Counted := by
  intro h
  have hrun : Machine.run step (new 2)
      [.add [97] [[49]], .add [99] [[50]], .add [99] [[51]]] = some { sharedCell with
        count := 2
        currentCapacity := 37
        items := [⟨[97], [[50], [51]], 1, 0⟩, ⟨[], [], -1, -1⟩] } := by decide
  exact absurd (h 2 (by decide) _ (by decide) _ hrun) (by unfold Counted; decide)

end HashTable

end IndexServer
