import IndexServer.HashTable.Lookup

/-!
# The shape of a table

In a well-formed table every cell, link and collision entry is where a lookup expects it. One
insertion breaks this in the end: an empty list of values whose key is that of an entry behind a
head, when that entry has no values either, empties the head but leaves its link. A later insertion
then finds the cell free, and a growth copies the link into vectors that no longer have what it
leads to. Runs without such an insertion keep the table in shape.
-/

namespace IndexServer

namespace HashTable

/-- The positions met when links are followed from `next` to the end. -/
inductive Walk (colisions : List HashItem) : Int → List ℕ → Prop
  | done : Walk colisions (-1) []
  | link {j : ℕ} {entry : HashItem} {rest : List ℕ} (hentry : colisions[j]? = some entry)
      (hrest : Walk colisions entry.next rest) : Walk colisions j (j :: rest)

structure WellFormed (T : HashTable) : Prop where
  items_length : T.items.length = T.size
  cell_hash : ∀ (i : ℕ) (cell : HashItem), T.items[i]? = some cell → cell.value ≠ [] →
    hashFunction cell.key T.size = i
  next_valid : ∀ item ∈ T.items ++ T.colisions,
    item.next = -1 ∨ 0 ≤ item.next ∧ item.next < T.colisions.length
  walk : ∀ (i : ℕ) (cell : HashItem), T.items[i]? = some cell →
    ∃ visited, Walk T.colisions cell.next visited ∧ visited.Nodup ∧
      ∀ j ∈ visited, ∀ entry, T.colisions[j]? = some entry → hashFunction entry.key T.size = i
  head_ne : ∀ entry ∈ T.colisions, ∀ (i : ℕ) (cell : HashItem),
    hashFunction entry.key T.size = i → T.items[i]? = some cell → cell.value ≠ [] →
      cell.key ≠ entry.key
  mutex_valid : ∀ i < T.size, 0 ≤ T.getMutexIndex i ∧ T.getMutexIndex i < T.itemsMutexes

/-- No call faults: each loop ends and each access is in range. -/
structure Returns (T : HashTable) : Prop where
  get : ∀ key, Admissible key → ∃ found, T.get key = .ok found
  add : ∀ key value, Admissible key → ∃ result, T.add key value = .ok result
  handleCollision : ∀ (item : HashItem) (i : ℕ), i < T.size →
    ∃ T', T.handleCollision item i = .ok T'
  increaseTable : ∃ result, T.increaseTable = .ok result

/-! ### The invariant -/

/-- Every collision entry has a head with another key in front of it. -/
def Fronted (T : HashTable) : Prop :=
  ∀ entry ∈ T.colisions, ∃ head, T.items[home T.size entry.key]? = some head ∧ head.value ≠ [] ∧
    head.key ≠ entry.key

theorem new_tidy (n : ℕ) : (new n).Tidy := by
  intro i cell hcell _
  rw [new_getElem? hcell]

theorem new_fronted (n : ℕ) : (new n).Fronted := fun _ h => absurd h List.not_mem_nil

/-- The insertion joins two empty lists into the head of its cell. -/
def Slot.Empties (key : WString) (value : List WString) : Slot → Prop
  | .linked head entry => head.key ≠ key ∧ entry.key = key ∧ entry.value ++ value = []
  | _ => False

/-- `add` takes the values from a cell and leaves its link. -/
def EmptiesHead (T : HashTable) (key : WString) (value : List WString) : Prop :=
  T.Fits key value ∧ (T.slot (home T.size key)).Empties key value

section write

variable {T : HashTable} {i : ℕ} {cell : HashItem} {count currentCapacity : ℕ}

theorem Tidy.write (hT : T.Tidy) {entries : List HashItem}
    (hcell : cell.value = [] → cell.next = -1) :
    (T.write i cell entries count currentCapacity).Tidy := by
  intro m c hc hvalue
  rcases getElem?_set_cases hc with ⟨_, rfl⟩ | ⟨_, hold⟩
  · exact hcell hvalue
  · exact hT m c hold hvalue

theorem Fronted.write (hT : T.Fronted) {head : HashItem} (hhead : T.items[i]? = some head)
    (hkey : cell.key = head.key) (hvalue : cell.value ≠ []) {entries : List HashItem}
    (hentries : ∀ entry ∈ entries, home T.size entry.key = i ∧ head.key ≠ entry.key) :
    (T.write i cell entries count currentCapacity).Fronted := by
  have hlt : i < T.items.length := (List.getElem?_eq_some_iff.mp hhead).1
  have hself : (T.write i cell entries count currentCapacity).items[i]? = some cell :=
    write_getElem?_self hlt
  intro entry hentry
  change ∃ head, (T.write i cell entries count currentCapacity).items[home T.size entry.key]? =
    some head ∧ head.value ≠ [] ∧ head.key ≠ entry.key
  rcases List.mem_append.mp hentry with hold | hnew
  · obtain ⟨front, hfront, hfrontValue, hfrontKey⟩ := hT entry hold
    by_cases hhome : home T.size entry.key = i
    · rw [hhome, hhead, Option.some.injEq] at hfront
      subst hfront
      rw [hhome]
      exact ⟨cell, hself, hvalue, hkey ▸ hfrontKey⟩
    · exact ⟨front, (write_getElem?_ne hhome).trans hfront, hfrontValue, hfrontKey⟩
  · obtain ⟨hhome, hne⟩ := hentries entry hnew
    rw [hhome]
    exact ⟨cell, hself, hvalue, hkey ▸ hne⟩

end write

/-- An insertion that empties no head keeps the table tidy and every entry behind a head. -/
theorem AddResult.shape {T T' : HashTable} {key : WString} {value : List WString} {code : ℕ}
    (h : AddResult T key value T' code) (hshape : T.Tidy ∧ T.Fronted)
    (hguard : ¬ T.EmptiesHead key value) : T'.Tidy ∧ T'.Fronted := by
  obtain ⟨htidy, hfronted⟩ := hshape
  have hnone : ∀ head : HashItem, ∀ entry ∈ ([] : List HashItem),
      home T.size entry.key = home T.size key ∧ head.key ≠ entry.key :=
    fun _ _ h => absurd h List.not_mem_nil
  have hnew : ∀ head : HashItem, head.key ≠ key → ∀ entry ∈ [newItem key value],
      home T.size entry.key = home T.size key ∧ head.key ≠ entry.key := by
    intro head hne entry hentry
    rw [List.mem_singleton.mp hentry]
    exact ⟨rfl, hne⟩
  cases h with
  | maxed => exact ⟨htidy, hfronted⟩
  | full => exact ⟨htidy, hfronted⟩
  | placed hcap hcell hvacant hload =>
      refine ⟨htidy.write fun _ => rfl, fun entry hentry => ?_⟩
      rw [write, List.append_nil] at hentry
      obtain ⟨head, hhead, hvalue, hkey⟩ := hfronted entry hentry
      -- the cell was free, so no collision entry belongs to it
      have hhome : home T.size entry.key ≠ home T.size key := by
        intro hhome
        rw [hhome, hcell, Option.some.injEq] at hhead
        exact hvalue (hhead ▸ hvacant)
      exact ⟨head, (write_getElem?_ne hhome).trans hhead, hvalue, hkey⟩
  | extended hcap hcell hvalue hhead =>
      have hvalue' := List.append_ne_nil_of_left_ne_nil hvalue value
      exact ⟨htidy.write fun h => absurd h hvalue', hfronted.write hcell (by rfl) hvalue' (hnone _)⟩
  | pushed hcap hcell hvalue hhead hnext =>
      exact ⟨htidy.write fun h => absurd h hvalue,
        hfronted.write hcell (by rfl) (by exact hvalue) (hnew _ hhead)⟩
  | @merged hcap _ hcell hvalue hhead _ hnext entry hentry hkey =>
      have hjoined : entry.value ++ value ≠ [] := by
        intro hempty
        refine hguard ⟨hcap, ?_⟩
        rw [slot_eq_linked hcell hvalue hnext hentry]
        exact ⟨hhead, hkey, hempty⟩
      exact ⟨htidy.write fun h => absurd h hjoined, hfronted.write hcell (by rfl) hjoined (hnone _)⟩
  | relinked hcap hcell hvalue hhead hnext hentry hkey =>
      exact ⟨htidy.write fun h => absurd h hvalue,
        hfronted.write hcell (by rfl) (by exact hvalue) (hnew _ hhead)⟩

theorem Sound.rehash_shape {T T₁ : HashTable} {tmpColisions : List HashItem} (hT : T.Sound)
    (htidy : T.Tidy) (hsmall : 2 * T.size < maxCapacity)
    (hrun : T.rehash = .ok (T₁, tmpColisions)) : T₁.Tidy ∧ T₁.Fronted := by
  have hspec := hT.rehashed hsmall hrun joins_true fun _ _ => trivial
  refine ⟨fun i cell hcell _ => hspec.tidy htidy i cell hcell, ?_⟩
  rw [Fronted, hspec.colisions]
  exact fun _ h => absurd h List.not_mem_nil

/-! ### From the invariant to the shape -/

namespace Sound

variable {T : HashTable} (hT : T.Sound) (htidy : T.Tidy)
include hT

theorem cell_hash {i : ℕ} {cell : HashItem} (hcell : T.items[i]? = some cell)
    (hvalue : cell.value ≠ []) : hashFunction cell.key T.size = i := by
  rw [hashFunction_eq_home (hT.cell_usable i cell hcell), hT.cell_home i cell hcell hvalue]

theorem entry_hash {entry : HashItem} (hentry : entry ∈ T.colisions) :
    hashFunction entry.key T.size = home T.size entry.key :=
  hashFunction_eq_home (hT.entry_usable entry hentry)

include htidy

theorem cell_link {i : ℕ} {cell : HashItem} (hcell : T.items[i]? = some cell) :
    cell.next = -1 ∨ ∃ (j : ℕ) (entry : HashItem), cell.next = (j : Int) ∧
      T.colisions[j]? = some entry ∧ home T.size entry.key = i := by
  by_cases hvalue : cell.value = []
  · exact .inl (htidy i cell hcell hvalue)
  · rcases hT.cell_next i cell hcell hvalue with hend | ⟨j, entry, hnext, hentry, hhome, _⟩
    · exact .inl hend
    · exact .inr ⟨j, entry, hnext, hentry, hhome⟩

theorem wellFormed (hfronted : T.Fronted) : T.WellFormed where
  items_length := hT.items_length
  cell_hash _ _ hcell hvalue := hT.cell_hash hcell hvalue
  next_valid item hitem := by
    rcases List.mem_append.mp hitem with hcell | hentry
    · obtain ⟨i, hi⟩ := List.mem_iff_getElem?.mp hcell
      rcases hT.cell_link htidy hi with hend | ⟨j, entry, hnext, hentry, _⟩
      · exact .inl hend
      · have hlt : j < T.colisions.length := (List.getElem?_eq_some_iff.mp hentry).1
        right
        omega
    · exact .inl (hT.entry_next item hentry)
  walk i cell hcell := by
    rcases hT.cell_link htidy hcell with hend | ⟨j, entry, hnext, hentry, hhome⟩
    · refine ⟨[], ?_, List.nodup_nil, fun _ h => absurd h List.not_mem_nil⟩
      rw [hend]
      exact .done
    · have hmem := List.mem_of_getElem? hentry
      refine ⟨[j], ?_, List.nodup_singleton j, fun m hm e he => ?_⟩
      · rw [hnext]
        refine .link hentry ?_
        rw [hT.entry_next entry hmem]
        exact .done
      · rw [List.mem_singleton.mp hm, hentry, Option.some.injEq] at he
        rw [← he, hT.entry_hash hmem, hhome]
  head_ne entry hentry i cell hhash hcell hvalue := by
    obtain ⟨head, hhead, _, hne⟩ := hfronted entry hentry
    have hhome : home T.size entry.key = i := by
      rw [hT.entry_hash hentry] at hhash
      exact_mod_cast hhash
    rw [hhome, hcell, Option.some.injEq] at hhead
    exact hhead ▸ hne
  mutex_valid i _ := hT.locks.getMutexIndex_range i

theorem handleCollision_returns (item : HashItem) {i : ℕ} (hi : i < T.size) :
    ∃ T', T.handleCollision item i = .ok T' := by
  obtain ⟨cell, hcell⟩ : ∃ cell, T.items[i]? = some cell :=
    ⟨_, List.getElem?_eq_getElem (by rw [hT.items_length]; exact hi)⟩
  by_cases hhead : cell.key = item.key
  · rw [handleCollision, hT.locks.readCell_eq hcell, Exec.ok_bind, handleCollisionLoop,
      if_pos hhead, hT.locks.modifyCell_eq hcell]
    exact ⟨_, rfl⟩
  rcases hT.cell_link htidy hcell with hend | ⟨j, entry, hnext, hentry, _⟩
  · exact ⟨_, handleCollision_of_end hT.locks hcell hhead hend⟩
  · by_cases hkey : entry.key = item.key
    · exact ⟨_, handleCollision_of_link_eq hT.locks hcell hhead hnext hentry hkey⟩
    · exact ⟨_, handleCollision_of_link_ne hT.locks hcell hhead hnext hentry hkey
        (hT.entry_next entry (List.mem_of_getElem? hentry))⟩

theorem returns : T.Returns where
  get _ hkey := ⟨_, hT.get_eq (.inl hkey)⟩
  add key value hkey := by
    obtain ⟨T', code, hadd, _⟩ := hT.add_result (.inl hkey) value
    exact ⟨_, hadd⟩
  handleCollision item _ hi := hT.handleCollision_returns htidy item hi
  increaseTable := by
    rcases hT.increaseTable_cases with ⟨_, hsame⟩ | ⟨_, _, _, _, _, _, _, _, hnew⟩
    · exact ⟨_, hsame⟩
    · exact ⟨_, hnew⟩

end Sound

theorem run_shape {n : ℕ} (hn : 1 ≤ n) {ops : List Op} {T : HashTable}
    (hguard : Machine.Meets step (EachAdd fun T key value => ¬ T.EmptiesHead key value) (new n) ops)
    (hrun : Machine.run step (new n) ops = some T) : T.Sound ∧ T.Tidy ∧ T.Fronted :=
  Sound.run_rule (P := fun T => T.Tidy ∧ T.Fronted)
    (fun _ _ _ _ _ _ hshape _ hguard hresult => hresult.shape hshape hguard)
    (fun _ _ _ hT hshape hsmall hrehash => hT.rehash_shape hshape.1 hsmall hrehash)
    (new_sound hn) ⟨new_tidy n, new_fronted n⟩ hguard hrun

/-- A run in which no insertion empties a head keeps the table well-formed, and no call faults. -/
theorem run_wellFormed {n : ℕ} (hn : 1 ≤ n) {ops : List Op} {T : HashTable}
    (hguard : Machine.Meets step (EachAdd fun T key value => ¬ T.EmptiesHead key value) (new n) ops)
    (hrun : Machine.run step (new n) ops = some T) : T.WellFormed ∧ T.Returns := by
  obtain ⟨hT, htidy, hfronted⟩ := run_shape hn hguard hrun
  exact ⟨hT.wellFormed htidy hfronted, hT.returns htidy⟩

/-! ### Runs without empty lists -/

def Op.Filled : Op → Prop
  | .add _ value => value ≠ []
  | .increaseTable => True

instance : DecidablePred Op.Filled
  | .add _ value => inferInstanceAs (Decidable (value ≠ []))
  | .increaseTable => isTrue trivial

theorem joins_filled : Joins fun _ value => value ≠ [] :=
  fun _ _ _ hvalue _ => List.append_ne_nil_of_left_ne_nil hvalue _

theorem Op.Filled.eachAdd {op : Op} (hop : op.Filled) {T : HashTable} (hT : T.Sound)
    (hentries : T.Entries fun _ value => value ≠ []) :
    EachAdd (fun _ _ value => value ≠ []) T op := by
  cases op with
  | add key value => exact hop
  | increaseTable => exact hT.eachAdd_of_entries joins_filled hentries

theorem meets_filled {n : ℕ} (hn : 1 ≤ n) {ops : List Op} (hops : ∀ op ∈ ops, op.Filled) :
    Machine.Meets step (EachAdd fun _ _ value => value ≠ []) (new n) ops :=
  Machine.meets_of_invariant (fun T => T.Sound ∧ T.Entries fun _ value => value ≠ [])
    (fun _ _ hop hT => hop.eachAdd hT.1 hT.2)
    (fun _ _ _ hop hT hstep => hT.1.step_entries hT.2 (hop.eachAdd hT.1 hT.2) hstep)
    ⟨new_sound hn, entries_new _ n⟩ hops

theorem EachAdd.mono {guard guard' : HashTable → WString → List WString → Prop}
    (himp : ∀ T key value, guard T key value → guard' T key value) {T : HashTable} {op : Op}
    (h : EachAdd guard T op) : EachAdd guard' T op := by
  cases op with
  | add key value => exact himp T key value h
  | increaseTable =>
      intro T₁ tmpColisions hsmall hrun
      exact (h T₁ tmpColisions hsmall hrun).mono fun T (hi : HashItem) => himp T hi.key hi.value

theorem not_emptiesHead {T : HashTable} {key : WString} {value : List WString}
    (hvalue : value ≠ []) : ¬ T.EmptiesHead key value := by
  rintro ⟨_, hempties⟩
  cases hslot : T.slot (home T.size key) with
  | vacant =>
      rw [hslot] at hempties
      exact hempties
  | single head =>
      rw [hslot] at hempties
      exact hempties
  | linked head entry =>
      rw [hslot] at hempties
      exact hvalue (List.append_eq_nil_iff.mp hempties.2.2).2

theorem meets_not_emptiesHead {n : ℕ} (hn : 1 ≤ n) {ops : List Op} (hops : ∀ op ∈ ops, op.Filled) :
    Machine.Meets step (EachAdd fun T key value => ¬ T.EmptiesHead key value) (new n) ops :=
  (meets_filled hn hops).mono fun _ _ h => EachAdd.mono (fun _ _ _ => not_emptiesHead) h

/-- `HashTable(2)` after "a", twice "c" and a growth, which skips the head "a". -/
def grownOnce : HashTable where
  size := 4
  count := 2
  currentCapacity := 37
  items := [⟨[99], [[50]], 1, -1⟩, ⟨[], [], -1, -1⟩, ⟨[], [], -1, -1⟩, ⟨[], [], -1, -1⟩]
  colisions := []
  itemsMutexesSize := 1
  itemsMutexes := 1
  busyThreadCount := 0

theorem grownOnce_wellFormed : grownOnce.WellFormed ∧ grownOnce.Returns := by
  have hrun : Machine.run step (new 2)
      [.add [97] [[49]], .add [99] [[50]], .add [99] [[51]], .increaseTable] =
        some grownOnce := by decide
  exact run_wellFormed (by decide) (meets_not_emptiesHead (by decide) (by decide)) hrun

def danglingLink : HashTable where
  size := 4
  count := 2
  currentCapacity := 35
  items := [⟨[99], [], 0, -1⟩, ⟨[], [], -1, -1⟩, ⟨[97], [], 1, 0⟩, ⟨[], [], -1, -1⟩]
  colisions := []
  itemsMutexesSize := 1
  itemsMutexes := 1
  busyThreadCount := 0

theorem danglingLink_not_wellFormed :
    ¬ ∀ T : HashTable, T.Reachable → T.WellFormed ∧ T.Returns := by
  intro h
  have hreachable : danglingLink.Reachable :=
    ⟨2, [.add [97] [[49]], .add [99] [], .add [99] [], .increaseTable],
      by decide, by decide, by decide⟩
  have hlink := (h danglingLink hreachable).1.next_valid ⟨[97], [], 1, 0⟩ (by decide)
  exact absurd hlink (by decide)

end HashTable

end IndexServer
