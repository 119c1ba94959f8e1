import IndexServer.HashTable.Add

/-!
# What a growth does

The first two loops of `increaseTable` place entries into the new vector one by one; `PlaceResult`
says what one placing does, and the two loop rules carry any property of the local vectors through
them.
-/

namespace IndexServer

namespace HashTable

/-! ### Placing one entry -/

inductive PlaceResult (g : Growth) (newSize : ℕ) (item : HashItem) : Growth → Prop
  | deferred {cell : HashItem} (hcell : g.newItemsVector[home newSize item.key]? = some cell)
      (hvalue : cell.value ≠ []) (hkey : cell.key ≠ item.key) :
      PlaceResult g newSize item { g with tmpColisions := g.tmpColisions ++ [item] }
  | merged {cell : HashItem} (hcell : g.newItemsVector[home newSize item.key]? = some cell)
      (hvalue : cell.value ≠ []) (hkey : cell.key = item.key) :
      PlaceResult g newSize item
        { g with
          newItemsVector := g.newItemsVector.set (home newSize item.key)
            { cell with
              value := cell.value ++ item.value
              byteSize := cell.byteSize + item.byteSize } }
  | put {cell : HashItem} (hcell : g.newItemsVector[home newSize item.key]? = some cell)
      (hvalue : cell.value = []) :
      PlaceResult g newSize item
        { g with newItemsVector := g.newItemsVector.set (home newSize item.key) item }

theorem PlaceResult.length {g g' : Growth} {newSize : ℕ} {item : HashItem}
    (h : PlaceResult g newSize item g') : g'.newItemsVector.length = g.newItemsVector.length := by
  cases h with
  | deferred => rfl
  | merged => exact List.length_set
  | put => exact List.length_set

theorem place_result {g : Growth} {newSize : ℕ} (hsize : 0 < newSize)
    (hlength : g.newItemsVector.length = newSize) {item : HashItem}
    (hkey : Usable newSize item.key) :
    ∃ g', g.place newSize item = .ok g' ∧ PlaceResult g newSize item g' := by
  have hlt : home newSize item.key < g.newItemsVector.length := by
    rw [hlength]
    exact Bucket.bucket_lt magnitude hsize item.key
  obtain ⟨cell, hcell⟩ : ∃ cell, g.newItemsVector[home newSize item.key]? = some cell :=
    ⟨_, List.getElem?_eq_getElem hlt⟩
  rw [Growth.place, hashFunction_eq_home hkey, vectorGet_natCast hcell]
  dsimp only [Exec.ok_bind]
  by_cases hvalue : cell.value = []
  · rw [if_neg (by rw [hvalue]; exact Nat.lt_irrefl 0), vectorSet_natCast hlt]
    exact ⟨_, rfl, .put hcell hvalue⟩
  rw [if_pos (List.length_pos_iff.mpr hvalue)]
  by_cases hsame : cell.key = item.key
  · rw [if_neg (not_not_intro hsame), vectorSet_natCast hlt]
    exact ⟨_, rfl, .merged hcell hvalue hsame⟩
  · rw [if_pos hsame]
    exact ⟨_, rfl, .deferred hcell hvalue hsame⟩

/-! ### The two loops -/

section loops

variable {T : HashTable} (hT : T.Sound) {newSize : ℕ} (hsize : 0 < newSize)
  (husable : ∀ key, Usable T.size key → Usable newSize key) {P : Growth → Prop}
include hT hsize husable

/-- What placing a cell without a value preserves holds after the first loop. -/
theorem growItems_rule
    (hstep : ∀ g item g', P g → Usable newSize item.key → item ∈ T.items → item.value = [] →
      PlaceResult g newSize item g' → P g')
    {indices : List ℕ} (hindices : ∀ i ∈ indices, i < T.items.length) {g : Growth}
    (hlength : g.newItemsVector.length = newSize) (hg : P g) :
    ∃ g', T.growItems newSize indices g = .ok g' ∧ g'.newItemsVector.length = newSize ∧ P g' := by
  induction indices generalizing g with
  | nil => exact ⟨g, rfl, hlength, hg⟩
  | cons i rest ih =>
      have hrest : ∀ m ∈ rest, m < T.items.length :=
        fun m hm => hindices m (List.mem_cons_of_mem i hm)
      obtain ⟨cell, hcell⟩ : ∃ cell, T.items[i]? = some cell :=
        ⟨_, List.getElem?_eq_getElem (hindices i List.mem_cons_self)⟩
      rw [growItems, hT.locks.readCell_eq hcell, Exec.ok_bind]
      by_cases hvalue : cell.value = []
      · rw [if_neg (by rw [hvalue]; exact Nat.lt_irrefl 0)]
        have hkey := husable _ (hT.cell_usable _ _ hcell)
        obtain ⟨g', hplace, hresult⟩ := place_result hsize hlength hkey
        rw [hplace]
        exact ih hrest (hresult.length.trans hlength)
          (hstep g _ g' hg hkey (List.mem_of_getElem? hcell) hvalue hresult)
      · rw [if_pos (List.length_pos_iff.mpr hvalue)]
        exact ih hrest hlength hg

/-- What placing a collision entry preserves holds after the second loop. -/
theorem growColisions_rule
    (hstep : ∀ g item g', P g → Usable newSize item.key → item ∈ T.colisions →
      PlaceResult g newSize { item with next := -1 } g' → P g')
    {indices : List ℕ} (hindices : ∀ i ∈ indices, i < T.colisions.length) {g : Growth}
    (hlength : g.newItemsVector.length = newSize) (hg : P g) :
    ∃ g', T.growColisions newSize indices g = .ok g' ∧
      g'.newItemsVector.length = newSize ∧ P g' := by
  induction indices generalizing g with
  | nil => exact ⟨g, rfl, hlength, hg⟩
  | cons i rest ih =>
      have hrest : ∀ m ∈ rest, m < T.colisions.length :=
        fun m hm => hindices m (List.mem_cons_of_mem i hm)
      obtain ⟨entry, hentry⟩ : ∃ entry, T.colisions[i]? = some entry :=
        ⟨_, List.getElem?_eq_getElem (hindices i List.mem_cons_self)⟩
      have hmem := List.mem_of_getElem? hentry
      have hkey := husable _ (hT.entry_usable _ hmem)
      have hplaced : Usable newSize ({ entry with next := -1 } : HashItem).key := hkey
      obtain ⟨g', hplace, hresult⟩ := place_result hsize hlength hplaced
      rw [growColisions, vectorGet_natCast hentry, Exec.ok_bind, hplace]
      exact ih hrest (hresult.length.trans hlength) (hstep g _ g' hg hkey hmem hresult)

end loops

/-! ### The replaced table -/

/-- No cell without a value still carries a link. -/
def Tidy (T : HashTable) : Prop :=
  ∀ (i : ℕ) (cell : HashItem), T.items[i]? = some cell → cell.value = [] → cell.next = -1

/-- A property of the entries that lists of values of one key keep when they are joined. -/
def Joins (Q : WString → List WString → Prop) : Prop :=
  ∀ key value more, Q key value → Q key more → Q key (value ++ more)

/-- The local vectors while the second loop runs, over entries with property `Q`. -/
structure Placed (newSize : ℕ) (tidy : Prop) (Q : WString → List WString → Prop) (g : Growth) :
    Prop where
  cell_usable : ∀ (i : ℕ) (cell : HashItem), g.newItemsVector[i]? = some cell →
    Usable newSize cell.key
  cell_tidy : tidy → ∀ (i : ℕ) (cell : HashItem), g.newItemsVector[i]? = some cell →
    cell.next = -1
  cell_entry : ∀ (i : ℕ) (cell : HashItem), g.newItemsVector[i]? = some cell → cell.value ≠ [] →
    home newSize cell.key = i ∧ cell.next = -1 ∧ Q cell.key cell.value
  deferred : ∀ hi ∈ g.tmpColisions, Usable newSize hi.key ∧ Q hi.key hi.value ∧
    ∃ head, g.newItemsVector[home newSize hi.key]? = some head ∧ head.value ≠ [] ∧
      head.key ≠ hi.key

theorem PlaceResult.placed {g g' : Growth} {newSize : ℕ} {tidy : Prop}
    {Q : WString → List WString → Prop} {item : HashItem} (h : PlaceResult g newSize item g')
    (hjoins : Joins Q) (hg : Placed newSize tidy Q g) (hkey : Usable newSize item.key)
    (hnext : item.next = -1) (hitem : Q item.key item.value) : Placed newSize tidy Q g' := by
  cases h with
  | deferred hcell hvalue hne =>
      refine ⟨hg.cell_usable, hg.cell_tidy, hg.cell_entry, fun hi hmem => ?_⟩
      rcases List.mem_append.mp hmem with hold | hnew
      · exact hg.deferred hi hold
      · rw [List.mem_singleton.mp hnew]
        exact ⟨hkey, hitem, _, hcell, hvalue, hne⟩
  | merged hcell hvalue hsame =>
      obtain ⟨hhome, hend, hentry⟩ := hg.cell_entry _ _ hcell hvalue
      have husable := hg.cell_usable _ _ hcell
      refine ⟨fun i c hc => ?_, fun htidy i c hc => ?_, fun i c hc hne => ?_, fun hi hmem => ?_⟩
      · rcases getElem?_set_cases hc with ⟨_, rfl⟩ | ⟨_, hold⟩
        · exact husable
        · exact hg.cell_usable i c hold
      · rcases getElem?_set_cases hc with ⟨_, rfl⟩ | ⟨_, hold⟩
        · exact hend
        · exact hg.cell_tidy htidy i c hold
      · rcases getElem?_set_cases hc with ⟨rfl, rfl⟩ | ⟨_, hold⟩
        · exact ⟨hhome, hend, hjoins _ _ _ hentry (hsame ▸ hitem)⟩
        · exact hg.cell_entry i c hold hne
      · obtain ⟨hhi, hQ, head, hhead, hheadValue, hheadKey⟩ := hg.deferred hi hmem
        refine ⟨hhi, hQ, ?_⟩
        by_cases hi' : home newSize item.key = home newSize hi.key
        · rw [← hi', hcell, Option.some.injEq] at hhead
          subst hhead
          rw [← hi']
          exact ⟨_, List.getElem?_set_self (List.getElem?_eq_some_iff.mp hcell).1,
            List.append_ne_nil_of_left_ne_nil hvalue _, hheadKey⟩
        · exact ⟨head, (List.getElem?_set_ne hi').trans hhead, hheadValue, hheadKey⟩
  | put hcell hvalue =>
      refine ⟨fun i c hc => ?_, fun htidy i c hc => ?_, fun i c hc hne => ?_, fun hi hmem => ?_⟩
      · rcases getElem?_set_cases hc with ⟨_, rfl⟩ | ⟨_, hold⟩
        · exact hkey
        · exact hg.cell_usable i c hold
      · rcases getElem?_set_cases hc with ⟨_, rfl⟩ | ⟨_, hold⟩
        · exact hnext
        · exact hg.cell_tidy htidy i c hold
      · rcases getElem?_set_cases hc with ⟨rfl, rfl⟩ | ⟨_, hold⟩
        · exact ⟨rfl, hnext, hitem⟩
        · exact hg.cell_entry i c hold hne
      · obtain ⟨hhi, hQ, head, hhead, hheadValue, hheadKey⟩ := hg.deferred hi hmem
        have hi' : home newSize item.key ≠ home newSize hi.key := by
          intro heq
          rw [← heq, hcell, Option.some.injEq] at hhead
          exact hheadValue (hhead ▸ hvalue)
        exact ⟨hhi, hQ, head, (List.getElem?_set_ne hi').trans hhead, hheadValue, hheadKey⟩

/-- The table that `increaseTable` puts in place of `T`, and the entries it still has to add. Its
occupied cells and the deferred entries come from collision entries of `T` alone: a head of `T` is
skipped. -/
structure Rehashed (T : HashTable) (Q : WString → List WString → Prop) (T₁ : HashTable)
    (tmpColisions : List HashItem) : Prop where
  sound : T₁.Sound
  size : T₁.size = 2 * T.size
  count : T₁.count = T.count
  currentCapacity : T₁.currentCapacity = T.currentCapacity
  colisions : T₁.colisions = []
  tidy : T.Tidy → ∀ (i : ℕ) (cell : HashItem), T₁.items[i]? = some cell → cell.next = -1
  cell_entry : ∀ (i : ℕ) (cell : HashItem), T₁.items[i]? = some cell → cell.value ≠ [] →
    cell.next = -1 ∧ Q cell.key cell.value
  deferred : ∀ hi ∈ tmpColisions, Usable T₁.size hi.key ∧ Q hi.key hi.value ∧
    ∃ head, T₁.items[home T₁.size hi.key]? = some head ∧ head.value ≠ [] ∧ head.key ≠ hi.key

theorem mutexCount_pos (T : HashTable) : 0 < T.mutexCount := by
  unfold mutexCount itemsSizeOnItemsMutexRatio
  split <;> omega

/-- The local vectors while the first loop runs: only cells without a value are placed. -/
structure Blank (newSize : ℕ) (tidy : Prop) (g : Growth) : Prop where
  tmpColisions : g.tmpColisions = []
  cell : ∀ (i : ℕ) (cell : HashItem), g.newItemsVector[i]? = some cell →
    Usable newSize cell.key ∧ cell.value = [] ∧ (tidy → cell.next = -1)

theorem blank_createNewVector (size : ℕ) (tidy : Prop) :
    Blank size tidy ⟨createNewVector size, []⟩ := by
  refine ⟨rfl, fun i cell hcell => ?_⟩
  rw [List.eq_of_mem_replicate (List.mem_of_getElem? hcell)]
  exact ⟨.inl admissible_nil, rfl, fun _ => rfl⟩

theorem PlaceResult.blank {g g' : Growth} {newSize : ℕ} {tidy : Prop} {item : HashItem}
    (h : PlaceResult g newSize item g') (hg : Blank newSize tidy g) (hkey : Usable newSize item.key)
    (hvalue : item.value = []) (hnext : tidy → item.next = -1) : Blank newSize tidy g' := by
  cases h with
  | deferred hcell hne => exact absurd (hg.cell _ _ hcell).2.1 hne
  | merged hcell hne => exact absurd (hg.cell _ _ hcell).2.1 hne
  | put hcell =>
      refine ⟨hg.tmpColisions, fun i c hc => ?_⟩
      rcases getElem?_set_cases hc with ⟨_, rfl⟩ | ⟨_, hold⟩
      · exact ⟨hkey, hvalue, hnext⟩
      · exact hg.cell i c hold

theorem Blank.placed {g : Growth} {newSize : ℕ} {tidy : Prop} (hg : Blank newSize tidy g)
    (Q : WString → List WString → Prop) : Placed newSize tidy Q g where
  cell_usable i c hc := (hg.cell i c hc).1
  cell_tidy htidy i c hc := (hg.cell i c hc).2.2 htidy
  cell_entry i c hc hne := absurd (hg.cell i c hc).2.1 hne
  deferred hi hmem := by
    rw [hg.tmpColisions] at hmem
    exact absurd hmem List.not_mem_nil

theorem Placed.rehashed {T : HashTable} (hT : T.Sound) {Q : WString → List WString → Prop}
    {g : Growth} (hlength : g.newItemsVector.length = 2 * T.size)
    (hg : Placed (2 * T.size) T.Tidy Q g) : T.Rehashed Q (T.install g) g.tmpColisions where
  sound :=
    { size_pos := Nat.mul_pos Nat.two_pos hT.size_pos
      items_length := hlength
      locks := ⟨T.mutexCount_pos, rfl⟩
      idle := hT.idle
      cell_usable := hg.cell_usable
      cell_home := fun i c hc hne => (hg.cell_entry i c hc hne).1
      cell_next := fun i c hc hne => .inl (hg.cell_entry i c hc hne).2.1
      entry_usable := fun _ h => absurd h List.not_mem_nil
      entry_next := fun _ h => absurd h List.not_mem_nil }
  size := rfl
  count := rfl
  currentCapacity := rfl
  colisions := rfl
  tidy := hg.cell_tidy
  cell_entry i c hc hne := (hg.cell_entry i c hc hne).2
  deferred := hg.deferred

theorem Sound.rehash_spec {T : HashTable} (hT : T.Sound) (hsmall : 2 * T.size < maxCapacity)
    {Q : WString → List WString → Prop} (hjoins : Joins Q)
    (hentries : ∀ entry ∈ T.colisions, Q entry.key entry.value) :
    ∃ T₁ tmpColisions, T.rehash = .ok (T₁, tmpColisions) ∧ T.Rehashed Q T₁ tmpColisions := by
  have hpos : 0 < 2 * T.size := Nat.mul_pos Nat.two_pos hT.size_pos
  have husable : ∀ key, Usable T.size key → Usable (2 * T.size) key :=
    fun key hkey => hkey.double hsmall
  have hblank : ∀ g item g', Blank (2 * T.size) T.Tidy g → Usable (2 * T.size) item.key →
      item ∈ T.items → item.value = [] → PlaceResult g (2 * T.size) item g' →
      Blank (2 * T.size) T.Tidy g' := by
    intro g item g' hg hkey hmem hvalue hresult
    obtain ⟨m, hm⟩ := List.mem_iff_getElem?.mp hmem
    exact hresult.blank hg hkey hvalue fun htidy => htidy m item hm hvalue
  have hplaced : ∀ g item g', Placed (2 * T.size) T.Tidy Q g → Usable (2 * T.size) item.key →
      item ∈ T.colisions → PlaceResult g (2 * T.size) { item with next := -1 } g' →
      Placed (2 * T.size) T.Tidy Q g' :=
    fun g item g' hg hkey hmem hresult => hresult.placed hjoins hg hkey rfl (hentries item hmem)
  have hitems : ∀ i ∈ List.range T.size, i < T.items.length := by
    intro i hi
    rw [hT.items_length]
    exact List.mem_range.mp hi
  obtain ⟨g, hgrow, hlength, hg⟩ := growItems_rule hT hpos husable hblank hitems
    (List.length_replicate : (createNewVector (2 * T.size)).length = 2 * T.size)
    (blank_createNewVector _ _)
  obtain ⟨g', hgrow', hlength', hg'⟩ := growColisions_rule hT hpos husable hplaced
    (fun i hi => List.mem_range.mp hi) hlength (hg.placed Q)
  refine ⟨T.install g', g'.tmpColisions, ?_, hg'.rehashed hT hlength'⟩
  rw [rehash, hgrow, Exec.ok_bind, hgrow', Exec.ok_bind, if_neg (not_not_intro hT.idle)]
  rfl

theorem Sound.rehashed {T T₁ : HashTable} {tmpColisions : List HashItem} (hT : T.Sound)
    (hsmall : 2 * T.size < maxCapacity) (h : T.rehash = .ok (T₁, tmpColisions))
    {Q : WString → List WString → Prop} (hjoins : Joins Q)
    (hentries : ∀ entry ∈ T.colisions, Q entry.key entry.value) :
    T.Rehashed Q T₁ tmpColisions := by
  obtain ⟨T₂, tmp, h', hspec⟩ := hT.rehash_spec hsmall hjoins hentries
  rw [h] at h'
  cases h'
  exact hspec

theorem joins_true : Joins fun _ _ => True := fun _ _ _ _ _ => trivial

end HashTable

end IndexServer
