import IndexServer.SharedTable.Cells

/-!
# Insertions at once

Calls of `add` that run at once on a table that does not grow. A call copies its cell, decides, and
writes the cell in a later section, so what it writes may rest on a cell that another call has
changed since. Where no write does, and `handleCollision` drops nothing of a call that every serial
order keeps, what these calls have added can be found.
-/

namespace IndexServer

open HashTable (itemsSizeOnItemsMutexRatio maxCapacity getItemCapacity hashFunction newItem)

/-- The call has written its value into the table, or returned `0`. -/
def Caller.stored : Caller → Bool
  | .tallying _ | .tallied _ _ | .charging _ | .charged _ _ | .crediting _ => true
  | .returned code => code == 0
  | _ => false

/-! ### Where a call of `add` can stand -/

def HashTable.HeadsOther (T : HashTable) (index : Int) (key : WString) : Prop :=
  ∃ head, head ≠ key ∧ T.Heads index head

/-- What a call that adds the item knows when it comes to the section. -/
def Access.Fits (T : HashTable) (item : HashItem) (index : Int) : Access → Prop
  | .find item' | .place item' => item' = item
  | .extend item' _ => item' = item ∧ T.Heads index item.key
  | .collide item' | .merge item' _ => item' = item ∧ T.HeadsOther index item.key
  | .link item' colisionSize =>
      item' = item ∧ T.HeadsOther index item.key ∧
        vectorGet T.colisions (colisionSize - 1) = .ok item
  | .look _ => False

/-- What a call that adds the item knows where it stands. -/
def Caller.Fits (T : HashTable) (item : HashItem) : Caller → Prop
  | .sizing access => access = .find item
  | .locating access index =>
      index = hashFunction item.key T.size ∧ access.Fits T item index
  | .capping access index =>
      index = hashFunction item.key T.size ∧ access.Fits T item index ∧
        index / itemsSizeOnItemsMutexRatio ≥ T.itemsMutexesSize
  | .accessing access index mutexIndex =>
      index = hashFunction item.key T.size ∧ access.Fits T item index ∧
        mutexIndex = T.getMutexIndex index
  | .testing item' index mutexIndex currentItem =>
      item' = item ∧ index = hashFunction item.key T.size ∧
        mutexIndex = T.getMutexIndex index ∧
        (currentItem.value ≠ [] → T.Heads index currentItem.key)
  | .weighing item' index mutexIndex | .limiting item' index mutexIndex _ =>
      item' = item ∧ index = hashFunction item.key T.size ∧ mutexIndex = T.getMutexIndex index
  | .following item' index _ | .counting item' index _ | .paying item' index _
  | .pushing item' index =>
      item' = item ∧ index = hashFunction item.key T.size ∧ T.HeadsOther index item.key
  | .tallying _ | .tallied _ _ | .charging _ | .charged _ _ | .crediting _ | .returned 0 =>
      T.Lockable (hashFunction item.key T.size)
  | .returned _ => True
  | .idle | .looking _ _ | .got _ => False

variable {T T' : HashTable} {item : HashItem} {index : Int}

theorem HashTable.Grows.headsOther (h : T.Grows T') {key : WString}
    (hother : T.HeadsOther index key) : T'.HeadsOther index key := by
  obtain ⟨head, hne, hhead⟩ := hother
  exact ⟨head, hne, h.heads index head hhead⟩

theorem Access.Fits.grows {access : Access} (hfits : access.Fits T item index) (h : T.Grows T') :
    access.Fits T' item index := by
  cases access with
  | find | place => exact hfits
  | extend => exact ⟨hfits.1, h.heads _ _ hfits.2⟩
  | collide | merge => exact ⟨hfits.1, h.headsOther hfits.2⟩
  | link => exact ⟨hfits.1, h.headsOther hfits.2.1, h.entry hfits.2.2⟩
  | look => exact hfits

theorem Caller.Fits.grows {p : Caller} (hfits : p.Fits T item) (h : T.Grows T') :
    p.Fits T' item := by
  cases p with
  | sizing => exact hfits
  | locating =>
      rw [Caller.Fits, h.size]
      exact ⟨hfits.1, hfits.2.grows h⟩
  | capping =>
      rw [Caller.Fits, h.size, h.itemsMutexesSize]
      exact ⟨hfits.1, hfits.2.1.grows h, hfits.2.2⟩
  | accessing =>
      rw [Caller.Fits, h.size, h.getMutexIndex]
      exact ⟨hfits.1, hfits.2.1.grows h, hfits.2.2⟩
  | testing =>
      rw [Caller.Fits, h.size, h.getMutexIndex]
      obtain ⟨hitem, hindex, hmutex, hheads⟩ := hfits
      exact ⟨hitem, hindex, hmutex, fun hvalue => h.heads _ _ (hheads hvalue)⟩
  | weighing | limiting =>
      rw [Caller.Fits, h.size, h.getMutexIndex]
      exact hfits
  | following | counting | paying | pushing =>
      rw [Caller.Fits, h.size]
      exact ⟨hfits.1, hfits.2.1, h.headsOther hfits.2.2⟩
  | tallying | tallied | charging | charged | crediting =>
      rw [Caller.Fits, h.size]
      exact h.lockable hfits
  | returned code =>
      cases code with
      | zero =>
          rw [Caller.Fits, h.size]
          exact h.lockable hfits
      | succ code => exact trivial
  | idle | looking | got => exact hfits

namespace SharedTable

variable {ι : Type}

def entry (calls : ι → WString × List WString) (c : ι) : HashItem :=
  newItem (calls c).1 (calls c).2

/-- The calls before their first step. -/
def adds (T : HashTable) (calls : ι → WString × List WString) : SharedTable ι :=
  { new T with
    caller := fun
      | some c => .sizing (.find (entry calls c))
      | none => .idle }

def turn [DecidableEq ι] (s : SharedTable ι) (c : ι) : Option (SharedTable ι) := s.work (some c)

def serial (calls : ι → WString × List WString) (T : HashTable) (c : ι) : Option HashTable :=
  T.step (.add (calls c).1 (calls c).2)

/-- In every serial order the table ends up containing the elements of the value. -/
def Kept (T : HashTable) (calls : ι → WString × List WString) (c : ι) : Prop :=
  ∀ order : List ι, order.Nodup → (∀ d, d ∈ order) →
    ∃ T', Machine.run (serial calls) T order = some T' ∧ T'.Contains (calls c).1 (calls c).2

/-- What every serial order keeps of the calls that have returned `0` is in the table. -/
def KeepsAdds (T : HashTable) (calls : ι → WString × List WString) (s : SharedTable ι) : Prop :=
  ∀ c, s.caller (some c) = .returned 0 → Kept T calls c →
    s.table.Contains (calls c).1 (calls c).2

/-- The call has stored its value, and its key belongs to the cell. -/
def StoredAt (calls : ι → WString × List WString) (s : SharedTable ι) (index : Int) (c : ι) :
    Prop :=
  (s.caller (some c)).stored = true ∧ hashFunction (calls c).1 s.table.size = index

/-- A call fills a cell that is still free, and extends the value that it has read. What
`handleCollision` writes concerns the calls of `P`: they do not merge, and no call merges into a
head that has one of their values or links where one of them has linked. -/
def CarefulAt (P : ι → Prop) (calls : ι → WString × List WString) (s : SharedTable ι) (c : ι) :
    Caller → Prop
  | .accessing (.place _) index _ =>
      ∀ cell ∈ (vectorGet s.table.items index).toOption, cell.value = []
  | .accessing (.extend _ currentItem) index _ =>
      ∀ cell ∈ (vectorGet s.table.items index).toOption, cell.value = currentItem.value
  | .accessing (.merge _ _) index _ =>
      ¬ P c ∧ ∀ cell ∈ (vectorGet s.table.items index).toOption,
        ∀ d, P d → StoredAt calls s index d → (calls d).1 ≠ cell.key
  | .accessing (.link _ _) index _ =>
      ∀ cell ∈ (vectorGet s.table.items index).toOption,
        ∀ d, P d → StoredAt calls s index d → (calls d).1 = cell.key
  | _ => True

def Careful (P : ι → Prop) (calls : ι → WString × List WString) (s : SharedTable ι) (c : ι) :
    Prop :=
  CarefulAt P calls s c (s.caller (some c))

/-- What careful runs keep. -/
structure Orderly (P : ι → Prop) (calls : ι → WString × List WString) (s : SharedTable ι) :
    Prop where
  fits : ∀ c, (s.caller (some c)).Fits s.table (entry calls c)
  finds : ∀ c, P c → (s.caller (some c)).stored = true →
    s.table.Finds (calls c).1 (calls c).2

variable {P : ι → Prop} {calls : ι → WString × List WString} {s t : SharedTable ι} {c : ι}

theorem adds_orderly (T : HashTable) : (adds T calls).Orderly P calls where
  fits _ := rfl
  finds _ _ hstored := nomatch hstored

variable [DecidableEq ι]

theorem Orderly.set (hs : s.Orderly P calls) {T : HashTable} {p : Caller}
    (hgrows : s.table.Grows T) (hfits : p.Fits T (entry calls c))
    (hself : P c → p.stored = true → T.Finds (calls c).1 (calls c).2)
    (hothers : ∀ d, d ≠ c → P d → (s.caller (some d)).stored = true →
      s.table.Finds (calls d).1 (calls d).2 → T.Finds (calls d).1 (calls d).2) :
    (s.set (some c) T p).Orderly P calls where
  fits d := by
    show (Function.update s.caller (some c) p (some d)).Fits T (entry calls d)
    by_cases hd : d = c
    · rw [hd, Function.update_self]
      exact hfits
    · rw [Function.update_of_ne fun h => hd (Option.some.inj h)]
      exact (hs.fits d).grows hgrows
  finds d hd hstored := by
    change (Function.update s.caller (some c) p (some d)).stored = true at hstored
    show T.Finds (calls d).1 (calls d).2
    by_cases hdc : d = c
    · rw [hdc, Function.update_self] at hstored
      rw [hdc] at hd ⊢
      exact hself hd hstored
    · rw [Function.update_of_ne fun h => hdc (Option.some.inj h)] at hstored
      exact hothers d hdc hd hstored (hs.finds d hd hstored)

theorem Orderly.quiet (hs : s.Orderly P calls) {T : HashTable} {p : Caller}
    (hgrows : s.table.Grows T) (hitems : T.items = s.table.items)
    (hfits : p.Fits T (entry calls c))
    (hstored : p.stored = true → (s.caller (some c)).stored = true) :
    (s.set (some c) T p).Orderly P calls :=
  hs.set hgrows hfits (fun hc hp => (hs.finds c hc (hstored hp)).of_items hgrows hitems)
    fun _ _ _ _ hfinds => hfinds.of_items hgrows hitems

theorem Orderly.move (hs : s.Orderly P calls) {p : Caller}
    (hfits : p.Fits s.table (entry calls c))
    (hstored : p.stored = true → (s.caller (some c)).stored = true) :
    (s.set (some c) s.table p).Orderly P calls :=
  hs.quiet (HashTable.grows_of_items rfl rfl rfl rfl (List.prefix_refl _)) rfl hfits hstored

theorem walk_fits {T : HashTable} {item currentItem : HashItem} {index : Int}
    (hindex : index = hashFunction item.key T.size) (hother : T.HeadsOther index item.key) :
    (Caller.walk item index currentItem).Fits T item := by
  rw [Caller.walk]
  split
  · exact ⟨hindex, rfl, hother⟩
  · split
    · exact ⟨rfl, hindex, hother⟩
    · exact ⟨rfl, hindex, hother⟩

theorem walk_stored (item : HashItem) (index : Int) (currentItem : HashItem) :
    (Caller.walk item index currentItem).stored = false := by
  rw [Caller.walk]
  split
  · rfl
  · split
    · rfl
    · rfl

section access

variable {index mutexIndex : Int} (hs : s.Orderly P calls)
  (hindex : index = hashFunction (entry calls c).key s.table.size)
  (hmutex : mutexIndex = s.table.getMutexIndex index)
include hs hindex hmutex

/-- A section that writes the cell of its call, which keeps its key and a value if it had one. -/
theorem Orderly.write {f : HashItem → HashItem} {T : HashTable} {p : Caller}
    (hT : s.table.modifyCellAt index mutexIndex f = .ok T)
    (hkeep : ∀ cell, vectorGet s.table.items index = .ok cell → cell.value ≠ [] →
      (f cell).value ≠ [] ∧ (f cell).key = cell.key)
    (hfits : s.table.Grows T → T.Lockable (hashFunction (entry calls c).key T.size) →
      p.Fits T (entry calls c))
    (hself : ∀ cell, vectorGet s.table.items index = .ok cell → P c → p.stored = true →
      HashTable.Holds s.table.colisions (calls c).1 (calls c).2 (f cell))
    (hothers : ∀ cell d, vectorGet s.table.items index = .ok cell → d ≠ c → P d →
      StoredAt calls s index d →
      HashTable.Holds s.table.colisions (calls d).1 (calls d).2 cell →
      HashTable.Holds s.table.colisions (calls d).1 (calls d).2 (f cell)) :
    (s.set (some c) T p).Orderly P calls := by
  obtain ⟨hlock, n, cell, hn, hcell, rfl⟩ := HashTable.modifyCellAt_eq_ok hT
  have hget : vectorGet s.table.items index = .ok cell := by
    rw [hn]
    exact vectorGet_natCast hcell
  have hgrows := HashTable.grows_set hcell (hkeep cell hget)
  have hlockable : s.table.Lockable index := by
    rw [HashTable.Lockable, ← hmutex]
    exact hlock
  apply hs.set hgrows
  · apply hfits hgrows
    rw [hgrows.size, ← hindex]
    exact hgrows.lockable hlockable
  · intro hc hp
    exact HashTable.finds_set hcell (hindex.symm.trans hn) (hself cell hget hc hp)
  · intro d hdc hd hstored hfinds
    apply hfinds.set hcell
    intro hdn
    exact hothers cell d hget hdc hd ⟨hstored, hdn.trans hn.symm⟩

theorem Orderly.extend (hvalue : (calls c).2 ≠ []) {currentItem : HashItem}
    (hheads : s.table.Heads index (entry calls c).key)
    (hcareful : ∀ cell ∈ (vectorGet s.table.items index).toOption, cell.value = currentItem.value)
    {T : HashTable}
    (hT : s.table.modifyCellAt index mutexIndex (fun cell =>
      { cell with value := extendVector currentItem.value (entry calls c).value }) = .ok T) :
    (s.set (some c) T (.charging (entry calls c))).Orderly P calls := by
  have hadded : ∀ value : List WString, extendVector value (entry calls c).value ≠ [] :=
    fun _ h => hvalue (List.append_eq_nil_iff.mp h).2
  apply hs.write hindex hmutex hT
  · intro cell _ _
    exact ⟨hadded _, rfl⟩
  · exact fun _ hlock => hlock
  · intro cell hcell _ _
    obtain ⟨head, hhead, _, hheadKey⟩ := hheads
    cases hhead.symm.trans hcell
    exact ⟨hadded _, .inl ⟨hheadKey, List.subset_append_right _ _⟩⟩
  · rintro cell d hcell _ _ _ ⟨_, hheld⟩
    have hread := hcareful cell (Exec.toOption_eq_some.mpr hcell)
    refine ⟨hadded _, hheld.imp_left ?_⟩
    rintro ⟨hcellKey, hsub⟩
    refine ⟨hcellKey, fun source hsource => List.mem_append_left _ ?_⟩
    rw [← hread]
    exact hsub hsource

theorem Orderly.place (hvalue : (calls c).2 ≠ [])
    (hcareful : ∀ cell ∈ (vectorGet s.table.items index).toOption, cell.value = [])
    {T : HashTable}
    (hT : s.table.modifyCellAt index mutexIndex (fun _ => entry calls c) = .ok T) :
    (s.set (some c) T (.tallying (entry calls c))).Orderly P calls := by
  have hfree : ∀ cell, vectorGet s.table.items index = .ok cell → cell.value = [] :=
    fun cell hcell => hcareful cell (Exec.toOption_eq_some.mpr hcell)
  apply hs.write hindex hmutex hT
  · intro cell hcell hne
    exact absurd (hfree cell hcell) hne
  · exact fun _ hlock => hlock
  · intro cell _ _ _
    exact ⟨hvalue, .inl ⟨rfl, List.Subset.refl _⟩⟩
  · intro cell d hcell _ _ _ hheld
    exact absurd (hfree cell hcell) hheld.1

theorem Orderly.merge (hvalue : (calls c).2 ≠ []) {currentItem : HashItem}
    (hcareful : ¬ P c ∧ ∀ cell ∈ (vectorGet s.table.items index).toOption,
      ∀ d, P d → StoredAt calls s index d → (calls d).1 ≠ cell.key)
    {T : HashTable}
    (hT : s.table.modifyCellAt index mutexIndex (fun cell =>
      { cell with value := extendVector currentItem.value (entry calls c).value }) = .ok T) :
    (s.set (some c) T (.crediting (entry calls c))).Orderly P calls := by
  have hadded : extendVector currentItem.value (entry calls c).value ≠ [] :=
    fun h => hvalue (List.append_eq_nil_iff.mp h).2
  apply hs.write hindex hmutex hT
  · intro cell _ _
    exact ⟨hadded, rfl⟩
  · exact fun _ hlock => hlock
  · intro cell _ hc _
    exact absurd hc hcareful.1
  · rintro cell d hcell _ hd hstored ⟨_, hheld⟩
    have hne := hcareful.2 cell (Exec.toOption_eq_some.mpr hcell) d hd hstored
    exact ⟨hadded, hheld.imp_left fun hhead => absurd hhead.1.symm hne⟩

theorem Orderly.link {colisionSize : ℕ}
    (hother : s.table.HeadsOther index (entry calls c).key)
    (hpushed : vectorGet s.table.colisions (colisionSize - 1) = .ok (entry calls c))
    (hcareful : ∀ cell ∈ (vectorGet s.table.items index).toOption,
      ∀ d, P d → StoredAt calls s index d → (calls d).1 = cell.key)
    {T : HashTable}
    (hT : s.table.modifyCellAt index mutexIndex (fun cell =>
      { cell with next := colisionSize - 1 }) = .ok T) :
    (s.set (some c) T (.returned 0)).Orderly P calls := by
  apply hs.write hindex hmutex hT
  · intro cell _ hne
    exact ⟨hne, rfl⟩
  · exact fun _ hlock => hlock
  · intro cell hcell _ _
    obtain ⟨head, hne, headCell, hhead, hheadValue, hheadKey⟩ := hother
    cases hhead.symm.trans hcell
    refine ⟨hheadValue, .inr ⟨?_, entry calls c, hpushed, rfl, List.Subset.refl _⟩⟩
    rw [hheadKey]
    exact hne
  · rintro cell d hcell _ hd hstored ⟨hne, hheld⟩
    have hkey := hcareful cell (Exec.toOption_eq_some.mpr hcell) d hd hstored
    refine ⟨hne, .inl (hheld.resolve_right ?_)⟩
    exact fun hbehind => hbehind.1 hkey.symm

end access

theorem Orderly.access (hs : s.Orderly P calls) (hvalue : (calls c).2 ≠ [])
    (hcareful : s.Careful P calls c) {access : Access} {index mutexIndex : Int}
    (hcaller : s.caller (some c) = .accessing access index mutexIndex)
    {result : HashTable × Caller} (h : access.perform s.table index mutexIndex = .ok result) :
    (s.set (some c) result.1 result.2).Orderly P calls := by
  have hfits := hs.fits c
  rw [hcaller] at hfits
  rw [Careful, hcaller] at hcareful
  obtain ⟨hindex, haccess, hmutex⟩ := hfits
  cases access with
  | find item =>
      obtain ⟨currentItem, hread, h⟩ := Exec.bind_eq_ok.mp h
      cases h
      cases haccess
      apply hs.move
      · refine ⟨rfl, hindex, hmutex, fun hne => ?_⟩
        exact ⟨currentItem, (HashTable.readCellAt_eq_ok.mp hread).2, hne, rfl⟩
      · intro h
        cases h
  | place item =>
      obtain ⟨T, hT, h⟩ := Exec.bind_eq_ok.mp h
      cases h
      cases haccess
      exact hs.place hindex hmutex hvalue hcareful hT
  | extend item currentItem =>
      obtain ⟨T, hT, h⟩ := Exec.bind_eq_ok.mp h
      cases h
      obtain ⟨rfl, hheads⟩ := haccess
      exact hs.extend hindex hmutex hvalue hheads hcareful hT
  | collide item =>
      obtain ⟨currentItem, hread, h⟩ := Exec.bind_eq_ok.mp h
      cases h
      obtain ⟨rfl, hother⟩ := haccess
      apply hs.move
      · exact walk_fits hindex hother
      · intro hstored
        rw [walk_stored] at hstored
        cases hstored
  | merge item currentItem =>
      obtain ⟨T, hT, h⟩ := Exec.bind_eq_ok.mp h
      cases h
      obtain ⟨rfl, _⟩ := haccess
      exact hs.merge hindex hmutex hvalue hcareful hT
  | link item colisionSize =>
      obtain ⟨T, hT, h⟩ := Exec.bind_eq_ok.mp h
      cases h
      obtain ⟨rfl, hother, hpushed⟩ := haccess
      exact hs.link hindex hmutex hother hpushed hcareful hT
  | look key => exact haccess.elim

theorem Orderly.moves (hs : s.Orderly P calls) (hvalue : (calls c).2 ≠ [])
    (hcareful : s.Careful P calls c) {result : HashTable × Caller}
    (h : (s.caller (some c)).move s.table = some result) :
    (s.set (some c) result.1 result.2).Orderly P calls := by
  have hfits := hs.fits c
  cases hcaller : s.caller (some c) with
  | accessing access index mutexIndex =>
      rw [hcaller] at h
      exact hs.access hvalue hcareful hcaller (Exec.toOption_eq_some.mp h)
  | idle | looking | got =>
      rw [hcaller] at hfits
      exact hfits.elim
  | returned code =>
      rw [hcaller] at h
      cases h
  | sizing access =>
      rw [hcaller] at h hfits
      cases h
      cases hfits
      exact hs.move ⟨rfl, rfl⟩ (by rintro ⟨⟩)
  | locating access index =>
      rw [hcaller] at h hfits
      cases h
      obtain ⟨hindex, haccess⟩ := hfits
      by_cases hcap : index / itemsSizeOnItemsMutexRatio ≥ s.table.itemsMutexesSize
      · simp only [if_pos hcap]
        exact hs.move ⟨hindex, haccess, hcap⟩ (by rintro ⟨⟩)
      · simp only [if_neg hcap]
        refine hs.move ⟨hindex, haccess, ?_⟩ (by rintro ⟨⟩)
        rw [HashTable.getMutexIndex]
        exact (if_neg hcap).symm
  | capping access index =>
      rw [hcaller] at h hfits
      cases h
      obtain ⟨hindex, haccess, hcap⟩ := hfits
      refine hs.move ⟨hindex, haccess, ?_⟩ (by rintro ⟨⟩)
      rw [HashTable.getMutexIndex]
      exact (if_pos hcap).symm
  | testing item index mutexIndex currentItem =>
      rw [hcaller] at h hfits
      cases h
      obtain ⟨rfl, hindex, hmutex, hheads⟩ := hfits
      by_cases hfull : s.table.currentCapacity + getItemCapacity (entry calls c) ≥ maxCapacity
      · simp only [if_pos hfull]
        exact hs.move trivial (by rintro ⟨⟩)
      simp only [if_neg hfull]
      by_cases hempty : currentItem.value.length = 0
      · simp only [if_pos hempty]
        exact hs.move ⟨rfl, hindex, hmutex⟩ (by rintro ⟨⟩)
      have hhead := hheads fun hnil => hempty (by rw [hnil]; rfl)
      simp only [if_neg hempty]
      by_cases hkey : (entry calls c).key = currentItem.key
      · simp only [if_pos hkey]
        refine hs.move ⟨hindex, ⟨rfl, ?_⟩, hmutex⟩ (by rintro ⟨⟩)
        rw [hkey]
        exact hhead
      · simp only [if_neg hkey]
        exact hs.move ⟨hindex, rfl, _, Ne.symm hkey, hhead⟩ (by rintro ⟨⟩)
  | weighing item index mutexIndex =>
      rw [hcaller] at h hfits
      cases h
      exact hs.move hfits (by rintro ⟨⟩)
  | limiting item index mutexIndex count =>
      rw [hcaller] at h hfits
      cases h
      obtain ⟨rfl, hindex, hmutex⟩ := hfits
      by_cases hload : count ≥ s.table.loadLimit
      · simp only [if_pos hload]
        exact hs.move trivial (by rintro ⟨⟩)
      · simp only [if_neg hload]
        exact hs.move ⟨hindex, rfl, hmutex⟩ (by rintro ⟨⟩)
  | tallying item | charging item =>
      rw [hcaller] at h hfits
      cases h
      exact hs.move hfits fun _ => by rw [hcaller]; rfl
  | tallied item n | charged item n =>
      rw [hcaller] at h hfits
      cases h
      refine hs.quiet ?_ rfl hfits fun _ => by rw [hcaller]; rfl
      exact HashTable.grows_of_items rfl rfl rfl rfl (List.prefix_refl _)
  | crediting item =>
      rw [hcaller] at h hfits
      cases h
      refine hs.quiet ?_ rfl hfits fun _ => by rw [hcaller]; rfl
      exact HashTable.grows_of_items rfl rfl rfl rfl (List.prefix_refl _)
  | following item index next =>
      rw [hcaller] at h hfits
      obtain ⟨currentItem, _, rfl⟩ := Option.map_eq_some_iff.mp h
      exact hs.move hfits (by rintro ⟨⟩)
  | counting item index currentItem =>
      rw [hcaller] at h hfits
      cases h
      refine hs.quiet ?_ rfl hfits (by rintro ⟨⟩)
      exact HashTable.grows_of_items rfl rfl rfl rfl (List.prefix_refl _)
  | paying item index currentItem =>
      rw [hcaller] at h hfits
      cases h
      obtain ⟨rfl, hindex, hother⟩ := hfits
      refine hs.quiet ?_ rfl (walk_fits hindex hother) ?_
      · exact HashTable.grows_of_items rfl rfl rfl rfl (List.prefix_refl _)
      · intro hstored
        rw [walk_stored] at hstored
        cases hstored
  | pushing item index =>
      rw [hcaller] at h hfits
      cases h
      obtain ⟨rfl, hindex, hother⟩ := hfits
      have hgrows : s.table.Grows
          { s.table with colisions := s.table.colisions ++ [entry calls c] } :=
        HashTable.grows_of_items rfl rfl rfl rfl (List.prefix_append _ _)
      refine hs.quiet hgrows rfl ⟨hindex, rfl, hgrows.headsOther hother, ?_⟩ (by rintro ⟨⟩)
      have hlast : ((s.table.colisions.length + 1 : ℕ) : Int) - 1 = s.table.colisions.length := by
        omega
      rw [hlast]
      apply vectorGet_natCast
      simp

theorem Orderly.turn (hs : s.Orderly P calls) (hvalue : (calls c).2 ≠ [])
    (hcareful : s.Careful P calls c) (h : s.turn c = some t) : t.Orderly P calls := by
  rw [SharedTable.turn, work] at h
  split at h
  · obtain ⟨parking, _, rfl⟩ := Option.map_eq_some_iff.mp h
    exact ⟨hs.fits, hs.finds⟩
  · obtain ⟨result, hmove, rfl⟩ := Option.map_eq_some_iff.mp h
    exact hs.moves hvalue hcareful hmove

omit [DecidableEq ι] in
theorem Orderly.keepsAdds {T : HashTable} (hs : s.Orderly (Kept T calls) calls) :
    s.KeepsAdds T calls := by
  intro c hreturned hkept
  have hfits := hs.fits c
  rw [hreturned] at hfits
  have hfinds := hs.finds c hkept (by rw [hreturned]; rfl)
  exact hfinds.contains hfits

/-- If the calls of a run are careful, it keeps what every serial order keeps. -/
theorem run_keepsAdds {T : HashTable} (hvalue : ∀ c, (calls c).2 ≠ []) {cs : List ι}
    (hcs : Machine.Meets SharedTable.turn (Careful (Kept T calls) calls) (adds T calls) cs)
    (hrun : Machine.run SharedTable.turn (adds T calls) cs = some s) : s.KeepsAdds T calls :=
  (Machine.run_invariant_of_meets (Orderly (Kept T calls) calls)
    (fun _ c _ hs hc h => hs.turn (hvalue c) hc h) (adds_orderly T) hcs hrun).keepsAdds

/-! ### Two calls on one cell -/

omit [DecidableEq ι] in
theorem CarefulAt.of_all {p : Caller} (h : CarefulAt (fun _ => True) calls s c p) :
    CarefulAt P calls s c p := by
  cases p with
  | accessing access index mutexIndex =>
      cases access with
      | place | extend => exact h
      | merge => exact absurd trivial h.1
      | link => exact fun cell hcell d _ => h cell hcell d trivial
      | find | collide | look => exact trivial
  | _ => exact trivial

instance (index : Int) : Decidable (StoredAt calls s index c) :=
  inferInstanceAs (Decidable (_ ∧ _))

instance [Fintype ι] [DecidablePred P] : ∀ p, Decidable (CarefulAt P calls s c p)
  | .accessing (.place _) _ _ => inferInstanceAs (Decidable (∀ _ ∈ _, _))
  | .accessing (.extend _ _) _ _ => inferInstanceAs (Decidable (∀ _ ∈ _, _))
  | .accessing (.merge _ _) _ _ => inferInstanceAs (Decidable (¬ P c ∧ ∀ _ ∈ _, ∀ d, P d → _ → _))
  | .accessing (.link _ _) _ _ => inferInstanceAs (Decidable (∀ _ ∈ _, ∀ d, P d → _ → _))
  | .accessing (.find _) _ _ | .accessing (.collide _) _ _ | .accessing (.look _) _ _
  | .idle | .sizing _ | .locating _ _ | .capping _ _ | .testing _ _ _ _ | .weighing _ _ _
  | .limiting _ _ _ _ | .tallying _ | .tallied _ _ | .charging _ | .charged _ _
  | .following _ _ _ | .counting _ _ _ | .paying _ _ _ | .pushing _ _ | .crediting _
  | .returned _ | .looking _ _ | .got _ => isTrue trivial

instance [Fintype ι] [DecidablePred P] : Decidable (s.Careful P calls c) :=
  inferInstanceAs (Decidable (CarefulAt P calls s c _))

def twoKeys : Bool → WString × List WString
  | false => ([97], [[49]])
  | true => ([99], [[50]])

/-- The second call starts when the first has filled the cell. -/
def placedFirst : List Bool :=
  List.replicate 8 false ++ List.replicate 12 true ++ List.replicate 4 false

theorem placedFirst_keepsAdds : ∃ s,
    Machine.run SharedTable.turn (adds (.new 2) twoKeys) placedFirst = some s ∧
      s.KeepsAdds (.new 2) twoKeys := by
  have hmeets : Machine.Meets SharedTable.turn (Careful (fun _ => True) twoKeys)
      (adds (.new 2) twoKeys) placedFirst := by decide
  have hrun : (Machine.run SharedTable.turn (adds (.new 2) twoKeys) placedFirst).isSome := by decide
  obtain ⟨s, hs⟩ := Option.isSome_iff_exists.mp hrun
  exact ⟨s, hs, run_keepsAdds (by decide) (hmeets.mono fun _ _ h => h.of_all) hs⟩

/-- Both calls find the cell free before either fills it. -/
def bothFree : List Bool :=
  List.replicate 7 false ++ List.replicate 7 true ++ List.replicate 5 false ++
    List.replicate 5 true

/-- Either order keeps the first call. -/
theorem twoKeys_kept : Kept (.new 2) twoKeys false := by
  intro order hnodup hall
  have hperm : order.Perm [false, true] := by
    apply (List.perm_ext_iff_of_nodup hnodup (by decide)).mpr
    intro d
    exact iff_of_true (hall d) (by revert d; decide)
  obtain ⟨a, b, rfl⟩ := List.length_eq_two.mp hperm.length_eq
  have horder : ∀ a b : Bool, [a, b].Nodup →
      (Machine.run (serial twoKeys) (.new 2) [a, b]).map (fun T => T.get [97]) =
        some (.ok [[49]]) := by decide
  obtain ⟨T, hrun, hget⟩ := Option.map_eq_some_iff.mp (horder a b hnodup)
  exact ⟨T, hrun, _, hget, List.Subset.refl _⟩

theorem bothFree_not_keepsAdds : ¬ ∀ (ι : Type) [DecidableEq ι] [Fintype ι] (T : HashTable)
    (calls : ι → WString × List WString), (∀ c, (calls c).2 ≠ []) →
    ∀ (cs : List ι) (s : SharedTable ι),
      Machine.run SharedTable.turn (adds T calls) cs = some s → s.KeepsAdds T calls := by
  intro h
  have hrun : (Machine.run SharedTable.turn (adds (.new 2) twoKeys) bothFree).isSome := by decide
  obtain ⟨s, hs⟩ := Option.isSome_iff_exists.mp hrun
  have hkeeps := h Bool (.new 2) twoKeys (by decide) bothFree s hs false
  have hreturned : (Machine.run SharedTable.turn (adds (.new 2) twoKeys) bothFree).map
      (fun s => (s.caller (some false), s.table.get [97])) = some (.returned 0, .ok []) := by decide
  rw [hs, Option.map_some, Option.some.injEq, Prod.mk.injEq] at hreturned
  obtain ⟨found, hfound, hsub⟩ := hkeeps hreturned.1 twoKeys_kept
  cases hreturned.2.symm.trans hfound
  exact absurd (hsub (List.mem_singleton.mpr rfl)) List.not_mem_nil

end SharedTable

end IndexServer
