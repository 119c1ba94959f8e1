import IndexServer.SharedTable.Model

/-!
# Sections on one cell

What a section under a mutex of `itemsMutexes` reads and writes, and what the writes of one call
leave of the values that others have stored: a cell offers a value under a key itself or through the
entry that it links.
-/

namespace IndexServer

namespace HashTable

/-- `get` finds the elements of the value. -/
def Contains (T : HashTable) (key : WString) (value : List WString) : Prop :=
  ∃ found, T.get key = .ok found ∧ value ⊆ found

/-- The cell offers the value under the key, or the entry behind it does. -/
def Holds (colisions : List HashItem) (key : WString) (value : List WString) (cell : HashItem) :
    Prop :=
  cell.value ≠ [] ∧
    (cell.key = key ∧ value ⊆ cell.value ∨
      cell.key ≠ key ∧ ∃ entry, vectorGet colisions cell.next = .ok entry ∧ entry.key = key ∧
        value ⊆ entry.value)

def Finds (T : HashTable) (key : WString) (value : List WString) : Prop :=
  ∃ cell, vectorGet T.items (hashFunction key T.size) = .ok cell ∧
    Holds T.colisions key value cell

def Heads (T : HashTable) (index : Int) (key : WString) : Prop :=
  ∃ cell, vectorGet T.items index = .ok cell ∧ cell.value ≠ [] ∧ cell.key = key

def Lockable (T : HashTable) (index : Int) : Prop := T.lockMutex (T.getMutexIndex index) = .ok ()

variable {T T' : HashTable} {key : WString} {value : List WString} {index mutexIndex : Int}
  {cell cell' : HashItem}

theorem readCellAt_eq_ok :
    T.readCellAt index mutexIndex = .ok cell ↔
      T.lockMutex mutexIndex = .ok () ∧ vectorGet T.items index = .ok cell := by
  rw [readCellAt, Exec.bind_eq_ok]
  constructor
  · rintro ⟨⟨⟩, hlock, hcell⟩
    exact ⟨hlock, hcell⟩
  · rintro ⟨hlock, hcell⟩
    exact ⟨(), hlock, hcell⟩

theorem modifyCellAt_eq_ok {f : HashItem → HashItem}
    (h : T.modifyCellAt index mutexIndex f = .ok T') :
    T.lockMutex mutexIndex = .ok () ∧ ∃ (n : ℕ) (cell : HashItem), index = n ∧
      T.items[n]? = some cell ∧ T' = { T with items := T.items.set n (f cell) } := by
  rw [modifyCellAt] at h
  obtain ⟨⟨⟩, hlock, h⟩ := Exec.bind_eq_ok.mp h
  obtain ⟨cell, hcell, h⟩ := Exec.bind_eq_ok.mp h
  obtain ⟨items, hitems, h⟩ := Exec.bind_eq_ok.mp h
  obtain ⟨n, rfl, hn⟩ := vectorGet_eq_ok.mp hcell
  rw [vectorSet_natCast (List.getElem?_eq_some_iff.mp hn).1] at hitems
  cases hitems
  cases h
  exact ⟨hlock, n, cell, rfl, hn, rfl⟩

theorem Finds.contains (h : T.Finds key value) (hlock : T.Lockable (hashFunction key T.size)) :
    T.Contains key value := by
  obtain ⟨cell, hcell, hvalue, hheld⟩ := h
  have hread : T.readCell (hashFunction key T.size) = .ok cell := by
    rw [readCell, hlock, Exec.ok_bind]
    exact hcell
  rw [Contains, get, hread, Exec.ok_bind, if_pos (List.length_pos_iff.mpr hvalue), getLoop]
  rcases hheld with ⟨hkey, hsub⟩ | ⟨hkey, entry, hentry, hentryKey, hsub⟩
  · rw [if_pos hkey.symm]
    exact ⟨_, rfl, hsub⟩
  · obtain ⟨n, hn, hget⟩ := vectorGet_eq_ok.mp hentry
    have hnext : cell.next ≠ -1 := by omega
    have hlength := (List.getElem?_eq_some_iff.mp hget).1
    obtain ⟨fuel, hfuel⟩ : ∃ fuel, T.colisions.length = fuel + 1 :=
      ⟨T.colisions.length - 1, by omega⟩
    rw [if_neg (Ne.symm hkey), if_neg hnext, hentry, Exec.ok_bind, hfuel, getLoop,
      if_pos hentryKey.symm]
    exact ⟨_, rfl, hsub⟩

/-! ### What the steps of a call keep -/

/-- No cell with a value loses it or its key, and nothing leaves `colisions`. -/
structure Grows (T T' : HashTable) : Prop where
  size : T'.size = T.size
  itemsMutexes : T'.itemsMutexes = T.itemsMutexes
  itemsMutexesSize : T'.itemsMutexesSize = T.itemsMutexesSize
  heads : ∀ index key, T.Heads index key → T'.Heads index key
  colisions : T.colisions <+: T'.colisions

theorem Grows.getMutexIndex (h : T.Grows T') (index : Int) :
    T'.getMutexIndex index = T.getMutexIndex index := by
  rw [HashTable.getMutexIndex, HashTable.getMutexIndex, h.itemsMutexesSize]

theorem Grows.lockable (h : T.Grows T') (hlock : T.Lockable index) : T'.Lockable index := by
  rw [Lockable, h.getMutexIndex, lockMutex, h.itemsMutexes]
  exact hlock

theorem Grows.entry (h : T.Grows T') {next : Int} {entry : HashItem}
    (hentry : vectorGet T.colisions next = .ok entry) :
    vectorGet T'.colisions next = .ok entry := by
  obtain ⟨n, rfl, hn⟩ := vectorGet_eq_ok.mp hentry
  obtain ⟨rest, hrest⟩ := h.colisions
  rw [← hrest]
  apply vectorGet_natCast
  rw [List.getElem?_append_left (List.getElem?_eq_some_iff.mp hn).1]
  exact hn

theorem grows_of_items (hsize : T'.size = T.size) (hmutexes : T'.itemsMutexes = T.itemsMutexes)
    (hmutexesSize : T'.itemsMutexesSize = T.itemsMutexesSize) (hitems : T'.items = T.items)
    (hcolisions : T.colisions <+: T'.colisions) : T.Grows T' where
  size := hsize
  itemsMutexes := hmutexes
  itemsMutexesSize := hmutexesSize
  heads index key h := by
    rw [Heads, hitems]
    exact h
  colisions := hcolisions

theorem Finds.of_items (h : T.Finds key value) (hgrows : T.Grows T') (hitems : T'.items = T.items) :
    T'.Finds key value := by
  obtain ⟨cell, hcell, hvalue, hheld⟩ := h
  refine ⟨cell, ?_, hvalue, hheld.imp_right ?_⟩
  · rw [hgrows.size, hitems]
    exact hcell
  · rintro ⟨hkey, entry, hentry, hrest⟩
    exact ⟨hkey, entry, hgrows.entry hentry, hrest⟩

theorem vectorGet_set_cases {v : List HashItem} {n : ℕ} (hcell : v[n]? = some cell)
    (cell' : HashItem) (i : Int) :
    i = n ∧ vectorGet v i = .ok cell ∧ vectorGet (v.set n cell') i = .ok cell' ∨
      i ≠ n ∧ ∀ c, vectorGet v i = .ok c → vectorGet (v.set n cell') i = .ok c := by
  by_cases hi : i = n
  · subst hi
    refine .inl ⟨rfl, vectorGet_natCast hcell, vectorGet_natCast ?_⟩
    exact List.getElem?_set_self (List.getElem?_eq_some_iff.mp hcell).1
  · refine .inr ⟨hi, fun c hc => ?_⟩
    obtain ⟨m, rfl, hm⟩ := vectorGet_eq_ok.mp hc
    apply vectorGet_natCast
    rw [List.getElem?_set_ne fun hnm => hi (congrArg Nat.cast hnm.symm)]
    exact hm

section write

variable {n : ℕ} (hcell : T.items[n]? = some cell)
include hcell

theorem grows_set (hkeep : cell.value ≠ [] → cell'.value ≠ [] ∧ cell'.key = cell.key) :
    T.Grows { T with items := T.items.set n cell' } where
  size := rfl
  itemsMutexes := rfl
  itemsMutexesSize := rfl
  heads index key := by
    rintro ⟨head, hhead, hvalue, hkey⟩
    rcases vectorGet_set_cases hcell cell' index with ⟨_, hold, hnew⟩ | ⟨_, hother⟩
    · cases hold.symm.trans hhead
      exact ⟨cell', hnew, (hkeep hvalue).1, (hkeep hvalue).2.trans hkey⟩
    · exact ⟨head, hother head hhead, hvalue, hkey⟩
  colisions := List.prefix_refl _

theorem Finds.set (h : T.Finds key value)
    (hkeep : hashFunction key T.size = n → Holds T.colisions key value cell →
      Holds T.colisions key value cell') :
    HashTable.Finds { T with items := T.items.set n cell' } key value := by
  obtain ⟨head, hhead, hheld⟩ := h
  rcases vectorGet_set_cases hcell cell' (hashFunction key T.size) with
    ⟨hn, hold, hnew⟩ | ⟨_, hother⟩
  · cases hold.symm.trans hhead
    exact ⟨cell', hnew, hkeep hn hheld⟩
  · exact ⟨head, hother head hhead, hheld⟩

theorem finds_set (hn : hashFunction key T.size = n)
    (hheld : Holds T.colisions key value cell') :
    HashTable.Finds { T with items := T.items.set n cell' } key value := by
  rcases vectorGet_set_cases hcell cell' (hashFunction key T.size) with ⟨_, _, hnew⟩ | ⟨hne, _⟩
  · exact ⟨cell', hnew, hheld⟩
  · exact absurd hn hne

end write

end HashTable

end IndexServer
