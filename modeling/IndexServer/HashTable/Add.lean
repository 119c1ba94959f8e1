import IndexServer.HashTable.Sound

/-!
# What a lookup finds and what an insertion does

In a sound table a cell offers a lookup at most two entries, since no entry of `colisions` is ever
linked further: its slot is vacant, a head alone, or a head and the entry behind it. `get` reads the
slot of its key, and `add` ends in one of seven ways, which the slot, the capacity and the load of
the table decide. Every fact about `add` below is a case analysis on `AddResult`.
-/

namespace IndexServer

namespace HashTable

inductive Slot where
  | vacant
  | single (head : HashItem)
  | linked (head entry : HashItem)

def slot (T : HashTable) (i : ℕ) : Slot :=
  match T.items[i]? with
  | none => .vacant
  | some head =>
      if head.value = [] then .vacant
      else if head.next = -1 then .single head
      else
        match T.colisions[head.next.toNat]? with
        | none => .single head
        | some entry => .linked head entry

def Slot.find (key : WString) : Slot → List WString
  | .vacant => []
  | .single head => if key = head.key then head.value else []
  | .linked head entry =>
      if key = head.key then head.value else if key = entry.key then entry.value else []

theorem slot_eq_vacant {T : HashTable} {i : ℕ} {cell : HashItem} (hcell : T.items[i]? = some cell)
    (hvalue : cell.value = []) : T.slot i = .vacant := by
  rw [slot, hcell]
  exact if_pos hvalue

theorem slot_eq_single {T : HashTable} {i : ℕ} {cell : HashItem} (hcell : T.items[i]? = some cell)
    (hvalue : cell.value ≠ []) (hnext : cell.next = -1) : T.slot i = .single cell := by
  rw [slot, hcell]
  exact (if_neg hvalue).trans (if_pos hnext)

theorem slot_eq_linked {T : HashTable} {i j : ℕ} {cell entry : HashItem}
    (hcell : T.items[i]? = some cell) (hvalue : cell.value ≠ []) (hnext : cell.next = (j : Int))
    (hentry : T.colisions[j]? = some entry) : T.slot i = .linked cell entry := by
  have hne : cell.next ≠ -1 := by omega
  rw [slot, hcell]
  refine (if_neg hvalue).trans ((if_neg hne).trans ?_)
  rw [hnext, Int.toNat_natCast, hentry]

theorem Sound.cell_cases {T : HashTable} (hT : T.Sound) {i : ℕ} {cell : HashItem}
    (hcell : T.items[i]? = some cell) :
    (cell.value = [] ∧ T.slot i = .vacant) ∨
    (cell.value ≠ [] ∧ cell.next = -1 ∧ T.slot i = .single cell) ∨
    ∃ (j : ℕ) (entry : HashItem), cell.value ≠ [] ∧ cell.next = (j : Int) ∧
      T.colisions[j]? = some entry ∧ T.slot i = .linked cell entry := by
  by_cases hvalue : cell.value = []
  · exact .inl ⟨hvalue, slot_eq_vacant hcell hvalue⟩
  · rcases hT.cell_next i cell hcell hvalue with hnext | ⟨j, entry, hnext, hentry, _⟩
    · exact .inr (.inl ⟨hvalue, hnext, slot_eq_single hcell hvalue hnext⟩)
    · exact .inr (.inr ⟨j, entry, hvalue, hnext, hentry,
        slot_eq_linked hcell hvalue hnext hentry⟩)

theorem Sound.get_eq {T : HashTable} (hT : T.Sound) {key : WString} (hkey : Usable T.size key) :
    T.get key = .ok ((T.slot (home T.size key)).find key) := by
  obtain ⟨cell, hcell⟩ := hT.exists_cell key
  rw [get, hashFunction_eq_home hkey, hT.locks.readCell_eq hcell]
  dsimp only [Exec.ok_bind]
  rcases hT.cell_cases hcell with ⟨hvalue, hslot⟩ | ⟨hvalue, hnext, hslot⟩ |
    ⟨j, entry, hvalue, hnext, hentry, hslot⟩
  · simp [hslot, hvalue, Slot.find, pure, Except.pure]
  · have hlen : cell.value.length > 0 := List.length_pos_iff.mpr hvalue
    simp only [hslot, hlen, if_true, Slot.find, getLoop, hnext]
    split <;> rfl
  · have hlen : cell.value.length > 0 := List.length_pos_iff.mpr hvalue
    have hne : cell.next ≠ -1 := by omega
    have hlast : entry.next = -1 := hT.entry_next entry (List.mem_of_getElem? hentry)
    obtain ⟨fuel, hfuel⟩ : ∃ fuel, T.colisions.length = fuel + 1 :=
      ⟨T.colisions.length - 1, by
        have := (List.getElem?_eq_some_iff.mp hentry).1
        omega⟩
    simp only [hslot, hlen, if_true, Slot.find, hfuel, getLoop, hne, if_false]
    rw [hnext, vectorGet_natCast hentry, Exec.ok_bind]
    simp only [hlast, if_true]
    split_ifs <;> rfl

theorem get_of_not_usable {T : HashTable} {key : WString} (hkey : ¬ Usable T.size key) :
    T.get key = .error .outOfRange := by
  rw [get, readCell_of_neg (hashFunction_neg hkey)]
  rfl

theorem add_of_not_usable {T : HashTable} {key : WString} (hkey : ¬ Usable T.size key)
    (value : List WString) : T.add key value = .error .outOfRange := by
  rw [add, readCell_of_neg (hashFunction_neg hkey)]
  rfl

/-! ### The outcomes of `add` -/

/-- The table with cell `i` replaced, entries appended to `colisions` and the counters changed. -/
def write (T : HashTable) (i : ℕ) (cell : HashItem) (entries : List HashItem)
    (count currentCapacity : ℕ) : HashTable :=
  { T with
    items := T.items.set i cell
    colisions := T.colisions ++ entries
    count
    currentCapacity }

theorem write_nil (T : HashTable) (i : ℕ) (cell : HashItem) (count currentCapacity : ℕ) :
    T.write i cell [] count currentCapacity =
      { T with items := T.items.set i cell, count, currentCapacity } := by
  rw [write, List.append_nil]

/-- What `add` charges for an insertion. -/
abbrev charge (key : WString) (value : List WString) : ℕ := getItemCapacity (newItem key value)

/-- The capacity test of `add` lets the insertion pass. -/
def Fits (T : HashTable) (key : WString) (value : List WString) : Prop :=
  T.currentCapacity + charge key value < maxCapacity

/-- The ways in which `add` ends, each with what it depends on, the table it leaves and what it
returns. -/
inductive AddResult (T : HashTable) (key : WString) (value : List WString) : HashTable → ℕ → Prop
  | maxed (hcap : ¬ T.Fits key value) : AddResult T key value T 2
  | full (hcap : T.Fits key value) {cell : HashItem}
      (hcell : T.items[home T.size key]? = some cell) (hvacant : cell.value = [])
      (hload : T.loadLimit ≤ T.count) :
      AddResult T key value T 1
  | placed (hcap : T.Fits key value) {cell : HashItem}
      (hcell : T.items[home T.size key]? = some cell) (hvacant : cell.value = [])
      (hload : T.count < T.loadLimit) :
      AddResult T key value
        (T.write (home T.size key) (newItem key value) [] (T.count + 1)
          (T.currentCapacity + charge key value)) 0
  | extended (hcap : T.Fits key value) {head : HashItem}
      (hcell : T.items[home T.size key]? = some head) (hvalue : head.value ≠ [])
      (hhead : head.key = key) :
      AddResult T key value
        (T.write (home T.size key) { head with value := head.value ++ value } [] T.count
          (T.currentCapacity + charge key value)) 0
  | pushed (hcap : T.Fits key value) {head : HashItem}
      (hcell : T.items[home T.size key]? = some head) (hvalue : head.value ≠ [])
      (hhead : head.key ≠ key) (hnext : head.next = -1) :
      AddResult T key value
        (T.write (home T.size key) { head with next := T.colisions.length } [newItem key value]
          T.count T.currentCapacity) 0
  | merged (hcap : T.Fits key value) {head : HashItem}
      (hcell : T.items[home T.size key]? = some head) (hvalue : head.value ≠ [])
      (hhead : head.key ≠ key) {j : ℕ} (hnext : head.next = (j : Int)) {entry : HashItem}
      (hentry : T.colisions[j]? = some entry) (hkey : entry.key = key) :
      AddResult T key value
        (T.write (home T.size key) { head with value := entry.value ++ value } [] (T.count + 1)
          (T.currentCapacity + charge key value + getVectorByteSize value)) 0
  | relinked (hcap : T.Fits key value) {head : HashItem}
      (hcell : T.items[home T.size key]? = some head) (hvalue : head.value ≠ [])
      (hhead : head.key ≠ key) {j : ℕ} (hnext : head.next = (j : Int)) {entry : HashItem}
      (hentry : T.colisions[j]? = some entry) (hkey : entry.key ≠ key) :
      AddResult T key value
        (T.write (home T.size key) { head with next := T.colisions.length } [newItem key value]
          (T.count + 1) (T.currentCapacity + charge key value)) 0

theorem AddResult.size_eq {T T' : HashTable} {key : WString} {value : List WString} {code : ℕ}
    (h : AddResult T key value T' code) : T'.size = T.size := by
  cases h <;> rfl

section handleCollision

variable {T : HashTable} (hlocks : T.Locks) {item head : HashItem} {i : ℕ}
  (hcell : T.items[i]? = some head) (hhead : head.key ≠ item.key)
include hlocks hcell hhead

theorem handleCollision_of_end (hnext : head.next = -1) :
    T.handleCollision item i = .ok (T.write i { head with next := T.colisions.length } [item]
      T.count T.currentCapacity) := by
  have hpush : ({ T with colisions := T.colisions ++ [item] } : HashTable).Locks := hlocks
  have hlast : ((T.colisions ++ [item]).length : Int) - 1 = T.colisions.length := by simp
  rw [handleCollision, hlocks.readCell_eq hcell, Exec.ok_bind, handleCollisionLoop, if_neg hhead,
    if_pos hnext]
  dsimp only
  rw [hpush.modifyCell_eq hcell, hlast]
  rfl

variable {j : ℕ} (hnext : head.next = (j : Int)) {entry : HashItem}
  (hentry : T.colisions[j]? = some entry)
include hnext hentry

private theorem handleCollision_of_link :
    ∃ fuel, T.handleCollision item i = handleCollisionLoop item i (fuel + 1) { T with
      count := T.count + 1
      currentCapacity := T.currentCapacity + getItemCapacity item } entry := by
  have hne : head.next ≠ -1 := by omega
  have hlt : j < T.colisions.length := (List.getElem?_eq_some_iff.mp hentry).1
  refine ⟨T.colisions.length - 1, ?_⟩
  rw [handleCollision, hlocks.readCell_eq hcell, Exec.ok_bind, handleCollisionLoop, if_neg hhead,
    if_neg hne, hnext, vectorGet_natCast hentry, Nat.sub_add_cancel (by omega)]
  rfl

theorem handleCollision_of_link_eq (hkey : entry.key = item.key) :
    T.handleCollision item i = .ok (T.write i { head with value := entry.value ++ item.value } []
      (T.count + 1)
      (T.currentCapacity + getItemCapacity item + getVectorByteSize item.value)) := by
  obtain ⟨fuel, hfuel⟩ := handleCollision_of_link hlocks hcell hhead hnext hentry
  have hwalk : ({ T with
      count := T.count + 1
      currentCapacity := T.currentCapacity + getItemCapacity item } : HashTable).Locks := hlocks
  rw [hfuel, handleCollisionLoop, if_pos hkey, hwalk.modifyCell_eq hcell, write_nil]
  rfl

theorem handleCollision_of_link_ne (hkey : entry.key ≠ item.key) (hlast : entry.next = -1) :
    T.handleCollision item i = .ok (T.write i { head with next := T.colisions.length } [item]
      (T.count + 1) (T.currentCapacity + getItemCapacity item)) := by
  obtain ⟨fuel, hfuel⟩ := handleCollision_of_link hlocks hcell hhead hnext hentry
  have hpush : ({ T with
      colisions := T.colisions ++ [item]
      count := T.count + 1
      currentCapacity := T.currentCapacity + getItemCapacity item } : HashTable).Locks := hlocks
  have hindex : ((T.colisions ++ [item]).length : Int) - 1 = T.colisions.length := by simp
  rw [hfuel, handleCollisionLoop, if_neg hkey, if_pos hlast]
  dsimp only
  rw [hpush.modifyCell_eq hcell, hindex]
  rfl

end handleCollision

/-- `add` always returns in a sound table, and in one of the seven ways. -/
theorem Sound.add_result {T : HashTable} (hT : T.Sound) {key : WString} (hkey : Usable T.size key)
    (value : List WString) :
    ∃ T' code, T.add key value = .ok (T', code) ∧ AddResult T key value T' code := by
  obtain ⟨cell, hcell⟩ := hT.exists_cell key
  rw [add, hashFunction_eq_home hkey, hT.locks.readCell_eq hcell]
  dsimp only [Exec.ok_bind]
  by_cases hcap : T.Fits key value
  · have hcap' := hcap
    rw [Fits, ← Nat.not_le] at hcap'
    rw [if_neg hcap']
    by_cases hvalue : cell.value = []
    · rw [if_pos (by rw [hvalue]; rfl)]
      by_cases hload : T.loadLimit ≤ T.count
      · exact ⟨T, 1, if_pos hload, .full hcap hcell hvalue hload⟩
      · rw [if_neg hload, hT.locks.modifyCell_eq hcell]
        refine ⟨_, 0, ?_, .placed hcap hcell hvalue (Nat.not_le.mp hload)⟩
        rw [write_nil]
        rfl
    rw [if_neg (by rwa [List.length_eq_zero_iff])]
    by_cases hhead : (newItem key value).key = cell.key
    · rw [if_pos hhead, hT.locks.modifyCell_eq hcell]
      refine ⟨_, 0, ?_, .extended hcap hcell hvalue hhead.symm⟩
      rw [write_nil]
      rfl
    rw [if_neg hhead]
    rcases hT.cell_next _ cell hcell hvalue with hnext | ⟨j, entry, hnext, hentry, _⟩
    · rw [handleCollision_of_end hT.locks hcell (Ne.symm hhead) hnext]
      exact ⟨_, 0, rfl, .pushed hcap hcell hvalue (Ne.symm hhead) hnext⟩
    by_cases hentryKey : entry.key = (newItem key value).key
    · rw [handleCollision_of_link_eq hT.locks hcell (Ne.symm hhead) hnext hentry hentryKey]
      exact ⟨_, 0, rfl, .merged hcap hcell hvalue (Ne.symm hhead) hnext hentry hentryKey⟩
    · rw [handleCollision_of_link_ne hT.locks hcell (Ne.symm hhead) hnext hentry hentryKey
        (hT.entry_next entry (List.mem_of_getElem? hentry))]
      exact ⟨_, 0, rfl, .relinked hcap hcell hvalue (Ne.symm hhead) hnext hentry hentryKey⟩
  · exact ⟨T, 2, if_pos (Nat.not_lt.mp hcap), .maxed hcap⟩

theorem Sound.add_eq_ok {T T' : HashTable} (hT : T.Sound) {key : WString} {value : List WString}
    {code : ℕ} (hadd : T.add key value = .ok (T', code)) :
    Usable T.size key ∧ AddResult T key value T' code := by
  by_cases hkey : Usable T.size key
  · obtain ⟨T₁, code₁, hresult, houtcome⟩ := hT.add_result hkey value
    rw [hresult, Except.ok.injEq, Prod.mk.injEq] at hadd
    obtain ⟨rfl, rfl⟩ := hadd
    exact ⟨hkey, houtcome⟩
  · rw [add_of_not_usable hkey] at hadd
    cases hadd

/-! ### What an insertion writes -/

section write

variable {T : HashTable} {i : ℕ} {cell : HashItem} {entries : List HashItem}
  {count currentCapacity : ℕ}

theorem write_getElem?_ne {m : ℕ} (hne : m ≠ i) :
    (T.write i cell entries count currentCapacity).items[m]? = T.items[m]? :=
  List.getElem?_set_ne (Ne.symm hne)

theorem write_getElem?_self (hlt : i < T.items.length) :
    (T.write i cell entries count currentCapacity).items[i]? = some cell :=
  List.getElem?_set_self hlt

theorem write_getElem?_colisions {j : ℕ} {entry : HashItem}
    (hentry : T.colisions[j]? = some entry) :
    (T.write i cell entries count currentCapacity).colisions[j]? = some entry := by
  rw [write, List.getElem?_append_left (List.getElem?_eq_some_iff.mp hentry).1, hentry]

/-- A write keeps the table sound if its cell and its entries are as a sound table has them. -/
theorem Sound.write (hT : T.Sound) (husable : Usable T.size cell.key)
    (hhome : cell.value ≠ [] → home T.size cell.key = i)
    (hnext : cell.value ≠ [] → cell.next = -1 ∨ ∃ (j : ℕ) (entry : HashItem),
      cell.next = (j : Int) ∧ (T.colisions ++ entries)[j]? = some entry ∧
        home T.size entry.key = i ∧ entry.key ≠ cell.key)
    (hentries : ∀ entry ∈ entries, Usable T.size entry.key ∧ entry.next = -1) :
    (T.write i cell entries count currentCapacity).Sound where
  size_pos := hT.size_pos
  items_length := by
    rw [HashTable.write, List.length_set, hT.items_length]
  locks := hT.locks
  idle := hT.idle
  cell_usable m c hc := by
    rcases getElem?_set_cases hc with ⟨_, rfl⟩ | ⟨_, hold⟩
    · exact husable
    · exact hT.cell_usable m c hold
  cell_home m c hc hvalue := by
    rcases getElem?_set_cases hc with ⟨rfl, rfl⟩ | ⟨_, hold⟩
    · exact hhome hvalue
    · exact hT.cell_home m c hold hvalue
  cell_next m c hc hvalue := by
    rcases getElem?_set_cases hc with ⟨rfl, rfl⟩ | ⟨_, hold⟩
    · exact hnext hvalue
    · rcases hT.cell_next m c hold hvalue with hend | ⟨j, entry, hj, hentry, hhome'⟩
      · exact .inl hend
      · exact .inr ⟨j, entry, hj, write_getElem?_colisions hentry, hhome'⟩
  entry_usable entry hentry :=
    (List.mem_append.mp hentry).elim (hT.entry_usable entry) fun hnew =>
      (hentries entry hnew).1
  entry_next entry hentry :=
    (List.mem_append.mp hentry).elim (hT.entry_next entry) fun hnew => (hentries entry hnew).2

end write

theorem AddResult.cell_cases {T T' : HashTable} {key : WString} {value : List WString} {code : ℕ}
    (h : AddResult T key value T' code) {m : ℕ} {cell : HashItem}
    (hcell : T'.items[m]? = some cell) :
    T.items[m]? = some cell ∨ (m = home T.size key ∧ cell = newItem key value) ∨
      ∃ head, T.items[m]? = some head ∧ head.value ≠ [] ∧ cell.key = head.key ∧
        (cell.value = head.value ∨ head.key = key ∧ cell.value = head.value ++ value ∨
          T.Fits key value ∧ head.key ≠ key ∧
            ∃ entry ∈ T.colisions, T.slot (home T.size key) = .linked head entry ∧
              entry.key = key ∧ cell.value = entry.value ++ value) := by
  cases h with
  | maxed => exact .inl hcell
  | full => exact .inl hcell
  | placed =>
      rcases getElem?_set_cases hcell with ⟨hm, hnew⟩ | ⟨_, hold⟩
      · exact .inr (.inl ⟨hm, hnew⟩)
      · exact .inl hold
  | extended _ hhead hvalue hkey =>
      rcases getElem?_set_cases hcell with ⟨rfl, rfl⟩ | ⟨_, hold⟩
      · exact .inr (.inr ⟨_, hhead, hvalue, rfl, .inr (.inl ⟨hkey, rfl⟩)⟩)
      · exact .inl hold
  | pushed _ hhead hvalue =>
      rcases getElem?_set_cases hcell with ⟨rfl, rfl⟩ | ⟨_, hold⟩
      · exact .inr (.inr ⟨_, hhead, hvalue, rfl, .inl rfl⟩)
      · exact .inl hold
  | merged hcap hhead hvalue hne hnext hentry hkey =>
      rcases getElem?_set_cases hcell with ⟨rfl, rfl⟩ | ⟨_, hold⟩
      · have hslot := slot_eq_linked hhead hvalue hnext hentry
        exact .inr (.inr ⟨_, hhead, hvalue, rfl, .inr (.inr ⟨hcap, hne, _,
          List.mem_of_getElem? hentry, hslot, hkey, rfl⟩)⟩)
      · exact .inl hold
  | relinked _ hhead hvalue =>
      rcases getElem?_set_cases hcell with ⟨rfl, rfl⟩ | ⟨_, hold⟩
      · exact .inr (.inr ⟨_, hhead, hvalue, rfl, .inl rfl⟩)
      · exact .inl hold

theorem AddResult.entry_cases {T T' : HashTable} {key : WString} {value : List WString} {code : ℕ}
    (h : AddResult T key value T' code) {entry : HashItem} (hentry : entry ∈ T'.colisions) :
    entry ∈ T.colisions ∨ entry = newItem key value := by
  have hsame : entry ∈ T.colisions ++ [] → entry ∈ T.colisions ∨ entry = newItem key value := by
    intro hmem
    exact .inl (List.append_nil T.colisions ▸ hmem)
  have hpush : entry ∈ T.colisions ++ [newItem key value] →
      entry ∈ T.colisions ∨ entry = newItem key value := by
    intro hmem
    exact (List.mem_append.mp hmem).imp_right List.mem_singleton.mp
  cases h with
  | maxed => exact .inl hentry
  | full => exact .inl hentry
  | placed => exact hsame hentry
  | extended => exact hsame hentry
  | pushed => exact hpush hentry
  | merged => exact hsame hentry
  | relinked => exact hpush hentry

theorem AddResult.sound {T T' : HashTable} {key : WString} {value : List WString} {code : ℕ}
    (h : AddResult T key value T' code) (hT : T.Sound) (hkey : Usable T.size key) : T'.Sound := by
  have hnone : ∀ entry ∈ ([] : List HashItem), Usable T.size entry.key ∧ entry.next = -1 :=
    fun _ h => absurd h List.not_mem_nil
  have hnew : ∀ entry ∈ [newItem key value], Usable T.size entry.key ∧ entry.next = -1 := by
    intro entry hentry
    rw [List.mem_singleton.mp hentry]
    exact ⟨hkey, rfl⟩
  have hlast : (T.colisions ++ [newItem key value])[T.colisions.length]? =
      some (newItem key value) := List.getElem?_concat_length
  cases h with
  | maxed => exact hT
  | full => exact hT
  | placed => exact hT.write hkey (fun _ => rfl) (fun _ => .inl rfl) hnone
  | extended hcap hcell hvalue hhead =>
      have husable := hT.cell_usable _ _ hcell
      have hhome := hT.cell_home _ _ hcell hvalue
      have hlink := hT.cell_next _ _ hcell hvalue
      rw [← List.append_nil T.colisions] at hlink
      exact hT.write husable (fun _ => hhome) (fun _ => hlink) hnone
  | pushed hcap hcell hvalue hhead hnext =>
      have husable := hT.cell_usable _ _ hcell
      have hhome := hT.cell_home _ _ hcell hvalue
      exact hT.write husable (fun _ => hhome)
        (fun _ => .inr ⟨_, _, rfl, hlast, rfl, hhead.symm⟩) hnew
  | merged hcap hcell hvalue hhead hnext hentry hkey =>
      have husable := hT.cell_usable _ _ hcell
      have hhome := hT.cell_home _ _ hcell hvalue
      have hlink := hT.cell_next _ _ hcell hvalue
      rw [← List.append_nil T.colisions] at hlink
      exact hT.write husable (fun _ => hhome) (fun _ => hlink) hnone
  | relinked hcap hcell hvalue hhead hnext hentry hkey =>
      have husable := hT.cell_usable _ _ hcell
      have hhome := hT.cell_home _ _ hcell hvalue
      exact hT.write husable (fun _ => hhome)
        (fun _ => .inr ⟨_, _, rfl, hlast, rfl, hhead.symm⟩) hnew

end HashTable

end IndexServer
