import IndexServer.HashTable.Runs

/-!
# What an insertion changes for lookups

`Slot.insert` says what an insertion that returns zero makes of the slot of its key, and `add` does
that and touches no other slot. Where lookups go wrong after an insertion is then a fact about slots
alone: the value of the entry behind a head is joined into the head, and a third key of a cell takes
the place of the second.
-/

namespace IndexServer

namespace HashTable

/-- What becomes of the slot of a key when an entry for it goes in, the entry at position `next` of
`colisions` if it goes there. -/
def Slot.insert (key : WString) (value : List WString) (next : Int) : Slot → Slot
  | .vacant => if value = [] then .vacant else .single (newItem key value)
  | .single head =>
      if head.key = key then .single { head with value := head.value ++ value }
      else .linked { head with next } (newItem key value)
  | .linked head entry =>
      if head.key = key then .linked { head with value := head.value ++ value } entry
      else if entry.key = key then
        if entry.value ++ value = [] then .vacant
        else .linked { head with value := entry.value ++ value } entry
      else .linked { head with next } (newItem key value)

/-! ### Slots after a write -/

section write

variable {T : HashTable} (hT : T.Sound) {i : ℕ} {cell : HashItem} {entries : List HashItem}
  {count currentCapacity : ℕ}
include hT

theorem Sound.slot_write_ne {m : ℕ} (hne : m ≠ i) :
    (T.write i cell entries count currentCapacity).slot m = T.slot m := by
  have hread : (T.write i cell entries count currentCapacity).items[m]? = T.items[m]? :=
    write_getElem?_ne hne
  cases hcell : T.items[m]? with
  | none =>
      rw [slot, slot, hread, hcell]
  | some c =>
      rw [hcell] at hread
      rcases hT.cell_cases hcell with ⟨hvalue, hslot⟩ | ⟨hvalue, hnext, hslot⟩ |
        ⟨j, entry, hvalue, hnext, hentry, hslot⟩
      · rw [hslot, slot_eq_vacant hread hvalue]
      · rw [hslot, slot_eq_single hread hvalue hnext]
      · rw [hslot, slot_eq_linked hread hvalue hnext (write_getElem?_colisions hentry)]

end write

namespace AddResult

variable {T T' : HashTable} {key : WString} {value : List WString} {code : ℕ}

theorem slot_ne (h : AddResult T key value T' code) (hT : T.Sound) {m : ℕ}
    (hne : m ≠ home T.size key) : T'.slot m = T.slot m := by
  cases h with
  | maxed => rfl
  | full => rfl
  | placed => exact hT.slot_write_ne hne
  | extended => exact hT.slot_write_ne hne
  | pushed => exact hT.slot_write_ne hne
  | merged => exact hT.slot_write_ne hne
  | relinked => exact hT.slot_write_ne hne

theorem eq_of_code_ne (h : AddResult T key value T' code) (hcode : code ≠ 0) : T' = T := by
  cases h with
  | maxed => rfl
  | full => rfl
  | placed => exact absurd rfl hcode
  | extended => exact absurd rfl hcode
  | pushed => exact absurd rfl hcode
  | merged => exact absurd rfl hcode
  | relinked => exact absurd rfl hcode

theorem fits (h : AddResult T key value T' code) (hcode : code = 0) : T.Fits key value := by
  cases h with
  | maxed => cases hcode
  | full => cases hcode
  | placed hcap => exact hcap
  | extended hcap => exact hcap
  | pushed hcap => exact hcap
  | merged hcap => exact hcap
  | relinked hcap => exact hcap

theorem code_eq_zero (h : AddResult T key value T' code) (hcap : T.Fits key value)
    (hoccupied : T.slot (home T.size key) ≠ .vacant) : code = 0 := by
  cases h with
  | maxed hmax => exact absurd hcap hmax
  | full _ hcell hvacant => exact absurd (slot_eq_vacant hcell hvacant) hoccupied
  | placed => rfl
  | extended => rfl
  | pushed => rfl
  | merged => rfl
  | relinked => rfl

theorem slot_self (h : AddResult T key value T' code) (hT : T.Sound) (hcode : code = 0) :
    T'.slot (home T.size key) =
      (T.slot (home T.size key)).insert key value T.colisions.length := by
  have hlast : (T.colisions ++ [newItem key value])[T.colisions.length]? =
      some (newItem key value) := List.getElem?_concat_length
  cases h with
  | maxed => cases hcode
  | full => cases hcode
  | placed hcap hcell hvacant hload =>
      rw [slot_eq_vacant hcell hvacant, Slot.insert]
      by_cases hvalue : value = []
      · rw [if_pos hvalue]
        exact slot_eq_vacant (write_getElem?_self (hT.home_lt key)) hvalue
      · rw [if_neg hvalue]
        exact slot_eq_single (write_getElem?_self (hT.home_lt key)) hvalue rfl
  | @extended _ head hcell hvalue hhead =>
      have hvalue' : head.value ++ value ≠ [] := List.append_ne_nil_of_left_ne_nil hvalue _
      rcases hT.cell_cases hcell with ⟨hvacant, _⟩ | ⟨_, hnext, hslot⟩ |
        ⟨j, entry, _, hnext, hentry, hslot⟩
      · exact absurd hvacant hvalue
      · rw [hslot, Slot.insert, if_pos hhead]
        exact slot_eq_single (write_getElem?_self (hT.home_lt key)) hvalue' hnext
      · rw [hslot, Slot.insert, if_pos hhead]
        exact slot_eq_linked (write_getElem?_self (hT.home_lt key)) hvalue' hnext
          (write_getElem?_colisions hentry)
  | @pushed _ head hcell hvalue hhead hnext =>
      rw [slot_eq_single hcell hvalue hnext, Slot.insert, if_neg hhead]
      exact slot_eq_linked (write_getElem?_self (hT.home_lt key)) hvalue rfl hlast
  | @merged _ head hcell hvalue hhead j hnext entry hentry hkey =>
      rw [slot_eq_linked hcell hvalue hnext hentry, Slot.insert, if_neg hhead, if_pos hkey]
      by_cases hjoined : entry.value ++ value = []
      · rw [if_pos hjoined]
        exact slot_eq_vacant (write_getElem?_self (hT.home_lt key)) hjoined
      · rw [if_neg hjoined]
        exact slot_eq_linked (write_getElem?_self (hT.home_lt key)) hjoined hnext
          (write_getElem?_colisions hentry)
  | @relinked _ head hcell hvalue hhead j hnext entry hentry hkey =>
      rw [slot_eq_linked hcell hvalue hnext hentry, Slot.insert, if_neg hhead, if_neg hkey]
      exact slot_eq_linked (write_getElem?_self (hT.home_lt key)) hvalue rfl hlast

end AddResult

/-! ### The inserted key -/

def Slot.Behind (key : WString) : Slot → Prop
  | .linked head entry => head.key ≠ key ∧ entry.key = key
  | _ => False

instance (key : WString) : DecidablePred (Slot.Behind key)
  | .linked head entry => inferInstanceAs (Decidable (head.key ≠ key ∧ entry.key = key))
  | .vacant => isFalse not_false
  | .single _ => isFalse not_false

theorem Slot.find_insert_self_iff (key : WString) {value : List WString} (hvalue : value ≠ [])
    (next : Int) (s : Slot) :
    (s.insert key value next).find key = s.find key ++ value ↔ ¬ s.Behind key := by
  cases s with
  | vacant => simp [Slot.insert, Slot.find, Slot.Behind, hvalue, newItem]
  | single head =>
      by_cases hhead : head.key = key
      · simp [Slot.insert, Slot.find, Slot.Behind, hhead]
      · simp [Slot.insert, Slot.find, Slot.Behind, hhead, Ne.symm hhead, newItem]
  | linked head entry =>
      by_cases hhead : head.key = key
      · simp [Slot.insert, Slot.find, Slot.Behind, hhead]
      · by_cases hentry : entry.key = key
        · simp [Slot.insert, Slot.find, Slot.Behind, hhead, hentry, Ne.symm hhead, hvalue]
        · simp [Slot.insert, Slot.find, Slot.Behind, hhead, hentry, Ne.symm hhead, newItem,
            Ne.symm hentry]

/-- The key is that of an entry behind a head, and the insertion passes the capacity test. -/
def Chained (T : HashTable) (key : WString) (value : List WString) : Prop :=
  T.Fits key value ∧ (T.slot (home T.size key)).Behind key

instance (T : HashTable) (key : WString) (value : List WString) : Decidable (T.Chained key value) :=
  inferInstanceAs (Decidable (T.currentCapacity + charge key value < maxCapacity ∧ _))

/-- What `get` finds, in a sound table. -/
def lookup (T : HashTable) (key : WString) : List WString := (T.slot (home T.size key)).find key

/-- `add` returns, and if it returns zero the values of the key are the old ones followed by the new
ones. -/
def AddExtends (T : HashTable) (key : WString) (value : List WString) : Prop :=
  ∃ T' code, T.add key value = .ok (T', code) ∧
    (code = 0 → ∃ before, T.get key = .ok before ∧ T'.get key = .ok (before ++ value))

theorem AddResult.lookup_self {T T' : HashTable} {key : WString} {value : List WString} {code : ℕ}
    (h : AddResult T key value T' code) (hT : T.Sound) (hcode : code = 0) :
    T'.lookup key =
      ((T.slot (home T.size key)).insert key value T.colisions.length).find key := by
  rw [lookup, h.size_eq, h.slot_self hT hcode]

/-- The values of a key are extended unless the key is that of an entry behind the head of its cell:
`handleCollision` then writes the joined value into the head. -/
theorem Reachable.addExtends_iff {T : HashTable} (hT : T.Reachable) {key : WString}
    (hkey : Admissible key) {value : List WString} (hvalue : value ≠ []) :
    T.AddExtends key value ↔ ¬ T.Chained key value := by
  have hsound := hT.sound
  have husable : Usable T.size key := .inl hkey
  obtain ⟨T', code, hadd, hresult⟩ := hsound.add_result husable value
  have husable' : Usable T'.size key := .inl hkey
  have hget : T.get key = .ok (T.lookup key) := hsound.get_eq husable
  have hget' : T'.get key = .ok (T'.lookup key) := (hresult.sound hsound husable).get_eq husable'
  have hself := (T.slot (home T.size key)).find_insert_self_iff key hvalue T.colisions.length
  constructor
  · intro hextends hbehind
    obtain ⟨hcap, hbehind⟩ := hbehind
    have hoccupied : T.slot (home T.size key) ≠ .vacant := fun hvacant => by
      rw [hvacant] at hbehind
      exact hbehind
    have hcode : code = 0 := hresult.code_eq_zero hcap hoccupied
    obtain ⟨T₁, code₁, hadd₁, hvalues⟩ := hextends
    rw [hadd, Except.ok.injEq, Prod.mk.injEq] at hadd₁
    obtain ⟨rfl, rfl⟩ := hadd₁
    obtain ⟨before, hbefore, hafter⟩ := hvalues hcode
    rw [hget, Except.ok.injEq] at hbefore
    rw [hget', Except.ok.injEq, hresult.lookup_self hsound hcode, ← hbefore] at hafter
    exact hself.mp hafter hbehind
  · intro hnot
    refine ⟨T', code, hadd, fun hcode => ⟨_, hget, ?_⟩⟩
    have hfront : ¬ (T.slot (home T.size key)).Behind key := fun hbehind =>
      hnot ⟨hresult.fits hcode, hbehind⟩
    rw [hget', hresult.lookup_self hsound hcode, hself.mpr hfront]
    rfl

/-- `HashTable(2)` after adding "1" for "a" and "2" for "c", which share a cell. -/
def sharedCell : HashTable where
  size := 2
  count := 1
  currentCapacity := 18
  items := [⟨[97], [[49]], 1, 0⟩, ⟨[], [], -1, -1⟩]
  colisions := [⟨[99], [[50]], 1, -1⟩]
  itemsMutexesSize := 1
  itemsMutexes := 1
  busyThreadCount := 0

theorem sharedCell_reachable : sharedCell.Reachable :=
  ⟨2, [.add [97] [[49]], .add [99] [[50]]], by decide, by decide, by decide⟩

theorem sharedCell_addExtends :
    sharedCell.AddExtends [97] [[51]] ↔ ¬ sharedCell.Chained [97] [[51]] :=
  sharedCell_reachable.addExtends_iff (by decide) (by decide)

theorem add_behind_lost : ¬ ∀ T : HashTable, T.Reachable → ∀ key, Admissible key →
    ∀ value : List WString, value ≠ [] → T.AddExtends key value := by
  intro h
  obtain ⟨T', code, hadd, hvalues⟩ :=
    h sharedCell sharedCell_reachable [99] (by decide) [[51]] (by decide)
  have hresult : sharedCell.add [99] [[51]] =
      .ok ({ sharedCell with
        count := 2
        currentCapacity := 37
        items := [⟨[97], [[50], [51]], 1, 0⟩, ⟨[], [], -1, -1⟩] }, 0) := by decide
  rw [hresult] at hadd
  cases hadd
  obtain ⟨before, hbefore, hafter⟩ := hvalues rfl
  have hfound : sharedCell.get [99] = .ok [[50]] := by decide
  rw [hfound] at hbefore
  cases hbefore
  exact absurd hafter (by decide)

/-! ### The other keys -/

theorem Sound.of_slot_single {T : HashTable} (hT : T.Sound) {i : ℕ} {head : HashItem}
    (h : T.slot i = .single head) : T.items[i]? = some head ∧ head.value ≠ [] := by
  cases hcell : T.items[i]? with
  | none =>
      rw [slot, hcell] at h
      cases h
  | some cell =>
      rcases hT.cell_cases hcell with ⟨_, hslot⟩ | ⟨hvalue, _, hslot⟩ | ⟨_, _, _, _, _, hslot⟩
      · rw [hslot] at h
        cases h
      · rw [hslot] at h
        cases h
        exact ⟨rfl, hvalue⟩
      · rw [hslot] at h
        cases h

theorem Sound.of_slot_linked {T : HashTable} (hT : T.Sound) {i : ℕ} {head entry : HashItem}
    (h : T.slot i = .linked head entry) :
    T.items[i]? = some head ∧ head.value ≠ [] ∧ entry ∈ T.colisions ∧
      home T.size entry.key = i ∧ entry.key ≠ head.key := by
  cases hcell : T.items[i]? with
  | none =>
      rw [slot, hcell] at h
      cases h
  | some cell =>
      rcases hT.cell_cases hcell with ⟨hvalue, hslot⟩ | ⟨hvalue, hnext, hslot⟩ |
        ⟨j, entry', hvalue, hnext, hentry, hslot⟩
      · rw [hslot] at h
        cases h
      · rw [hslot] at h
        cases h
      · rw [hslot] at h
        cases h
        rcases hT.cell_next i head hcell hvalue with hend | ⟨m, e, hm, he, hhome, hne⟩
        · omega
        · have hsame : m = j := by omega
          subst hsame
          rw [hentry, Option.some.injEq] at he
          subst he
          exact ⟨rfl, hvalue, List.mem_of_getElem? hentry, hhome, hne⟩

/-- What the values of a slot must be for an insertion to leave those of other keys alone. -/
def Slot.Keeps (key : WString) (value : List WString) : Slot → Prop
  | .linked head entry =>
      head.key = key ∨ (entry.key = key ∧ head.value = entry.value ++ value) ∨
        (entry.key ≠ key ∧ entry.value = [])
  | _ => True

instance (key : WString) (value : List WString) : DecidablePred (Slot.Keeps key value)
  | .linked head entry => inferInstanceAs (Decidable (head.key = key ∨
      (entry.key = key ∧ head.value = entry.value ++ value) ∨
        (entry.key ≠ key ∧ entry.value = [])))
  | .vacant => isTrue trivial
  | .single _ => isTrue trivial

/-- Both keys of a slot have the property `p`, and they differ. -/
def Slot.Proper (p : WString → Prop) : Slot → Prop
  | .linked head entry => p head.key ∧ p entry.key ∧ entry.key ≠ head.key
  | _ => True

theorem Sound.slot_proper {T : HashTable} (hT : T.Sound) {p : WString → Prop} (hkeys : T.Keys p)
    (i : ℕ) : (T.slot i).Proper fun key => p key ∧ home T.size key = i := by
  cases hslot : T.slot i with
  | vacant => exact trivial
  | single head => exact trivial
  | linked head entry =>
      obtain ⟨hcell, hvalue, hentry, hhome, hne⟩ := hT.of_slot_linked hslot
      exact ⟨⟨hkeys.cell _ _ hcell hvalue, hT.cell_home _ _ hcell hvalue⟩,
        ⟨hkeys.entries entry hentry, hhome⟩, hne⟩

theorem Slot.Proper.find_insert_ne_iff {p : WString → Prop} {s : Slot} (hs : s.Proper p)
    (key : WString) {value : List WString} (hvalue : value ≠ []) (next : Int) :
    (∀ key', p key' → key' ≠ key → (s.insert key value next).find key' = s.find key') ↔
      s.Keeps key value := by
  cases s with
  | vacant =>
      refine iff_of_true (fun key' _ hne => ?_) trivial
      simp [Slot.insert, Slot.find, hvalue, newItem, hne]
  | single head =>
      refine iff_of_true (fun key' _ hne => ?_) trivial
      by_cases hhead : head.key = key
      · simp [Slot.insert, Slot.find, hhead, hne]
      · simp [Slot.insert, Slot.find, hhead, newItem, hne]
  | linked head entry =>
      obtain ⟨hpHead, hpEntry, hdistinct⟩ := hs
      by_cases hhead : head.key = key
      · refine iff_of_true (fun key' _ hne => ?_) (.inl hhead)
        simp [Slot.insert, Slot.find, hhead, hne]
      by_cases hentry : entry.key = key
      · constructor
        · intro hsame
          have hfound := hsame head.key hpHead hhead
          simp only [Slot.insert, hhead, hentry, if_false, if_true, hvalue, List.append_eq_nil_iff,
            and_false, Slot.find] at hfound
          exact .inr (.inl ⟨hentry, hfound.symm⟩)
        · intro hkeeps key' _ hne
          have hjoined : head.value = entry.value ++ value := by
            simpa [Slot.Keeps, hhead, hentry] using hkeeps
          simp [Slot.insert, Slot.find, hhead, hentry, hvalue, hjoined]
      · constructor
        · intro hsame
          have hfound := hsame entry.key hpEntry hentry
          simp only [Slot.insert, hhead, hentry, if_false, Slot.find, hdistinct, newItem,
            if_true] at hfound
          exact .inr (.inr ⟨hentry, hfound.symm⟩)
        · intro hkeeps key' _ hne
          have hempty : entry.value = [] := by
            simpa [Slot.Keeps, hhead, hentry] using hkeeps
          simp [Slot.insert, Slot.find, hhead, hentry, hempty, newItem, hne]

def SameGet (T T' : HashTable) (key : WString) : Prop :=
  ∃ found, T.get key = .ok found ∧ T'.get key = .ok found

theorem Sound.sameGet_iff {T T' : HashTable} (hT : T.Sound) (hT' : T'.Sound) {key : WString}
    (hkey : Admissible key) : SameGet T T' key ↔ T'.lookup key = T.lookup key := by
  have hget : T.get key = .ok (T.lookup key) := hT.get_eq (.inl hkey)
  have hget' : T'.get key = .ok (T'.lookup key) := hT'.get_eq (.inl hkey)
  rw [SameGet, hget, hget']
  constructor
  · rintro ⟨found, hfound, hfound'⟩
    rw [Except.ok.injEq] at hfound hfound'
    exact hfound'.trans hfound.symm
  · intro hsame
    exact ⟨T.lookup key, rfl, congrArg Except.ok hsame⟩

/-- `add` returns, no other key notices, and no key at all does if it returns one or two. -/
def AddIsolates (T : HashTable) (key : WString) (value : List WString) : Prop :=
  ∃ T' code, T.add key value = .ok (T', code) ∧
    (∀ key', Admissible key' → key' ≠ key → SameGet T T' key') ∧
    (code = 1 ∨ code = 2 → ∀ key', Admissible key' → SameGet T T' key')

/-- The other keys notice an insertion exactly where it finds two entries in its cell and neither is
a head of its own: it then overwrites the value of the head or loses the entry behind it. -/
theorem Reachable.addIsolates_iff {T : HashTable} (hT : T.Reachable) {key : WString}
    (hkey : Admissible key) {value : List WString} (hvalue : value ≠ []) :
    T.AddIsolates key value ↔
      (T.Fits key value → (T.slot (home T.size key)).Keeps key value) := by
  have hsound := hT.sound
  have husable : Usable T.size key := .inl hkey
  obtain ⟨T', code, hadd, hresult⟩ := hsound.add_result husable value
  have hsound' := hresult.sound hsound husable
  have hproper := hsound.slot_proper hT.keys (home T.size key)
  have hother := hproper.find_insert_ne_iff key hvalue T.colisions.length
  constructor
  · intro hisolates hcap
    obtain ⟨T₁, code₁, hadd₁, hframe, _⟩ := hisolates
    rw [hadd, Except.ok.injEq, Prod.mk.injEq] at hadd₁
    obtain ⟨rfl, rfl⟩ := hadd₁
    by_cases hvacant : T.slot (home T.size key) = .vacant
    · rw [hvacant]
      exact trivial
    · have hcode : code = 0 := hresult.code_eq_zero hcap hvacant
      apply hother.mp
      intro key' hp hne
      have hsame := (hsound.sameGet_iff hsound' hp.1).mp (hframe key' hp.1 hne)
      rw [lookup, lookup, hresult.size_eq, hp.2, hresult.slot_self hsound hcode] at hsame
      exact hsame
  · intro hkeeps
    refine ⟨T', code, hadd, fun key' hkey' hne => ?_, fun hcode key' hkey' => ?_⟩
    · rw [hsound.sameGet_iff hsound' hkey', lookup, lookup, hresult.size_eq]
      by_cases hhome : home T.size key' = home T.size key
      · rw [hhome]
        by_cases hcode : code = 0
        · rw [hresult.slot_self hsound hcode]
          exact hother.mpr (hkeeps (hresult.fits hcode)) key' ⟨hkey', hhome⟩ hne
        · rw [hresult.eq_of_code_ne hcode]
      · rw [hresult.slot_ne hsound hhome]
    · rw [hresult.eq_of_code_ne (by omega)]
      exact (hsound.sameGet_iff hsound hkey').mpr rfl

theorem sharedCell_addIsolates : sharedCell.AddIsolates [97] [[51]] ↔
    (sharedCell.Fits [97] [[51]] → (sharedCell.slot (home 2 [97])).Keeps [97] [[51]]) :=
  sharedCell_reachable.addIsolates_iff (by decide) (by decide)

theorem add_shared_isolates : ¬ ∀ T : HashTable, T.Reachable → ∀ key, Admissible key →
    ∀ value : List WString, value ≠ [] → T.AddIsolates key value := by
  intro h
  obtain ⟨T', code, hadd, hframe, _⟩ :=
    h sharedCell sharedCell_reachable [101] (by decide) [[51]] (by decide)
  have hresult : sharedCell.add [101] [[51]] =
      .ok ({ sharedCell with
        count := 2
        currentCapacity := 36
        items := [⟨[97], [[49]], 1, 1⟩, ⟨[], [], -1, -1⟩]
        colisions := [⟨[99], [[50]], 1, -1⟩, ⟨[101], [[51]], 1, -1⟩] }, 0) := by decide
  rw [hresult] at hadd
  cases hadd
  obtain ⟨found, hbefore, hafter⟩ := hframe [99] (by decide) (by decide)
  have hfound : sharedCell.get [99] = .ok [[50]] := by decide
  rw [hfound] at hbefore
  cases hbefore
  exact absurd hafter (by decide)
end HashTable

end IndexServer
