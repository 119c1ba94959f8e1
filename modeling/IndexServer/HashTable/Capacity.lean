import IndexServer.HashTable.Lookup

/-!
# What `currentCapacity` accounts for

`add` charges a new cell and an extended head, and it charges every step along a chain. It charges
nothing for the first collision of a cell, and where it joins the value of an entry into the head it
charges for the new values twice and leaves out the old ones of the entry. Whether `currentCapacity`
still covers what is stored, and stays below `maxCapacity`, is decided by those two kinds of
insertion alone.
-/

namespace IndexServer

namespace HashTable

def cellCapacity (cell : HashItem) : ℕ := if cell.value = [] then 0 else getItemCapacity cell

/-- The capacity of all entries, in occupied cells and in `colisions`. -/
def storedCapacity (T : HashTable) : ℕ :=
  (T.items.map cellCapacity).sum + (T.colisions.map getItemCapacity).sum

structure Covered (T : HashTable) : Prop where
  stored : T.storedCapacity ≤ T.currentCapacity
  limit : T.currentCapacity < maxCapacity

/-- An insertion that passes the capacity test meets a slot for which the account comes out right:
what is stored already leaves room for a first collision, and where the value of an entry goes into
the head, for that value in place of the one of the head. -/
def Charges (T : HashTable) (key : WString) (value : List WString) : Prop :=
  T.Fits key value →
    match T.slot (home T.size key) with
    | .vacant => True
    | .single head => head.key ≠ key → T.storedCapacity + charge key value ≤ T.currentCapacity
    | .linked head entry => head.key ≠ key → entry.key = key →
        T.storedCapacity + getVectorByteSize entry.value ≤
            T.currentCapacity + charge key value + getVectorByteSize head.value ∧
          T.currentCapacity + charge key value + getVectorByteSize value < maxCapacity

def Op.Stores : Op → Prop
  | .add _ value => value ≠ []
  | .increaseTable => False

instance : DecidablePred Op.Stores
  | .add _ value => inferInstanceAs (Decidable (value ≠ []))
  | .increaseTable => isFalse id

def Op.Charges (T : HashTable) : Op → Prop
  | .add key value => T.Charges key value
  | .increaseTable => True

theorem cellCapacity_of_ne {cell : HashItem} (h : cell.value ≠ []) :
    cellCapacity cell = getItemCapacity cell := if_neg h

theorem new_covered (n : ℕ) : (new n).Covered where
  stored := by
    have hcells : ((new n).items.map cellCapacity).sum = 0 := by
      simp [new, createNewVector, cellCapacity]
    rw [storedCapacity, hcells]
    exact le_rfl
  limit := by
    show 0 < maxCapacity
    decide

theorem storedCapacity_write {T : HashTable} {i : ℕ} {old : HashItem}
    (hold : T.items[i]? = some old) (cell : HashItem) (entries : List HashItem)
    (count currentCapacity : ℕ) :
    (T.write i cell entries count currentCapacity).storedCapacity + cellCapacity old =
      T.storedCapacity + cellCapacity cell + (entries.map getItemCapacity).sum := by
  have hcells := sum_map_set cellCapacity hold (b := cell)
  simp only [storedCapacity, write, List.map_append, List.sum_append]
  omega

theorem cellCapacity_join {head : HashItem} (hhead : head.value ≠ []) (old : List WString)
    {value : List WString} (hvalue : value ≠ []) :
    cellCapacity { head with value := old ++ value } + getVectorByteSize head.value =
      cellCapacity head + getVectorByteSize old + getVectorByteSize value := by
  rw [cellCapacity_of_ne hhead, cellCapacity_of_ne (List.append_ne_nil_of_right_ne_nil old hvalue)]
  simp only [getItemCapacity, getVectorByteSize_append]
  omega

theorem cellCapacity_link {head : HashItem} (hhead : head.value ≠ []) (next : Int) :
    cellCapacity { head with next } = cellCapacity head := by
  have hlinked : cellCapacity { head with next } = getItemCapacity { head with next } :=
    cellCapacity_of_ne hhead
  rw [hlinked, cellCapacity_of_ne hhead]
  rfl

theorem AddResult.charges_iff {T T' : HashTable} {key : WString} {value : List WString} {code : ℕ}
    (h : AddResult T key value T' code) (hT : T.Sound) (hcovered : T.Covered)
    (hvalue : value ≠ []) : T.Charges key value ↔ T'.Covered := by
  obtain ⟨hstored, hlimit⟩ := hcovered
  have hone : (([newItem key value] : List HashItem).map getItemCapacity).sum = charge key value :=
    List.sum_singleton
  have hnone : (([] : List HashItem).map getItemCapacity).sum = 0 := rfl
  cases h with
  | maxed hcap => exact iff_of_true (fun h => absurd h hcap) ⟨hstored, hlimit⟩
  | full _ hcell hvacant =>
      apply iff_of_true _ ⟨hstored, hlimit⟩
      intro _
      rw [slot_eq_vacant hcell hvacant]
      trivial
  | placed hcap hcell hvacant =>
      have hwrite := storedCapacity_write hcell (newItem key value) [] (T.count + 1)
        (T.currentCapacity + charge key value)
      have hnew : cellCapacity (newItem key value) = charge key value := cellCapacity_of_ne hvalue
      have hold : cellCapacity _ = 0 := if_pos hvacant
      apply iff_of_true
      · intro _
        rw [slot_eq_vacant hcell hvacant]
        trivial
      · refine ⟨?_, hcap⟩
        show _ ≤ T.currentCapacity + charge key value
        omega
  | @extended hcap head hcell hhead hkey =>
      have hwrite := storedCapacity_write hcell { head with value := head.value ++ value } []
        T.count (T.currentCapacity + charge key value)
      have hjoin := cellCapacity_join hhead head.value hvalue
      have hcharge : charge key value = 16 + key.length + getVectorByteSize value := rfl
      apply iff_of_true
      · intro _
        rcases hT.cell_cases hcell with ⟨hvacant, _⟩ | ⟨_, _, hslot⟩ | ⟨_, _, _, _, _, hslot⟩
        · exact absurd hvacant hhead
        · rw [hslot]
          exact fun hne => absurd hkey hne
        · rw [hslot]
          exact fun hne => absurd hkey hne
      · refine ⟨?_, hcap⟩
        show _ ≤ T.currentCapacity + charge key value
        omega
  | @pushed hcap head hcell hhead hkey hnext =>
      have hwrite := storedCapacity_write hcell { head with next := T.colisions.length }
        [newItem key value] T.count T.currentCapacity
      have hlink := cellCapacity_link hhead T.colisions.length
      rw [Charges, slot_eq_single hcell hhead hnext]
      constructor
      · intro hroom
        have hroom := hroom hcap hkey
        refine ⟨?_, hlimit⟩
        show _ ≤ T.currentCapacity
        omega
      · rintro ⟨hstored', _⟩ _ _
        change _ ≤ T.currentCapacity at hstored'
        omega
  | @merged hcap head hcell hhead hkey j hnext entry hentry hentryKey =>
      have hwrite := storedCapacity_write hcell { head with value := entry.value ++ value } []
        (T.count + 1) (T.currentCapacity + charge key value + getVectorByteSize value)
      have hjoin := cellCapacity_join hhead entry.value hvalue
      rw [Charges, slot_eq_linked hcell hhead hnext hentry]
      constructor
      · intro hroom
        obtain ⟨hroom, hlimit'⟩ := hroom hcap hkey hentryKey
        refine ⟨?_, hlimit'⟩
        show _ ≤ T.currentCapacity + charge key value + getVectorByteSize value
        omega
      · rintro ⟨hstored', hlimit'⟩ _ _ _
        change _ ≤ T.currentCapacity + charge key value + getVectorByteSize value at hstored'
        exact ⟨by omega, hlimit'⟩
  | @relinked hcap head hcell hhead hkey j hnext entry hentry hentryKey =>
      have hwrite := storedCapacity_write hcell { head with next := T.colisions.length }
        [newItem key value] (T.count + 1) (T.currentCapacity + charge key value)
      have hlink := cellCapacity_link hhead T.colisions.length
      apply iff_of_true
      · intro _
        rw [slot_eq_linked hcell hhead hnext hentry]
        exact fun _ hsame => absurd hsame hentryKey
      · refine ⟨?_, hcap⟩
        show _ ≤ T.currentCapacity + charge key value
        omega

theorem Sound.step_stores {T T' : HashTable} (hT : T.Sound) {op : Op} (hop : op.Stores)
    (hstep : T.step op = some T') :
    ∃ key value code, op = .add key value ∧ value ≠ [] ∧ AddResult T key value T' code ∧
      T'.Sound := by
  cases op with
  | add key value =>
      obtain ⟨husable, code, hresult⟩ := hT.step_add hstep
      exact ⟨key, value, code, rfl, hop, hresult, hresult.sound hT husable⟩
  | increaseTable => exact hop.elim

theorem run_covered_iff {n : ℕ} (hn : 1 ≤ n) {ops : List Op} (hops : ∀ op ∈ ops, op.Stores)
    {T : HashTable} (hrun : Machine.run step (new n) ops = some T) :
    Machine.Meets step Op.Charges (new n) ops ↔
      ∀ front T', front <+: ops → Machine.run step (new n) front = some T' → T'.Covered := by
  refine Machine.meets_iff_reached Sound Covered ?_ ?_ hops (new_sound hn) (new_covered n) hrun
  · intro T op T' hop hT hstep
    obtain ⟨_, _, _, _, _, _, hT'⟩ := hT.step_stores hop hstep
    exact hT'
  · intro T op T' hop hT hcovered hstep
    obtain ⟨key, value, code, rfl, hvalue, hresult, _⟩ := hT.step_stores hop hstep
    exact hresult.charges_iff hT hcovered hvalue

theorem sharedCell_covered_iff :
    Machine.Meets step Op.Charges (new 2) [.add [97] [[49]], .add [99] [[50]]] ↔
      ∀ front T, front <+: [Op.add [97] [[49]], .add [99] [[50]]] →
        Machine.run step (new 2) front = some T → T.Covered := by
  have hrun : Machine.run step (new 2) [.add [97] [[49]], .add [99] [[50]]] = some sharedCell := by
    decide
  exact run_covered_iff (by decide) (by decide) hrun

/-- The first collision of a cell is not charged. -/
theorem sharedCell_not_covered : ¬ ∀ n : ℕ, 1 ≤ n → ∀ ops : List Op, (∀ op ∈ ops, op.Stores) →
    ∀ T, Machine.run step (new n) ops = some T → T.Covered := by
  intro h
  have hcovered := h 2 (by decide) [.add [97] [[49]], .add [99] [[50]]] (by decide) sharedCell
    (by decide)
  exact absurd hcovered.stored (by decide)

end HashTable

end IndexServer
