import IndexServer.HashTable.Lookup

/-!
# Which values stand under which keys

A relation between keys and single values that holds of everything a table stores holds of what its
lookups return. An insertion adds to what is stored only its own values under its own key, unless
its key is that of an entry behind a head, and a growth adds nothing unless one of its insertions
meets such an entry.
-/

namespace IndexServer

namespace HashTable

variable {R S : WString → WString → Prop}

/-- Everything the table stores is in the relation. -/
structure Within (R : WString → WString → Prop) (T : HashTable) : Prop where
  cell : ∀ (i : ℕ) (cell : HashItem), T.items[i]? = some cell → ∀ x ∈ cell.value, R cell.key x
  entries : T.Entries fun key value => ∀ x ∈ value, R key x

theorem new_within (R : WString → WString → Prop) (n : ℕ) : (new n).Within R where
  cell i cell hcell x hx := by
    rw [new_getElem? hcell] at hx
    exact absurd hx List.not_mem_nil
  entries := entries_new _ n

theorem Within.mono {T : HashTable} (hT : T.Within R) (hle : ∀ key x, R key x → S key x) :
    T.Within S where
  cell i cell hcell x hx := hle _ _ (hT.cell i cell hcell x hx)
  entries entry hentry x hx := hle _ _ (hT.entries entry hentry x hx)

theorem joins_within (R : WString → WString → Prop) : Joins fun key value => ∀ x ∈ value, R key x :=
  fun _ _ _ hvalue hmore x hx => (List.mem_append.mp hx).elim (hvalue x) (hmore x)

theorem Sound.lookup_within {T : HashTable} (hT : T.Sound) (hwithin : T.Within R) {key x : WString}
    (hx : x ∈ T.lookup key) : R key x := by
  rw [lookup] at hx
  cases hslot : T.slot (home T.size key) with
  | vacant =>
      rw [hslot] at hx
      exact absurd hx List.not_mem_nil
  | single head =>
      obtain ⟨hcell, _⟩ := hT.of_slot_single hslot
      rw [hslot, Slot.find] at hx
      split at hx
      · have hkey : key = head.key := by assumption
        rw [hkey]
        exact hwithin.cell _ _ hcell x hx
      · exact absurd hx List.not_mem_nil
  | linked head entry =>
      obtain ⟨hcell, _, hentry, _⟩ := hT.of_slot_linked hslot
      rw [hslot, Slot.find] at hx
      split at hx
      · have hkey : key = head.key := by assumption
        rw [hkey]
        exact hwithin.cell _ _ hcell x hx
      · split at hx
        · have hkey : key = entry.key := by assumption
          rw [hkey]
          exact hwithin.entries entry hentry x hx
        · exact absurd hx List.not_mem_nil

theorem Sound.get_within {T : HashTable} (hT : T.Sound) (hwithin : T.Within R) {key x : WString}
    {found : List WString} (hget : T.get key = .ok found) (hx : x ∈ found) : R key x := by
  by_cases husable : Usable T.size key
  · have hlookup : T.get key = .ok (T.lookup key) := hT.get_eq husable
    rw [hlookup, Except.ok.injEq] at hget
    exact hT.lookup_within hwithin (hget ▸ hx)
  · rw [get_of_not_usable husable] at hget
    cases hget

theorem not_chained_of_lookup {T : HashTable} (hT : T.Sound)
    (hfilled : T.Entries fun _ value => value ≠ []) {key : WString} (hkey : T.lookup key = [])
    (value : List WString) : ¬ T.Chained key value := by
  rintro ⟨_, hbehind⟩
  rw [lookup] at hkey
  cases hslot : T.slot (home T.size key) with
  | vacant =>
      rw [hslot] at hbehind
      exact hbehind
  | single head =>
      rw [hslot] at hbehind
      exact hbehind
  | linked head entry =>
      obtain ⟨_, _, hentry, _⟩ := hT.of_slot_linked hslot
      rw [hslot] at hbehind hkey
      obtain ⟨hhead, hsame⟩ := hbehind
      rw [Slot.find, if_neg (Ne.symm hhead), if_pos hsame.symm] at hkey
      exact hfilled entry hentry hkey

/-- An insertion stores its own values, under its own key unless that is the key of an entry behind
a head. -/
theorem AddResult.within_of_moved {T T' : HashTable} {key : WString} {value : List WString}
    {code : ℕ} (h : AddResult T key value T' code) (hT : T.Within R)
    (hnew : ∀ x ∈ value, R key x)
    (hmoved : T.Chained key value → ∀ head x, R key x → R head x) : T'.Within R := by
  refine ⟨?_, h.entries hT.entries hnew⟩
  intro m cell hcell x hx
  rcases h.cell_cases hcell with hold | ⟨_, rfl⟩ | ⟨head, hhead, _, hsame, hvalues⟩
  · exact hT.cell m cell hold x hx
  · exact hnew x hx
  rw [hsame]
  rcases hvalues with hkept | ⟨hkey, happended⟩ |
    ⟨hcap, hne, entry, hentry, hslot, hentryKey, hjoined⟩
  · exact hT.cell m head hhead x (hkept ▸ hx)
  · rw [happended] at hx
    exact (List.mem_append.mp hx).elim (hT.cell m head hhead x) fun hx => hkey ▸ hnew x hx
  · -- only here do the values of another key reach the head
    have hchained : T.Chained key value := by
      refine ⟨hcap, ?_⟩
      rw [hslot]
      exact ⟨hne, hentryKey⟩
    apply hmoved hchained
    rw [hjoined] at hx
    exact (List.mem_append.mp hx).elim (hentryKey ▸ hT.entries entry hentry x) (hnew x)

theorem AddResult.within {T T' : HashTable} {key : WString} {value : List WString} {code : ℕ}
    (h : AddResult T key value T' code) (hT : T.Within R) (hnew : ∀ x ∈ value, R key x)
    (hguard : ¬ T.Chained key value) : T'.Within R :=
  h.within_of_moved hT hnew fun hchained => absurd hchained hguard

theorem Rehashed.within {T T₁ : HashTable} {tmpColisions : List HashItem}
    (h : T.Rehashed (fun key value => ∀ x ∈ value, R key x) T₁ tmpColisions) : T₁.Within R where
  cell i cell hcell x hx :=
    (h.cell_entry i cell hcell (List.ne_nil_of_mem hx)).2 x hx
  entries := by
    rw [Entries, h.colisions]
    exact fun _ h => absurd h List.not_mem_nil

theorem Sound.increaseTable_within {T T' : HashTable} {code : ℕ} (hT : T.Sound)
    (hwithin : T.Within R)
    (hguard : EachAdd (fun T key value => ¬ T.Chained key value) T .increaseTable)
    (hgrow : T.increaseTable = .ok (T', code)) : T'.Within R := by
  rcases hT.increaseTable_code hgrow with rfl | rfl
  · exact (hT.growth_rule (joins_within R) hwithin.entries
      (fun _ _ _ _ _ _ hold _ hnew hguard hresult => hresult.within hold hnew hguard)
      (fun _ _ _ _ hspec => hspec.within) hguard hgrow).2
  · exact hwithin

/-- A growth stores no value that was not stored, under whichever key. -/
theorem Sound.increaseTable_values {T T' : HashTable} {code : ℕ} (hT : T.Sound)
    {p : WString → Prop} (hwithin : T.Within fun _ x => p x)
    (hgrow : T.increaseTable = .ok (T', code)) : T'.Within fun _ x => p x := by
  rcases hT.increaseTable_code hgrow with rfl | rfl
  · exact (hT.growth_rule (joins_within fun _ x => p x) hwithin.entries
      (fun _ _ _ _ _ _ hold _ hnew _ hresult =>
        hresult.within_of_moved hold hnew fun _ _ _ hx => hx)
      (fun _ _ _ _ hspec => hspec.within) (eachAdd_true T .increaseTable) hgrow).2
  · exact hwithin

end HashTable

end IndexServer
