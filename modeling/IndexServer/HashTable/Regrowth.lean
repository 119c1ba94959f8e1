import IndexServer.HashTable.Contents

/-!
# What a growth leaves

A growth places the collision entries into a new vector, in their order, and adds again those that
find another key in their cell. Under every key the new vector and the entries still to be added
hold together what the collision entries held. So a table without harmful insertions keeps through a
growth what lookups find behind the heads, and forgets the heads.
-/

namespace IndexServer

namespace HashTable

open Multimap

variable {T T₁ T' : HashTable}

/-! ### Placing -/

/-- What a vector of cells has under a key in the cell of the key. -/
def held (items : List HashItem) (size : ℕ) (key : WString) : List WString :=
  match items[home size key]? with
  | some cell => if cell.key = key then cell.value else []
  | none => []

theorem held_eq {items : List HashItem} {size : ℕ} {key : WString} {cell : HashItem}
    (hcell : items[home size key]? = some cell) :
    held items size key = if cell.key = key then cell.value else [] := by
  rw [held, hcell]

theorem held_set_ne {items : List HashItem} {size i : ℕ} {key : WString} {cell : HashItem}
    (hne : home size key ≠ i) : held (items.set i cell) size key = held items size key := by
  rw [held, held, List.getElem?_set_ne (Ne.symm hne)]

theorem held_set_self {items : List HashItem} {size i : ℕ} {key : WString} {cell : HashItem}
    (hlt : i < items.length) (hhome : home size key = i) :
    held (items.set i cell) size key = if cell.key = key then cell.value else [] := by
  subst hhome
  exact held_eq (List.getElem?_set_self hlt)

/-- What the local vectors of a growth hold under a key. -/
def Growth.contents (g : Growth) (newSize : ℕ) (key : WString) : List WString :=
  held g.newItemsVector newSize key ++ collect (pairs g.tmpColisions) key

theorem Placed.collect_eq_nil {g : Growth} {newSize : ℕ} {tidy : Prop}
    {Q : WString → List WString → Prop} (hg : Placed newSize tidy Q g) {key : WString}
    {cell : HashItem} (hcell : g.newItemsVector[home newSize key]? = some cell)
    (hfree : cell.value = [] ∨ cell.key = key) : collect (pairs g.tmpColisions) key = [] := by
  apply collect_eq_nil_of_forall
  intro e he hsame
  obtain ⟨hi, hmem, rfl⟩ := List.mem_map.mp he
  obtain ⟨_, _, head, hhead, hvalue, hkey⟩ := hg.deferred hi hmem
  change hi.key = key at hsame
  rw [hsame, hcell, Option.some.injEq] at hhead
  rcases hfree with hempty | hown
  · exact absurd (hhead ▸ hempty) hvalue
  · exact absurd (hhead ▸ hown.trans hsame.symm) hkey

/-- An entry that is placed goes behind what the vectors hold under its key. -/
theorem PlaceResult.contents {g g' : Growth} {newSize : ℕ} {tidy : Prop}
    {Q : WString → List WString → Prop} {item : HashItem} (h : PlaceResult g newSize item g')
    (hg : Placed newSize tidy Q g) (key : WString) :
    g'.contents newSize key = g.contents newSize key ++ collect (pairs [item]) key := by
  have hitem : collect (pairs [item]) key = if key = item.key then item.value else [] :=
    collect_singleton item.key item.value key
  cases h with
  | deferred =>
      rw [Growth.contents, Growth.contents, pairs_append, collect_append, List.append_assoc]
  | merged hcell hvalue hsame =>
      have hlt := (List.getElem?_eq_some_iff.mp hcell).1
      rw [Growth.contents, Growth.contents, hitem]
      by_cases hhome : home newSize key = home newSize item.key
      · rw [held_set_self hlt hhome]
        rw [← hhome] at hcell
        rw [held_eq hcell]
        by_cases hkey : key = item.key
        · rw [hg.collect_eq_nil hcell (.inr (hsame.trans hkey.symm)), if_pos hkey,
            if_pos (hsame.trans hkey.symm), if_pos (hsame.trans hkey.symm), List.append_nil,
            List.append_nil]
        · have hother : ¬ _ = key := fun hown => hkey (hown.symm.trans hsame)
          rw [if_neg hkey, if_neg hother, if_neg hother, List.append_nil]
      · have hkey : key ≠ item.key := by
          rintro rfl
          exact hhome rfl
        rw [held_set_ne hhome, if_neg hkey, List.append_nil]
  | put hcell hvalue =>
      have hlt := (List.getElem?_eq_some_iff.mp hcell).1
      rw [Growth.contents, Growth.contents, hitem]
      by_cases hhome : home newSize key = home newSize item.key
      · rw [held_set_self hlt hhome]
        rw [← hhome] at hcell
        have hold : held g.newItemsVector newSize key = [] := by
          rw [held_eq hcell, hvalue, ite_self]
        rw [hold, hg.collect_eq_nil hcell (.inl hvalue), List.append_nil]
        by_cases hkey : key = item.key
        · rw [if_pos hkey, if_pos hkey.symm]
          rfl
        · rw [if_neg hkey, if_neg (Ne.symm hkey)]
          rfl
      · have hkey : key ≠ item.key := by
          rintro rfl
          exact hhome rfl
        rw [held_set_ne hhome, if_neg hkey, List.append_nil]

/-! ### The replaced table -/

theorem Sound.growColisions_contents (hT : T.Sound) {newSize : ℕ} (hsize : 0 < newSize)
    (husable : ∀ key, Usable T.size key → Usable newSize key) {entries : List HashItem}
    {indices : List ℕ} (hentries : indices.map (fun i => T.colisions[i]?) = entries.map some)
    {g g' : Growth} {tidy : Prop} (hlength : g.newItemsVector.length = newSize)
    (hg : Placed newSize tidy (fun _ _ => True) g)
    (hrun : T.growColisions newSize indices g = .ok g') (key : WString) :
    g'.contents newSize key = g.contents newSize key ++ collect (pairs entries) key := by
  induction indices generalizing entries g with
  | nil =>
      cases entries with
      | nil =>
          cases hrun
          exact (List.append_nil _).symm
      | cons => cases hentries
  | cons i rest ih =>
      cases entries with
      | nil => cases hentries
      | cons entry others =>
          rw [List.map_cons, List.map_cons, List.cons.injEq] at hentries
          obtain ⟨hentry, hothers⟩ := hentries
          have hmem := List.mem_of_getElem? hentry
          have hkey : Usable newSize ({ entry with next := -1 } : HashItem).key :=
            husable entry.key (hT.entry_usable entry hmem)
          obtain ⟨g₁, hplace, hresult⟩ := place_result hsize hlength hkey
          rw [growColisions, vectorGet_natCast hentry, Exec.ok_bind, hplace] at hrun
          have hrest := ih hothers (hresult.length.trans hlength)
            (hresult.placed joins_true hg hkey rfl trivial) hrun
          rw [hrest, hresult.contents hg, List.append_assoc, ← collect_append, ← pairs_append]
          rfl

theorem map_getElem?_range (v : List HashItem) :
    (List.range v.length).map (fun i => v[i]?) = v.map some := by
  apply List.ext_getElem
  · simp
  · intro i hi hi'
    simp

theorem Sound.lookup_eq_held (hT : T.Sound)
    (hnext : ∀ (i : ℕ) (cell : HashItem), T.items[i]? = some cell → cell.value ≠ [] →
      cell.next = -1) (key : WString) : T.lookup key = held T.items T.size key := by
  obtain ⟨cell, hcell⟩ := hT.exists_cell key
  rw [lookup, held_eq hcell]
  by_cases hvalue : cell.value = []
  · rw [slot_eq_vacant hcell hvalue, hvalue, ite_self]
    rfl
  · rw [slot_eq_single hcell hvalue (hnext _ _ hcell hvalue), Slot.find]
    exact if_congr eq_comm rfl rfl

/-- What lookups find in the replaced table, and the entries still to be added, are together the
collision entries. -/
theorem Sound.rehash_contents (hT : T.Sound) (hsmall : 2 * T.size < maxCapacity)
    {tmpColisions : List HashItem} (hrun : T.rehash = .ok (T₁, tmpColisions)) (key : WString) :
    T₁.lookup key ++ collect (pairs tmpColisions) key = collect (pairs T.colisions) key := by
  have hpos : 0 < 2 * T.size := Nat.mul_pos Nat.two_pos hT.size_pos
  have husable : ∀ key, Usable T.size key → Usable (2 * T.size) key :=
    fun key hkey => hkey.double hsmall
  have hspec := hT.rehashed hsmall hrun joins_true fun _ _ => trivial
  have hheld := hspec.sound.lookup_eq_held
    (fun i cell hcell hvalue => (hspec.cell_entry i cell hcell hvalue).1) key
  have hindices : ∀ i ∈ List.range T.size, i < T.items.length := by
    intro i hi
    rw [hT.items_length]
    exact List.mem_range.mp hi
  -- the first loop places cells without values only
  obtain ⟨g, hgrow, hlength, hblank⟩ := growItems_rule hT hpos husable
    (P := Blank (2 * T.size) False)
    (fun g item g' hg hkey _ hvalue hresult => hresult.blank hg hkey hvalue fun h => h.elim)
    hindices (List.length_replicate : (createNewVector (2 * T.size)).length = 2 * T.size)
    (blank_createNewVector _ _)
  simp only [rehash, hgrow, Exec.ok_bind] at hrun
  obtain ⟨g', hcolisions, hrun⟩ := Exec.bind_eq_ok.mp hrun
  rw [if_neg (not_not_intro hT.idle)] at hrun
  cases hrun
  have hcontents := hT.growColisions_contents hpos husable (map_getElem?_range T.colisions)
    hlength (hblank.placed _) hcolisions key
  have hnothing : g.contents (2 * T.size) key = [] := by
    rw [Growth.contents, hblank.tmpColisions, held]
    split
    · next cell hcell => rw [(hblank.cell _ _ hcell).2.1, ite_self]; rfl
    · rfl
  rw [hnothing, List.nil_append] at hcontents
  rw [hheld]
  exact hcontents

/-! ### Adding again -/

def Received (T : HashTable) (key : WString) (value : List WString) : Prop :=
  T.Fits key value ∧ (T.slot (home T.size key)).Open key

instance (T : HashTable) (key : WString) (value : List WString) :
    Decidable (T.Received key value) :=
  inferInstanceAs (Decidable (T.currentCapacity + charge key value < maxCapacity ∧ _))

theorem Slot.insert_ne_vacant {key : WString} {s : Slot} (hs : s.Open key) (h : s ≠ .vacant)
    (value : List WString) (next : Int) : s.insert key value next ≠ .vacant := by
  cases s with
  | vacant => exact absurd rfl h
  | single head =>
      rw [Slot.insert]
      split <;> exact Slot.noConfusion
  | linked head entry =>
      rw [Slot.insert]
      split
      · exact Slot.noConfusion
      · next hhead =>
          rw [if_neg (hs.resolve_left hhead).1]
          exact Slot.noConfusion

theorem Sound.readd_contents {tmpColisions : List HashItem} (hT : T.Sound) (hsettled : T.Settled)
    (hdeferred : ∀ hi ∈ tmpColisions,
      Usable T.size hi.key ∧ T.slot (home T.size hi.key) ≠ .vacant)
    (hguard : Machine.Meets readdStep (fun T hi => T.Received hi.key hi.value) T tmpColisions)
    (hrun : T.readd tmpColisions = .ok T') :
    T'.Settled ∧ ∀ key, T'.lookup key = T.lookup key ++ collect (pairs tmpColisions) key := by
  induction tmpColisions generalizing T with
  | nil =>
      cases hrun
      exact ⟨hsettled, fun key => (List.append_nil _).symm⟩
  | cons hi rest ih =>
      obtain ⟨⟨hfits, hopen⟩, hrest⟩ := hguard
      obtain ⟨hkey, hoccupied⟩ := hdeferred hi List.mem_cons_self
      obtain ⟨T₁, code, hadd, hresult⟩ := hT.add_result hkey hi.value
      have hharmless : T.Harmless hi.key hi.value := fun _ => hopen
      have hcode : code = 0 := hresult.code_eq_zero hfits hoccupied
      have hlookup := hresult.lookup_eq hT hharmless
      rw [if_pos hcode] at hlookup
      rw [readd, hadd, Exec.ok_bind] at hrun
      have hothers : ∀ other ∈ rest,
          Usable T₁.size other.key ∧ T₁.slot (home T₁.size other.key) ≠ .vacant := by
        intro other hmem
        obtain ⟨husable, hvacant⟩ := hdeferred other (List.mem_cons_of_mem hi hmem)
        rw [hresult.size_eq]
        refine ⟨husable, ?_⟩
        by_cases hhome : home T.size other.key = home T.size hi.key
        · rw [hhome, hresult.slot_self hT hcode]
          exact Slot.insert_ne_vacant hopen hoccupied _ _
        · rw [hresult.slot_ne hT hhome]
          exact hvacant
      obtain ⟨hsettled', hcontents⟩ := ih (hresult.sound hT hkey)
        (hresult.settled hT hsettled hharmless) hothers (hrest T₁ (readdStep_eq_some hadd)) hrun
      refine ⟨hsettled', fun key => ?_⟩
      rw [hcontents, hlookup, insert_apply, pairs_cons, collect_cons]
      split
      · next hsame => rw [hsame, List.append_assoc]
      · rfl

/-! ### Growths of settled tables -/

/-- A growth adds again only entries that fit and find their slots open. -/
def Regrows (T : HashTable) : Prop := EachAdd Received T .increaseTable

instance (T : HashTable) : Decidable T.Regrows :=
  inferInstanceAs (Decidable (EachAdd Received T .increaseTable))

theorem Sound.increaseTable_behind (hT : T.Sound) (hsettled : T.Settled) (hguard : T.Regrows)
    (hgrow : T.increaseTable = .ok (T', 0)) :
    T'.Settled ∧ ∀ key, T'.lookup key = (T.slot (home T.size key)).behind key := by
  rcases hT.increaseTable_cases with
    ⟨_, hsame⟩ | ⟨T₁, tmp, T₂, hsmall, hrun, hreadd, _, _, hnew⟩
  · rw [hsame] at hgrow
    cases hgrow
  · rw [hnew] at hgrow
    cases hgrow
    have hspec := hT.rehashed hsmall hrun joins_true fun _ _ => trivial
    have hunlinked : ∀ key, (T₁.slot (home T₁.size key)).behind key = [] := by
      intro key
      obtain ⟨cell, hcell⟩ := hspec.sound.exists_cell key
      by_cases hvalue : cell.value = []
      · rw [slot_eq_vacant hcell hvalue]
        rfl
      · rw [slot_eq_single hcell hvalue (hspec.cell_entry _ _ hcell hvalue).1, Slot.behind]
        split
        · rfl
        · next hfront => exact if_neg (Ne.symm hfront)
    have hsettled₁ : T₁.Settled := by
      intro key
      rw [hspec.colisions, hunlinked]
      rfl
    have hdeferred : ∀ hi ∈ tmp,
        Usable T₁.size hi.key ∧ T₁.slot (home T₁.size hi.key) ≠ .vacant := by
      intro hi hmem
      obtain ⟨husable, _, head, hhead, hvalue, _⟩ := hspec.deferred hi hmem
      refine ⟨husable, ?_⟩
      rw [slot_eq_single hhead hvalue (hspec.cell_entry _ _ hhead hvalue).1]
      exact Slot.noConfusion
    obtain ⟨hsettled', hcontents⟩ := hspec.sound.readd_contents hsettled₁ hdeferred
      (hguard T₁ tmp hsmall hrun) hreadd
    refine ⟨hsettled', fun key => ?_⟩
    rw [hcontents, hT.rehash_contents hsmall hrun, hsettled]

/-- A step whose insertions harm no lookup. -/
def HarmlessStep (T : HashTable) : Op → Prop
  | .add key value => T.Harmless key value
  | .increaseTable => T.Regrows

instance (T : HashTable) : DecidablePred T.HarmlessStep
  | .add _ _ => inferInstanceAs (Decidable (Harmless _ _ _))
  | .increaseTable => inferInstanceAs (Decidable T.Regrows)

theorem Sound.settled_step {op : Op} (hT : T.Sound) (hsettled : T.Settled)
    (hguard : T.HarmlessStep op) (hstep : T.step op = some T') : T'.Settled := by
  cases op with
  | add key value =>
      obtain ⟨_, code, hresult⟩ := hT.step_add hstep
      exact hresult.settled hT hsettled hguard
  | increaseTable =>
      obtain ⟨⟨T₁, code⟩, hrun, hfirst⟩ := Option.map_eq_some_iff.mp hstep
      have hgrow := Exec.toOption_eq_some.mp hrun
      cases hfirst
      rcases hT.increaseTable_code hgrow with rfl | rfl
      · exact (hT.increaseTable_behind hsettled hguard hgrow).1
      · exact hsettled

theorem run_settled {n : ℕ} (hn : 1 ≤ n) {ops : List Op}
    (hguard : Machine.Meets step HarmlessStep (new n) ops)
    (hrun : Machine.run step (new n) ops = some T) : T.Sound ∧ T.Settled := by
  refine Machine.run_history_of_meets (fun hist T => T.Sound ∧ T.Settled)
    ⟨new_sound hn, new_settled n⟩ ?_ hguard hrun
  intro _ T op T' ⟨hT, hsettled⟩ hguard hstep
  refine ⟨?_, hT.settled_step hsettled hguard hstep⟩
  exact (hT.step_entries (Q := fun _ _ => True) (fun _ _ => trivial) (eachAdd_true T op) hstep).1

end HashTable

end IndexServer
