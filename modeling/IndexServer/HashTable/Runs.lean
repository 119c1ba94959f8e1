import IndexServer.HashTable.Growth

/-!
# Growths and runs

The last loop of `increaseTable` is a run of `add` calls on the replaced table, so what holds of
every such run holds of it, and what insertions and replacements of the vectors preserve holds along
every run of calls.
-/

namespace IndexServer

namespace HashTable

/-! ### The last loop -/

def readdStep (T : HashTable) (hi : HashItem) : Option HashTable :=
  (T.add hi.key hi.value).toOption.map Prod.fst

theorem readdStep_eq_some {T T' : HashTable} {hi : HashItem} {code : ℕ}
    (h : T.add hi.key hi.value = .ok (T', code)) : T.readdStep hi = some T' := by
  rw [readdStep, h]
  rfl

/-- The last loop adds the deferred entries one after another, and what each of these `add` calls
preserves, where it meets the guard, holds after it. -/
theorem Sound.readd_rule {guard : HashTable → HashItem → Prop} {P : HashTable → Prop}
    {tmpColisions : List HashItem}
    (hstep : ∀ T hi T' code, T.Sound → P T → hi ∈ tmpColisions → Usable T.size hi.key →
      guard T hi → AddResult T hi.key hi.value T' code → P T')
    {T : HashTable} (hT : T.Sound) (hkeys : ∀ hi ∈ tmpColisions, Usable T.size hi.key)
    (hmeets : Machine.Meets readdStep guard T tmpColisions) (hP : P T) :
    ∃ T', T.readd tmpColisions = .ok T' ∧ T'.Sound ∧ T'.size = T.size ∧ P T' := by
  induction tmpColisions generalizing T with
  | nil => exact ⟨T, rfl, hT, rfl, hP⟩
  | cons hi rest ih =>
      have hkey := hkeys hi List.mem_cons_self
      obtain ⟨T₁, code, hadd, hresult⟩ := hT.add_result hkey hi.value
      have hP₁ := hstep T hi T₁ code hT hP List.mem_cons_self hkey hmeets.1 hresult
      have hkeys₁ : ∀ item ∈ rest, Usable T₁.size item.key := by
        rw [hresult.size_eq]
        exact fun item hmem => hkeys item (List.mem_cons_of_mem _ hmem)
      obtain ⟨T₂, hreadd, hsound, hsize, hP₂⟩ := ih
        (fun T item T' code hT hP hmem =>
          hstep T item T' code hT hP (List.mem_cons_of_mem _ hmem))
        (hresult.sound hT hkey) hkeys₁ (hmeets.2 T₁ (readdStep_eq_some hadd)) hP₁
      refine ⟨T₂, ?_, hsound, hsize.trans hresult.size_eq, hP₂⟩
      rw [readd, hadd, Exec.ok_bind]
      exact hreadd

theorem Sound.increaseTable_cases {T : HashTable} (hT : T.Sound) :
    (maxCapacity ≤ 2 * T.size ∧ T.increaseTable = .ok (T, 1)) ∨
    ∃ T₁ tmpColisions T₂, 2 * T.size < maxCapacity ∧ T.rehash = .ok (T₁, tmpColisions) ∧
      T₁.readd tmpColisions = .ok T₂ ∧ T₂.Sound ∧ T₂.size = 2 * T.size ∧
      T.increaseTable = .ok (T₂, 0) := by
  rw [increaseTable]
  by_cases hlarge : maxCapacity ≤ 2 * T.size
  · exact .inl ⟨hlarge, if_pos hlarge⟩
  · have hsmall : 2 * T.size < maxCapacity := Nat.not_le.mp hlarge
    obtain ⟨T₁, tmp, hrehash, hspec⟩ := hT.rehash_spec hsmall joins_true fun _ _ => trivial
    obtain ⟨T₂, hreadd, hsound, hsize, _⟩ := Sound.readd_rule (P := fun _ => True)
      (fun _ _ _ _ _ _ _ _ _ _ => trivial) hspec.sound
      (fun hi hmem => (hspec.deferred hi hmem).1) (Machine.meets_label fun _ _ => trivial) trivial
    refine .inr ⟨T₁, tmp, T₂, hsmall, hrehash, hreadd, hsound, hsize.trans hspec.size, ?_⟩
    rw [if_neg hlarge, hrehash, Exec.ok_bind]
    dsimp only
    rw [hreadd]
    rfl

/-! ### Runs -/

/-- Every `add` of the step meets the guard: the call itself, or each of the calls that a growth
makes for its deferred entries. -/
def EachAdd (guard : HashTable → WString → List WString → Prop) (T : HashTable) : Op → Prop
  | .add key value => guard T key value
  | .increaseTable => ∀ T₁ tmpColisions, 2 * T.size < maxCapacity →
      T.rehash = .ok (T₁, tmpColisions) →
      Machine.Meets readdStep (fun T hi => guard T hi.key hi.value) T₁ tmpColisions

instance (guard : HashTable → WString → List WString → Prop)
    [∀ T key value, Decidable (guard T key value)] (T : HashTable) (op : Op) :
    Decidable (EachAdd guard T op) :=
  match op with
  | .add key value => inferInstanceAs (Decidable (guard T key value))
  | .increaseTable =>
      match h : T.rehash with
      | .error _ => isTrue fun T₁ tmp _ hrun => by simp [h] at hrun
      | .ok (T₁, tmp) =>
          decidable_of_iff (2 * T.size < maxCapacity →
            Machine.Meets readdStep (fun T hi => guard T hi.key hi.value) T₁ tmp) (by
              simp [EachAdd, h])

theorem eachAdd_true (T : HashTable) (op : Op) : EachAdd (fun _ _ _ => True) T op := by
  cases op with
  | add key value => exact trivial
  | increaseTable => exact fun _ _ _ _ => Machine.meets_label fun _ _ => trivial

/-- The rule for a growth: over collision entries with the property `Q`, what holds of the replaced
table and is kept by insertions with `Q` that meet the guard holds in the end. -/
theorem Sound.growth_rule {guard : HashTable → WString → List WString → Prop}
    {P : HashTable → Prop} {Q : WString → List WString → Prop} {T T' : HashTable} (hT : T.Sound)
    (hjoins : Joins Q) (hentries : ∀ entry ∈ T.colisions, Q entry.key entry.value)
    (hadd : ∀ T key value T' code, T.Sound → P T → Usable T.size key → Q key value →
      guard T key value → AddResult T key value T' code → P T')
    (hrehash : ∀ T₁ tmpColisions, 2 * T.size < maxCapacity → T.rehash = .ok (T₁, tmpColisions) →
      T.Rehashed Q T₁ tmpColisions → P T₁)
    (hguard : EachAdd guard T .increaseTable) (hgrow : T.increaseTable = .ok (T', 0)) :
    T'.Sound ∧ P T' := by
  rcases hT.increaseTable_cases with
    ⟨_, hsame⟩ | ⟨T₁, tmp, T₂, hsmall, hrun, hreadd, hsound, _, hnew⟩
  · rw [hsame] at hgrow
    cases hgrow
  · rw [hnew] at hgrow
    cases hgrow
    have hspec := hT.rehashed hsmall hrun hjoins hentries
    obtain ⟨T₃, hreadd', _, _, hP₃⟩ := Sound.readd_rule (P := P)
      (fun T hi T' code hT hP hmem hkey hguard hresult =>
        hadd T hi.key hi.value T' code hT hP hkey (hspec.deferred hi hmem).2.1 hguard hresult)
      hspec.sound (fun hi hmem => (hspec.deferred hi hmem).1) (hguard T₁ tmp hsmall hrun)
      (hrehash T₁ tmp hsmall hrun hspec)
    rw [hreadd] at hreadd'
    cases hreadd'
    exact ⟨hsound, hP₃⟩

theorem Sound.increaseTable_code {T T' : HashTable} {code : ℕ} (hT : T.Sound)
    (hgrow : T.increaseTable = .ok (T', code)) : code = 0 ∨ T' = T := by
  rcases hT.increaseTable_cases with ⟨_, hsame⟩ | ⟨_, _, _, _, _, _, _, _, hnew⟩
  · rw [hsame] at hgrow
    cases hgrow
    exact .inr rfl
  · rw [hnew] at hgrow
    cases hgrow
    exact .inl rfl

theorem Sound.step_add {T T' : HashTable} (hT : T.Sound) {key : WString} {value : List WString}
    (hstep : T.step (.add key value) = some T') :
    Usable T.size key ∧ ∃ code, AddResult T key value T' code := by
  rw [step] at hstep
  obtain ⟨⟨T₁, code⟩, hadd, hfirst⟩ := Option.map_eq_some_iff.mp hstep
  obtain ⟨hkey, hresult⟩ := hT.add_eq_ok (Exec.toOption_eq_some.mp hadd)
  cases hfirst
  exact ⟨hkey, code, hresult⟩

section step

variable {guard : HashTable → WString → List WString → Prop} {P : HashTable → Prop}
  (hadd : ∀ T key value T' code, T.Sound → P T → Usable T.size key → guard T key value →
    AddResult T key value T' code → P T')
  (hrehash : ∀ T T₁ tmpColisions, T.Sound → P T → 2 * T.size < maxCapacity →
    T.rehash = .ok (T₁, tmpColisions) → P T₁)
include hadd hrehash

theorem Sound.increaseTable_rule {T T' : HashTable} {code : ℕ} (hT : T.Sound) (hP : P T)
    (hguard : EachAdd guard T .increaseTable) (hgrow : T.increaseTable = .ok (T', code)) :
    T'.Sound ∧ P T' := by
  rcases hT.increaseTable_code hgrow with rfl | rfl
  · exact hT.growth_rule joins_true (fun _ _ => trivial)
      (fun T key value T' code hT hP hkey _ => hadd T key value T' code hT hP hkey)
      (fun T₁ tmp hsmall hrun _ => hrehash T T₁ tmp hT hP hsmall hrun) hguard hgrow
  · exact ⟨hT, hP⟩

/-- What an insertion and a replacement of the vectors preserve, a step preserves. -/
theorem Sound.step_rule {T T' : HashTable} {op : Op} (hT : T.Sound) (hP : P T)
    (hguard : EachAdd guard T op) (hstep : T.step op = some T') : T'.Sound ∧ P T' := by
  cases op with
  | add key value =>
      obtain ⟨hkey, code, hresult⟩ := hT.step_add hstep
      exact ⟨hresult.sound hT hkey, hadd T key value T' code hT hP hkey hguard hresult⟩
  | increaseTable =>
      rw [step] at hstep
      cases hgrow : T.increaseTable with
      | error fault =>
          rw [hgrow] at hstep
          cases hstep
      | ok result =>
          obtain ⟨T₁, code⟩ := result
          rw [hgrow] at hstep
          cases hstep
          exact Sound.increaseTable_rule hadd hrehash hT hP hguard hgrow

theorem Sound.run_rule {T T' : HashTable} {ops : List Op} (hT : T.Sound) (hP : P T)
    (hguard : Machine.Meets step (EachAdd guard) T ops)
    (hrun : Machine.run step T ops = some T') : T'.Sound ∧ P T' :=
  Machine.run_invariant_of_meets (fun T => T.Sound ∧ P T)
    (fun _ _ _ hT hguard hstep => Sound.step_rule hadd hrehash hT.1 hT.2 hguard hstep)
    ⟨hT, hP⟩ hguard hrun

end step

theorem run_sound {n : ℕ} (hn : 1 ≤ n) {ops : List Op} {T : HashTable}
    (hrun : Machine.run step (new n) ops = some T) : T.Sound := by
  have hall : Machine.Meets step (EachAdd fun _ _ _ => True) (new n) ops :=
    (Machine.meets_label fun _ _ => trivial).mono fun T op _ => eachAdd_true T op
  exact (Sound.run_rule (P := fun _ => True) (fun _ _ _ _ _ _ _ _ _ _ => trivial)
    (fun _ _ _ _ _ _ _ => trivial) (new_sound hn) trivial hall hrun).1

/-! ### Properties of every collision entry -/

/-- Every collision entry has the property `Q` of its key and values. -/
def Entries (Q : WString → List WString → Prop) (T : HashTable) : Prop :=
  ∀ entry ∈ T.colisions, Q entry.key entry.value

theorem entries_new (Q : WString → List WString → Prop) (n : ℕ) : (new n).Entries Q :=
  fun _ h => absurd h List.not_mem_nil

theorem AddResult.entries {T T' : HashTable} {key : WString} {value : List WString} {code : ℕ}
    (h : AddResult T key value T' code) {Q : WString → List WString → Prop} (hT : T.Entries Q)
    (hnew : Q key value) : T'.Entries Q := by
  intro entry hentry
  rcases h.entry_cases hentry with hold | rfl
  · exact hT entry hold
  · exact hnew

theorem Sound.eachAdd_of_entries {T : HashTable} (hT : T.Sound)
    {Q : WString → List WString → Prop} (hjoins : Joins Q) (hentries : T.Entries Q) :
    EachAdd (fun _ key value => Q key value) T .increaseTable := by
  intro T₁ tmpColisions hsmall hrun
  have hspec := hT.rehashed hsmall hrun hjoins hentries
  exact Machine.meets_label fun hi hmem => (hspec.deferred hi hmem).2.1

theorem Sound.rehash_entries {T T₁ : HashTable} {tmpColisions : List HashItem} (hT : T.Sound)
    (hsmall : 2 * T.size < maxCapacity) (hrun : T.rehash = .ok (T₁, tmpColisions))
    (Q : WString → List WString → Prop) : T₁.Entries Q := by
  have hspec := hT.rehashed hsmall hrun joins_true fun _ _ => trivial
  rw [Entries, hspec.colisions]
  exact fun _ h => absurd h List.not_mem_nil

theorem Sound.increaseTable_entries {T T' : HashTable} {code : ℕ} (hT : T.Sound)
    {Q : WString → List WString → Prop} (hjoins : Joins Q) (hentries : T.Entries Q)
    (hgrow : T.increaseTable = .ok (T', code)) : T'.Sound ∧ T'.Entries Q :=
  Sound.increaseTable_rule (P := Entries Q)
    (fun _ _ _ _ _ _ hold _ hnew hresult => hresult.entries hold hnew)
    (fun _ _ _ hT _ hsmall hrun => hT.rehash_entries hsmall hrun Q) hT hentries
    (hT.eachAdd_of_entries hjoins hentries) hgrow

theorem Sound.step_entries {T T' : HashTable} {op : Op} (hT : T.Sound)
    {Q : WString → List WString → Prop} (hentries : T.Entries Q)
    (hguard : EachAdd (fun _ key value => Q key value) T op) (hstep : T.step op = some T') :
    T'.Sound ∧ T'.Entries Q :=
  Sound.step_rule (P := Entries Q)
    (fun _ _ _ _ _ _ hold _ hnew hresult => hresult.entries hold hnew)
    (fun _ _ _ hT _ hsmall hrun => hT.rehash_entries hsmall hrun Q) hT hentries hguard hstep

/-! ### Properties of every key -/

/-- Every key with values, in a cell or in `colisions`, has the property `p`. -/
structure Keys (p : WString → Prop) (T : HashTable) : Prop where
  cell : ∀ (i : ℕ) (cell : HashItem), T.items[i]? = some cell → cell.value ≠ [] → p cell.key
  entries : T.Entries fun key _ => p key

theorem keys_new (p : WString → Prop) (n : ℕ) : (new n).Keys p where
  cell i cell h hvalue := absurd (by rw [new_getElem? h]) hvalue
  entries := entries_new _ n

theorem AddResult.keys {T T' : HashTable} {key : WString} {value : List WString} {code : ℕ}
    (h : AddResult T key value T' code) {p : WString → Prop} (hT : T.Keys p) (hkey : p key) :
    T'.Keys p := by
  refine ⟨?_, h.entries hT.entries hkey⟩
  intro m cell hcell hvalue
  rcases h.cell_cases hcell with hold | ⟨_, rfl⟩ | ⟨head, hhead, hheadValue, hsame, _⟩
  · exact hT.cell m cell hold hvalue
  · exact hkey
  · rw [hsame]
    exact hT.cell m head hhead hheadValue

theorem joins_keys (p : WString → Prop) : Joins fun key _ => p key := fun _ _ _ hkey _ => hkey

theorem Rehashed.keys {T T₁ : HashTable} {tmpColisions : List HashItem} {p : WString → Prop}
    (h : T.Rehashed (fun key _ => p key) T₁ tmpColisions) : T₁.Keys p where
  cell i cell hcell hvalue := (h.cell_entry i cell hcell hvalue).2
  entries := by
    rw [Entries, h.colisions]
    exact fun _ h => absurd h List.not_mem_nil

theorem Sound.increaseTable_keys {T T' : HashTable} (hT : T.Sound) {p : WString → Prop}
    (hentries : T.Entries fun key _ => p key) (hgrow : T.increaseTable = .ok (T', 0)) :
    T'.Keys p :=
  (hT.growth_rule (joins_keys p) hentries
    (fun _ _ _ _ _ _ hold _ hnew _ hresult => hresult.keys hold hnew)
    (fun _ _ _ _ hspec => hspec.keys) (eachAdd_true T .increaseTable) hgrow).2

theorem run_keys {n : ℕ} (hn : 1 ≤ n) {p : WString → Prop} {ops : List Op}
    (hops : ∀ op ∈ ops, op.Keyed p) {T : HashTable}
    (hrun : Machine.run step (new n) ops = some T) : T.Keys p := by
  have hstep : ∀ T op T', T.Sound ∧ T.Keys p → op.Keyed p → step T op = some T' →
      T'.Sound ∧ T'.Keys p := by
    intro T op T' hT hop hstep
    obtain ⟨hsound, hkeys⟩ := hT
    have hguard : EachAdd (fun _ key _ => p key) T op := by
      cases op with
      | add key value => exact hop
      | increaseTable => exact hsound.eachAdd_of_entries (joins_keys p) hkeys.entries
    refine Sound.step_rule (P := Keys p)
      (fun _ _ _ _ _ _ hold _ hnew hresult => hresult.keys hold hnew)
      (fun _ _ _ hT hold hsmall hrun => ?_) hsound hkeys hguard hstep
    exact (hT.rehashed hsmall hrun (joins_keys p) hold.entries).keys
  exact (Machine.run_invariant_of_meets (fun T => T.Sound ∧ T.Keys p) hstep
    ⟨new_sound hn, keys_new p n⟩ (Machine.meets_label hops) hrun).2

theorem Reachable.sound {T : HashTable} (hT : T.Reachable) : T.Sound := by
  obtain ⟨n, ops, hn, _, hrun⟩ := hT
  exact run_sound hn hrun

theorem Reachable.keys {T : HashTable} (hT : T.Reachable) : T.Keys Admissible := by
  obtain ⟨n, ops, hn, hops, hrun⟩ := hT
  exact run_keys hn hops hrun

end HashTable

end IndexServer
