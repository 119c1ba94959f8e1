import IndexServer.HashTable.HashRange
import IndexServer.InvertedIndex.Journal
import IndexServer.Section.ReadBack

/-!
# The index does not fail

Calls on the tables fail for a key without a cell, and the file of a section is not finished for a
key that is no number. The keys of the table are ids, and no id of ten digits or fewer has a hash
that overflows. So whatever the queries are, and in whichever order the handlers run, a call on the
index returns if its words have cells and the ids have not run out.
-/

namespace IndexServer

open HashTable

/-! ### Ids have cells -/

namespace HashTable

/-- Every digit multiplies the number of a key by 33 at most, up to a constant. -/
theorem weight_digits_lt {key : WString} (hkey : ∀ u ∈ key, u.toNat ≤ 57) :
    weight key + 2 ≤ 5383 * 33 ^ key.length := by
  induction key using List.reverseRecOn with
  | nil => decide
  | append_singleton key u ih =>
      have hfront := ih fun v hv => hkey v (List.mem_append_left _ hv)
      have hlast := hkey u (List.mem_append_right _ List.mem_cons_self)
      rw [weight_concat, List.length_append, List.length_singleton, pow_succ]
      omega

/-- An id of ten digits or fewer has a cell in every table. -/
theorem admissible_toWString {m : ℕ} (hm : m < 10 ^ 10) : Admissible (toWString m) := by
  have hdigits : ∀ u ∈ toWString m, u.toNat ≤ 57 := fun u hu =>
    (isDigit_iff.mp (isDigit_of_mem_codes (List.mem_map_of_mem hu))).2
  have hlength : (toWString m).length ≤ 10 := by
    have hcodes := congrArg List.length (codes_toWString m)
    rw [List.length_map, List.length_map] at hcodes
    rw [hcodes]
    exact Nat.toDigits_length 10 m 10 (by decide) hm
  have hweight := weight_digits_lt hdigits
  have hpow : 33 ^ (toWString m).length ≤ 33 ^ 10 := Nat.pow_le_pow_right (by decide) hlength
  have hsmall : weight (toWString m) < 2 ^ 63 := by omega
  rw [admissible_iff, Nat.mod_eq_of_lt (by omega)]
  omega

/-! ### Growths keep the keys in a table -/

theorem Sound.rehash_stored {T T₁ : HashTable} {p : WString → Prop} (hT : T.Sound) (hnil : p [])
    (hkeys : ∀ item ∈ T.stored, p item.key) (hsmall : 2 * T.size < maxCapacity)
    {tmpColisions : List HashItem} (hrun : T.rehash = .ok (T₁, tmpColisions)) :
    ∀ item ∈ T₁.stored, p item.key := by
  have hpos : 0 < 2 * T.size := Nat.mul_pos Nat.two_pos hT.size_pos
  have husable : ∀ key, Usable T.size key → Usable (2 * T.size) key :=
    fun key hkey => hkey.double hsmall
  have hspec := hT.rehashed hsmall hrun joins_true fun _ _ => trivial
  have hplace : ∀ (g : Growth) (item : HashItem) (g' : Growth),
      (∀ cell ∈ g.newItemsVector, p cell.key) → p item.key →
      PlaceResult g (2 * T.size) item g' → ∀ cell ∈ g'.newItemsVector, p cell.key := by
    intro g item g' hg hitem hresult cell hcell
    cases hresult with
    | deferred => exact hg cell hcell
    | @merged old hold =>
        rcases List.mem_or_eq_of_mem_set hcell with hmem | rfl
        · exact hg cell hmem
        · exact hg old (List.mem_of_getElem? hold)
    | put =>
        rcases List.mem_or_eq_of_mem_set hcell with hmem | rfl
        · exact hg cell hmem
        · exact hitem
  have hindices : ∀ i ∈ List.range T.size, i < T.items.length := by
    intro i hi
    rw [hT.items_length]
    exact List.mem_range.mp hi
  have hfresh : ∀ cell ∈ (⟨createNewVector (2 * T.size), []⟩ : Growth).newItemsVector,
      p cell.key := by
    intro cell hcell
    rw [List.eq_of_mem_replicate hcell]
    exact hnil
  obtain ⟨g, hgrow, hlength, hg⟩ := growItems_rule hT hpos husable
    (P := fun g => ∀ cell ∈ g.newItemsVector, p cell.key)
    (fun g item g' hg _ hmem _ hresult =>
      hplace g item g' hg (hkeys item (List.mem_append_left _ hmem)) hresult)
    hindices (List.length_replicate : (createNewVector (2 * T.size)).length = 2 * T.size) hfresh
  obtain ⟨g', hcolisions, _, hg'⟩ := growColisions_rule hT hpos husable
    (P := fun g => ∀ cell ∈ g.newItemsVector, p cell.key)
    (fun g item g' hg _ hmem hresult =>
      hplace g { item with next := -1 } g' hg (hkeys item (List.mem_append_right _ hmem)) hresult)
    (fun i hi => List.mem_range.mp hi) hlength hg
  simp only [rehash, hgrow, hcolisions, Exec.ok_bind] at hrun
  rw [if_neg (not_not_intro hT.idle)] at hrun
  cases hrun
  intro item hitem
  rw [stored, hspec.colisions, List.append_nil] at hitem
  exact hg' item hitem

theorem Sound.increaseTable_stored {T T' : HashTable} {p : WString → Prop} {code : ℕ}
    (hT : T.Sound) (hnil : p []) (hkeys : ∀ item ∈ T.stored, p item.key)
    (hgrow : T.increaseTable = .ok (T', code)) : ∀ item ∈ T'.stored, p item.key := by
  rcases hT.increaseTable_code hgrow with rfl | rfl
  · exact (hT.growth_rule (Q := fun key _ => p key) (P := fun T => ∀ item ∈ T.stored, p item.key)
      (joins_keys p) (fun entry hentry => hkeys entry (List.mem_append_right _ hentry))
      (fun _ _ _ _ _ _ hold _ hnew _ hresult =>
        hresult.stored_items hold hnew fun _ _ hhead _ hsame => hsame ▸ hhead)
      (fun _ _ hsmall hrun _ => hT.rehash_stored hnil hkeys hsmall hrun)
      (eachAdd_true T .increaseTable) hgrow).2
  · exact hkeys

end HashTable

/-! ### One call -/

/-- The string is the text of a number below `n`. -/
def Made (n : ℕ) (id : WString) : Prop := ∃ m < n, id = toWString m

theorem Made.mono {n n' : ℕ} {id : WString} (h : Made n id) (hle : n ≤ n') : Made n' id := by
  obtain ⟨m, hm, hid⟩ := h
  exact ⟨m, lt_of_lt_of_le hm hle, hid⟩

namespace InvertedIndex

/-- Every id in the dictionary and every key in the table was made from the counter. -/
structure Able (s : InvertedIndex) : Prop where
  dictionary : s.dictionary.Sound
  ids : s.dictionary.Within fun _ id => Made s.dictIdCounter id
  table : s.table.Sound
  keys : ∀ item ∈ s.table.stored, item.key = [] ∨ Made s.dictIdCounter item.key

variable {s s' : InvertedIndex} {word id : WString} {sources wordList : List WString}

theorem new_keys {n size : ℕ} : ∀ item ∈ (HashTable.new size).stored,
    item.key = [] ∨ Made n item.key := by
  intro item hitem
  rw [eq_of_mem_stored_new hitem]
  exact .inl rfl

theorem able_new : new.Able where
  dictionary := new_sound (by decide)
  ids := new_within _ _
  table := new_sound (by decide)
  keys := new_keys

namespace Able

theorem push (h : s.Able) (e : Exception) : (s.push e).Able :=
  ⟨h.dictionary, h.ids, h.table, h.keys⟩

theorem dropTable (h : s.Able) :
    ({ s with table := HashTable.new startSize } : InvertedIndex).Able :=
  ⟨h.dictionary, h.ids, new_sound (by decide), new_keys⟩

theorem clear (_ : s.Able) : s.clear.Able :=
  ⟨new_sound (by decide), new_within _ _, new_sound (by decide), new_keys⟩

theorem wordId {found : Option WString} (h : s.Able) (hrun : s.wordId word = .ok (s', found)) :
    s'.Able ∧ s'.dictIdCounter ≤ s.dictIdCounter + 1 ∧
      ∀ id, found = some id → Made s'.dictIdCounter id := by
  rcases Journal.wordId_outcomes h.dictionary hrun with
    ⟨old, rest, hlookup, rfl, rfl⟩ | ⟨husable, _, dictionary', hresult, rfl, rfl⟩ | ⟨⟨e, rfl⟩, rfl⟩
  · refine ⟨h, Nat.le_succ _, ?_⟩
    rintro id ⟨⟩
    exact h.dictionary.lookup_within h.ids (hlookup ▸ List.mem_cons_self)
  · have hmade : Made (s.dictIdCounter + 1) (toWString s.dictIdCounter) :=
      ⟨s.dictIdCounter, Nat.lt_succ_self _, rfl⟩
    refine ⟨⟨hresult.sound h.dictionary husable, ?_, h.table, ?_⟩, le_rfl, ?_⟩
    · refine hresult.within_of_moved (h.ids.mono fun _ _ hid => hid.mono (Nat.le_succ _)) ?_
        fun _ _ _ hid => hid
      intro id hid
      rw [List.mem_singleton.mp hid]
      exact hmade
    · exact fun item hitem => (h.keys item hitem).imp_right fun hkey => hkey.mono (Nat.le_succ _)
    · rintro id ⟨⟩
      exact hmade
  · refine ⟨h.push e, Nat.le_succ _, ?_⟩
    rintro id ⟨⟩

theorem tableAdd {code : ℕ} (h : s.Able) (hid : Made s.dictIdCounter id)
    (hrun : s.tableAdd id sources = .ok (s', code)) :
    s'.Able ∧ s'.dictIdCounter = s.dictIdCounter := by
  rw [InvertedIndex.tableAdd, Exec.bind_eq_ok] at hrun
  obtain ⟨⟨table, code'⟩, hadd, hrun⟩ := hrun
  cases hrun
  obtain ⟨husable, hresult⟩ := h.table.add_eq_ok hadd
  refine ⟨⟨h.dictionary, h.ids, hresult.sound h.table husable, ?_⟩, rfl⟩
  exact hresult.stored_items h.keys (.inr hid) fun _ _ hhead _ hsame => hsame ▸ hhead

theorem exists_wordId (h : s.Able) (hword : Admissible word) : ∃ r, s.wordId word = .ok r := by
  have hget : s.dictionary.get word = .ok (s.dictionary.lookup word) :=
    h.dictionary.get_eq (.inl hword)
  rw [InvertedIndex.wordId, hget, Exec.ok_bind]
  cases hlookup : s.dictionary.lookup word with
  | nil =>
      obtain ⟨dictionary', code, hadd, _⟩ :=
        h.dictionary.add_result (.inl hword) [toWString s.dictIdCounter]
      rw [if_pos (by rfl)]
      dsimp only
      rw [dictionaryAdd_eq hadd, Exec.ok_bind]
      cases dictionaryException code with
      | none => exact ⟨_, rfl⟩
      | some e => exact ⟨_, rfl⟩
  | cons found rest =>
      rw [if_neg (by simp)]
      exact ⟨_, rfl⟩

theorem exists_tableAdd (h : s.Able) (hid : Admissible id) (sources : List WString) :
    ∃ r, s.tableAdd id sources = .ok r := by
  obtain ⟨table, code, hadd, _⟩ := h.table.add_result (.inl hid) sources
  rw [InvertedIndex.tableAdd, hadd]
  exact ⟨_, rfl⟩

theorem addWords (h : s.Able) (sources : List WString) (hwords : ∀ word ∈ wordList, Admissible word)
    (hids : s.dictIdCounter + wordList.length ≤ 10 ^ 10) :
    ∃ s', addWords sources wordList s = .ok s' ∧ s'.Able ∧
      s'.dictIdCounter ≤ s.dictIdCounter + wordList.length := by
  induction wordList generalizing s with
  | nil => exact ⟨s, rfl, h, le_rfl⟩
  | cons word rest ih =>
      rw [List.length_cons] at hids
      obtain ⟨⟨s₁, found⟩, hword⟩ := h.exists_wordId (hwords word List.mem_cons_self)
      obtain ⟨h₁, hcounter, hmade⟩ := h.wordId hword
      rw [InvertedIndex.addWords, hword, Exec.ok_bind, List.length_cons]
      cases found with
      | none => exact ⟨s₁, rfl, h₁, by omega⟩
      | some id =>
          obtain ⟨m, hm, hid⟩ := hmade id rfl
          have hcell : Admissible id := hid ▸ admissible_toWString (by omega)
          obtain ⟨⟨s₂, code⟩, htable⟩ := h₁.exists_tableAdd hcell sources
          obtain ⟨h₂, hsame⟩ := h₁.tableAdd ⟨m, hm, hid⟩ htable
          dsimp only
          rw [htable, Exec.ok_bind]
          cases tableException code with
          | some e =>
              have hle : (s₂.push e).dictIdCounter ≤ s.dictIdCounter + (rest.length + 1) := by
                rw [InvertedIndex.push, hsame]
                omega
              exact ⟨s₂.push e, rfl, h₂.push e, hle⟩
          | none =>
              obtain ⟨s₃, hrun, h₃, hle⟩ := ih h₂
                (fun w hw => hwords w (List.mem_cons_of_mem _ hw)) (by omega)
              exact ⟨s₃, hrun, h₃, by omega⟩

theorem growTable {table : HashTable} {code : ℕ} (h : s.Able)
    (hgrow : s.table.increaseTable = .ok (table, code)) :
    ({ s with table } : InvertedIndex).Able where
  dictionary := h.dictionary
  ids := h.ids
  table := (h.table.increaseTable_entries joins_true (fun _ _ => trivial) hgrow).1
  keys := h.table.increaseTable_stored (p := fun key => key = [] ∨ Made s.dictIdCounter key)
    (.inl rfl) h.keys hgrow

theorem growDictionary {dictionary : HashTable} {code : ℕ} (h : s.Able)
    (hgrow : s.dictionary.increaseTable = .ok (dictionary, code)) :
    ({ s with dictionary } : InvertedIndex).Able where
  dictionary := (h.dictionary.increaseTable_entries joins_true (fun _ _ => trivial) hgrow).1
  ids := h.dictionary.increaseTable_values h.ids hgrow
  table := h.table
  keys := h.keys

theorem exists_handle (h : s.Able) (e : Exception) (stored : ℕ) :
    ∃ s', s.handle stored e = .ok s' ∧ s'.dictIdCounter = s.dictIdCounter := by
  have hgrows : ∀ T : HashTable, T.Sound → ∃ T' code, T.increaseTable = .ok (T', code) := by
    intro T hT
    rcases hT.increaseTable_cases with ⟨_, hsame⟩ | ⟨_, _, T', _, _, _, _, _, hnew⟩
    · exact ⟨T, 1, hsame⟩
    · exact ⟨T', 0, hnew⟩
  cases e with
  | ok | maxMemory => exact ⟨s, rfl, rfl⟩
  | fullTable =>
      obtain ⟨table, code, hgrow⟩ := hgrows s.table h.table
      refine ⟨_, by rw [InvertedIndex.handle, hgrow]; rfl, ?_⟩
      split <;> rfl
  | fullDict =>
      obtain ⟨dictionary, code, hgrow⟩ := hgrows s.dictionary h.dictionary
      refine ⟨_, by rw [InvertedIndex.handle, hgrow]; rfl, ?_⟩
      split <;> rfl
  | maxTable =>
      refine ⟨_, rfl, ?_⟩
      dsimp only
      split <;> rfl
  | maxDict => exact ⟨_, rfl, rfl⟩

theorem handle {e : Exception} {stored : ℕ} (h : s.Able) (hrun : s.handle stored e = .ok s') :
    s'.Able :=
  handle_rule Able (fun _ e hs => hs.push e) (fun _ _ _ hgrow => h.growTable hgrow)
    (fun _ _ _ hgrow => h.growDictionary hgrow) h.dropTable h.clear h hrun

theorem exists_get {load : WString → WString → Exec (List WString)} {fm : FileManager}
    (h : s.Able) (hids : s.dictIdCounter ≤ 10 ^ 10)
    (hsections : ∀ si ∈ fm.getSections, find si.name sectionType 0 = none)
    (hword : Admissible word) : ∃ found, s.get load fm word = .ok found := by
  have hget : s.dictionary.get word = .ok (s.dictionary.lookup word) :=
    h.dictionary.get_eq (.inl hword)
  rw [InvertedIndex.get, hget, Exec.ok_bind]
  cases hlookup : s.dictionary.lookup word with
  | nil => exact ⟨[], rfl⟩
  | cons id rest =>
      obtain ⟨m, hm, hid⟩ := h.dictionary.lookup_within h.ids (hlookup ▸ List.mem_cons_self)
      have hgetId : s.table.get id = .ok (s.table.lookup id) :=
        h.table.get_eq (.inl (hid ▸ admissible_toWString (by omega)))
      have hfirst : vectorGet (id :: rest) 0 = .ok id := rfl
      rw [if_neg (by simp), hfirst, Exec.ok_bind, hgetId, Exec.ok_bind]
      exact ⟨_, Journal.loadSections_of_none hsections _⟩

theorem saveTable (h : s.Able) (hids : s.dictIdCounter ≤ 2 ^ 63) :
    s.table.saveTable = .ok s.table.saved := by
  apply h.table.saveTable_eq
  intro item hitem
  apply Spelled.legal
  rcases h.keys item hitem with hnil | ⟨m, hm, hkey⟩
  · exact .inl hnil
  · exact .inr ⟨m, lt_of_lt_of_le hm hids, hkey⟩

end Able

/-! ### Runs -/

/-- Every word that the operation adds has a cell. -/
def Op.Admits : Op → Prop
  | .add queue _ => ∀ word ∈ History.words queue, Admissible word
  | _ => True

def Op.wordCount : Op → ℕ
  | .add queue _ => (History.words queue).length
  | _ => 0

/-- One operation returns, and makes one id for each of its words at most. -/
theorem Able.step (h : s.Able) {op : Op} (hop : op.Admits)
    (hids : s.dictIdCounter + op.wordCount ≤ 10 ^ 10) :
    ∃ s', step s op = some s' ∧ s'.Able ∧ s'.dictIdCounter ≤ s.dictIdCounter + op.wordCount := by
  cases op with
  | add queue sources =>
      obtain ⟨wordList, hsplit, _⟩ := exists_split queue (List.cons_ne_nil (32 : WChar) [])
      have hwords : History.words queue = wordList := by rw [History.words, hsplit]; rfl
      rw [Op.Admits, hwords] at hop
      rw [Op.wordCount, hwords] at hids ⊢
      obtain ⟨s', hrun, hable, hcounter⟩ := h.addWords sources hop hids
      refine ⟨s', ?_, hable, hcounter⟩
      rw [InvertedIndex.step, add, hsplit, Exec.ok_bind, hrun]
      rfl
  | handle e stored =>
      obtain ⟨s', hrun, hcounter⟩ := h.exists_handle e stored
      refine ⟨s', ?_, h.handle hrun, hcounter.le⟩
      rw [InvertedIndex.step, hrun]
      rfl
  | clear => exact ⟨s.clear, rfl, h.clear, le_rfl⟩

/-- Whatever the queries and the exceptions, the index returns from every call and finishes the file
of its table, and while no section is listed it finds every word a list, as long as the words have
cells and are not too many. -/
theorem run_returns {ops : List Op} (hops : ∀ op ∈ ops, op.Admits)
    (hcount : (ops.map Op.wordCount).sum < 10 ^ 10) :
    ∃ s, Machine.run step new ops = some s ∧ s.table.saveTable = .ok s.table.saved ∧
      ∀ load fm word, (∀ si ∈ fm.getSections, find si.name sectionType 0 = none) →
        Admissible word → ∃ found, s.get load fm word = .ok found := by
  obtain ⟨s, hrun, hable, _, hids⟩ := Machine.exists_run
    (fun ops s => s.Able ∧ (∀ op ∈ ops, op.Admits) ∧
      s.dictIdCounter + (ops.map Op.wordCount).sum ≤ 10 ^ 10)
    (by
      rintro op rest s ⟨hable, hops, hids⟩
      rw [List.map_cons, List.sum_cons] at hids
      obtain ⟨s', hstep, hable', hcounter⟩ := hable.step (hops op List.mem_cons_self) (by omega)
      exact ⟨s', hstep, hable', fun o ho => hops o (List.mem_cons_of_mem _ ho), by omega⟩)
    (s := new) ⟨able_new, hops, by rw [show new.dictIdCounter = 1 from rfl]; omega⟩
  have hids : s.dictIdCounter ≤ 10 ^ 10 := by simpa using hids
  refine ⟨s, hrun, hable.saveTable (by omega), ?_⟩
  exact fun load fm word hsections hword => hable.exists_get hids hsections hword

/-- The dictionary is dropped while the table keeps what lies under the old ids. -/
def dropped : List Op :=
  [.add [97, 32, 98] [[115]], .handle .maxDict 0, .add [98] [[116]], .handle .fullTable 0]

theorem dropped_returns : ∃ s, Machine.run step new dropped = some s ∧
    s.table.saveTable = .ok s.table.saved ∧ ∃ found, s.get noValue noSections [98] = .ok found := by
  have hops : ∀ op ∈ dropped, op.Admits := by
    simp only [dropped, List.forall_mem_cons]
    exact ⟨by unfold Op.Admits; decide, trivial, by unfold Op.Admits; decide, trivial,
      List.forall_mem_nil _⟩
  obtain ⟨s, hrun, hsave, hget⟩ := run_returns hops (by decide)
  exact ⟨s, hrun, hsave, hget noValue noSections [98] (List.forall_mem_nil _) (by decide)⟩

end InvertedIndex

end IndexServer
