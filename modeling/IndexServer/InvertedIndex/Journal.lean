import IndexServer.HashTable.Regrowth
import IndexServer.InvertedIndex.Ids
import IndexServer.Server.Console
import IndexServer.Storage.History

/-!
# The index as a journal

What the index is for: it returns for a word what was passed with the word. The journal is the list
of the insertions that `add` has made, less those of the words that a handler forgets. A growth
forgets the keys at the heads of cells, a table that is saved or cleared forgets everything. As long
as insertions find their slots open, a lookup returns what the journal has for its word, no more, no
less, and in that order.
-/

namespace IndexServer

open HashTable

structure Journal where
  index : InvertedIndex
  insertions : List Insertion

namespace Journal

def start : Journal := ⟨InvertedIndex.new, []⟩

def Grows (T : HashTable) : Prop := 2 * T.size < maxCapacity

instance (T : HashTable) : Decidable (Grows T) := inferInstanceAs (Decidable (_ < _))

/-- What the index has under a word. -/
def postings (s : InvertedIndex) (word : WString) : List WString :=
  match s.dictionary.lookup word with
  | [] => []
  | id :: _ => s.table.lookup id

/-- A growth of the table finds the id of the word at the head of a cell. -/
def Loses (s : InvertedIndex) (word : WString) : Prop :=
  match s.dictionary.lookup word with
  | [] => False
  | id :: _ => s.table.Fronts id

instance (s : InvertedIndex) (word : WString) : Decidable (Loses s word) := by
  unfold Loses
  split <;> infer_instance

/-- The handler of the exception does not forget the word. -/
def keeps (s : InvertedIndex) (e : Exception) (word : WString) : Bool :=
  match e with
  | .ok | .maxMemory => true
  | .fullTable => decide (Grows s.table → ¬ Loses s word)
  | .fullDict => decide (Grows s.dictionary → ¬ s.dictionary.Fronts word)
  | .maxTable | .maxDict => false

def step (s : Journal) : InvertedIndex.Op → Option Journal
  | .add queue sources =>
      (s.index.addLogged queue sources).toOption.map fun r => ⟨r.1, s.insertions ++ r.2⟩
  | .handle e currentStoringCapacity =>
      (s.index.handle currentStoringCapacity e).toOption.map fun index =>
        ⟨index, s.insertions.filter fun i => keeps s.index e i.word⟩
  | .clear => some ⟨s.index.clear, []⟩

/-- The journal is written beside the steps of the index. -/
theorem map_index_step (j : Journal) (op : InvertedIndex.Op) :
    (j.step op).map Journal.index = InvertedIndex.step j.index op := by
  cases op with
  | add queue sources =>
      rw [step, InvertedIndex.step, ← InvertedIndex.map_fst_addLogged]
      cases j.index.addLogged queue sources <;> rfl
  | handle e stored =>
      rw [step, InvertedIndex.step, Option.map_map]
      cases j.index.handle stored e <;> rfl
  | clear => rfl

/-! ### What the journal has for a word -/

theorem passedTo_concat (log : List Insertion) (word : WString) (i : Insertion) :
    passedTo word (log ++ [i]) =
      passedTo word log ++ if i.word = word ∧ i.accepted then i.sources else [] := by
  rw [passedTo_append]
  congr 1
  by_cases hword : i.word = word
  · cases haccepted : i.accepted with
    | true => simp [passedTo, hword, haccepted]
    | false => simp [passedTo, haccepted]
  · simp [passedTo, hword]

theorem passedTo_filter (p : WString → Bool) (log : List Insertion) (word : WString) :
    passedTo word (log.filter fun i => p i.word) = if p word then passedTo word log else [] := by
  rw [passedTo, List.filter_filter]
  split
  · next hp =>
      rw [passedTo]
      congr 1
      apply List.filter_congr
      intro i _
      by_cases hword : i.word = word
      · rw [hword, hp, Bool.and_true]
      · simp [hword]
  · next hp =>
      rw [List.filter_eq_nil_iff.mpr]
      · rfl
      · intro i _
        by_cases hword : i.word = word
        · simp [hword, hp]
        · simp [hword]

/-! ### The invariant -/

/-- The index has under every word what the journal has, and nothing under the ids to come. -/
structure Tells (s : InvertedIndex) (log : List Insertion) : Prop where
  named : ∃ R, Named R s.dictionary s.dictIdCounter
  dictionary_settled : s.dictionary.Settled
  table_sound : s.table.Sound
  table_settled : s.table.Settled
  table_size : 5 ∣ s.table.size
  fresh : ∀ m, s.dictIdCounter ≤ m → s.table.lookup (toWString m) = []
  postings_eq : ∀ word, postings s word = passedTo word log

/-- The ids given so far have cells. -/
def Given (s : InvertedIndex) : Prop := ∀ m < s.dictIdCounter, Admissible (toWString m)

theorem new_lookup (n : ℕ) (key : WString) : (HashTable.new n).lookup key = [] := by
  have hvacant : (HashTable.new n).slot (home n key) = .vacant := by
    cases hcell : (HashTable.new n).items[home n key]? with
    | none => rw [slot, hcell]
    | some cell => exact slot_eq_vacant hcell (by rw [new_getElem? hcell])
  change ((HashTable.new n).slot (home n key)).find key = []
  rw [hvacant]
  rfl

theorem postings_of_nil {s : InvertedIndex} {word : WString}
    (hword : s.dictionary.lookup word = []) : postings s word = [] := by
  rw [postings, hword]

theorem postings_of_lookup {s : InvertedIndex} {word id : WString} {rest : List WString}
    (hword : s.dictionary.lookup word = id :: rest) : postings s word = s.table.lookup id := by
  rw [postings, hword]

theorem postings_congr {s s' : InvertedIndex} {word : WString}
    (hdictionary : s'.dictionary.lookup word = s.dictionary.lookup word)
    (htable : ∀ id rest, s.dictionary.lookup word = id :: rest →
      s'.table.lookup id = s.table.lookup id) : postings s' word = postings s word := by
  rw [postings, postings, hdictionary]
  cases hlookup : s.dictionary.lookup word with
  | nil => rfl
  | cons id rest => exact htable id rest hlookup

theorem wordId_outcomes {s s' : InvertedIndex} (hs : s.dictionary.Sound) {word : WString}
    {id : Option WString} (hrun : s.wordId word = .ok (s', id)) :
    (∃ found rest, s.dictionary.lookup word = found :: rest ∧ s' = s ∧ id = some found) ∨
    (Usable s.dictionary.size word ∧ s.dictionary.lookup word = [] ∧
      ∃ dictionary', AddResult s.dictionary word [toWString s.dictIdCounter] dictionary' 0 ∧
        s' = { s with dictionary := dictionary' }.countId ∧
          id = some (toWString s.dictIdCounter)) ∨
    ((∃ e, s' = s.push e) ∧ id = none) := by
  by_cases husable : Usable s.dictionary.size word
  · have hget : s.dictionary.get word = .ok (s.dictionary.lookup word) := hs.get_eq husable
    rw [InvertedIndex.wordId, hget, Exec.ok_bind] at hrun
    cases hfound : s.dictionary.lookup word with
    | nil =>
        obtain ⟨dictionary', code, hadd, hresult⟩ :=
          hs.add_result husable [toWString s.dictIdCounter]
        rw [hfound, if_pos (by rfl)] at hrun
        dsimp only at hrun
        rw [InvertedIndex.dictionaryAdd_eq hadd, Exec.ok_bind] at hrun
        rcases InvertedIndex.dictionaryException_cases hresult with
          ⟨rfl, hnone⟩ | ⟨hcode, e, hsome⟩
        · simp only [hnone] at hrun
          cases hrun
          exact .inr (.inl ⟨husable, rfl, dictionary', hresult, rfl, rfl⟩)
        · simp only [hsome] at hrun
          cases hrun
          rw [hresult.eq_of_code_ne hcode]
          exact .inr (.inr ⟨⟨e, rfl⟩, rfl⟩)
    | cons found rest =>
        rw [hfound, if_neg (by simp)] at hrun
        cases hrun
        exact .inl ⟨found, rest, rfl, rfl, rfl⟩
  · rw [InvertedIndex.wordId, get_of_not_usable husable] at hrun
    cases hrun

/-- A table with a multiple of five cells has none for the one key whose hash stays negative. -/
theorem admissible_of_usable {size : ℕ} {key : WString} (hsize : 5 ∣ size)
    (hkey : Usable size key) : Admissible key := by
  refine hkey.resolve_right fun hdvd => ?_
  exact absurd (hsize.trans hdvd) (by decide)

namespace Tells

variable {s s' : InvertedIndex} {log : List Insertion}

theorem push (h : Tells s log) (e : Exception) : Tells (s.push e) log :=
  ⟨h.named, h.dictionary_settled, h.table_sound, h.table_settled, h.table_size, h.fresh,
    h.postings_eq⟩

theorem empty {n : ℕ} {queue : List Exception} {dictionary : HashTable}
    (hnamed : ∃ R, Named R dictionary n) (hsettled : dictionary.Settled) :
    Tells ⟨n, HashTable.new InvertedIndex.startSize, dictionary, queue⟩ [] where
  named := hnamed
  dictionary_settled := hsettled
  table_sound := new_sound (by decide)
  table_settled := new_settled _
  table_size := (by decide : 5 ∣ 20)
  fresh m _ := new_lookup _ _
  postings_eq word := by
    rw [postings]
    split
    · rfl
    · exact new_lookup _ _

/-- A word has at most one id in a table, and no other word has it. -/
theorem id_ne (h : Tells s log) {word word' id id' : WString} {rest rest' : List WString}
    (hword : s.dictionary.lookup word = id :: rest)
    (hword' : s.dictionary.lookup word' = id' :: rest') (hne : word' ≠ word) : id' ≠ id := by
  obtain ⟨R, hnamed⟩ := h.named
  have hR : R word id :=
    hnamed.sound.lookup_within hnamed.within (hword ▸ List.mem_cons_self)
  have hR' : R word' id' :=
    hnamed.sound.lookup_within hnamed.within (hword' ▸ List.mem_cons_self)
  rintro rfl
  exact hne (hnamed.unique hR' hR)

theorem id_eq (h : Tells s log) {word id : WString} {rest : List WString}
    (hword : s.dictionary.lookup word = id :: rest) :
    ∃ m < s.dictIdCounter, id = toWString m := by
  obtain ⟨R, hnamed⟩ := h.named
  exact hnamed.bound word id
    (hnamed.sound.lookup_within hnamed.within (hword ▸ List.mem_cons_self))

/-! ### Insertion -/

theorem refuse (h : Tells s log) (word : WString) (sources : List WString) :
    Tells s (log ++ [⟨word, sources, false⟩]) where
  named := h.named
  dictionary_settled := h.dictionary_settled
  table_sound := h.table_sound
  table_settled := h.table_settled
  table_size := h.table_size
  fresh := h.fresh
  postings_eq word' := by
    rw [passedTo_concat, h.postings_eq]
    simp

theorem wordId (h : Tells s log) {word : WString} {id : Option WString}
    (hguard : s.dictionary.lookup word = [] →
      s.dictionary.Harmless word [toWString s.dictIdCounter])
    (hrun : s.wordId word = .ok (s', id)) :
    Tells s' log ∧ (∀ m < s'.dictIdCounter, m < s.dictIdCounter ∨ id = some (toWString m)) ∧
      ∀ i, id = some i → ∃ rest, s'.dictionary.lookup word = i :: rest := by
  obtain ⟨R, hnamed⟩ := h.named
  rcases wordId_outcomes hnamed.sound hrun with
    ⟨found, rest, hfound, rfl, rfl⟩ |
    ⟨husable, hempty, dictionary', hresult, rfl, rfl⟩ | ⟨⟨e, rfl⟩, rfl⟩
  · refine ⟨h, fun m hm => .inl hm, ?_⟩
    rintro i ⟨⟩
    exact ⟨rest, hfound⟩
  · have hharmless := hguard hempty
    have hunchained := not_chained_of_lookup hnamed.sound hnamed.filled hempty
      [toWString s.dictIdCounter]
    have hlookup := hresult.lookup_eq hnamed.sound hharmless
    rw [if_pos rfl] at hlookup
    have hself : dictionary'.lookup word = [toWString s.dictIdCounter] := by
      rw [hlookup, Multimap.insert_self, hempty, List.nil_append]
    refine ⟨?_, ?_, ?_⟩
    · exact {
        named := ⟨_, hnamed.insert hresult husable hunchained⟩
        dictionary_settled := hresult.settled hnamed.sound h.dictionary_settled hharmless
        table_sound := h.table_sound
        table_settled := h.table_settled
        table_size := h.table_size
        fresh := fun m hm => h.fresh m (Nat.le_of_succ_le hm)
        postings_eq := by
          intro word'
          rw [← h.postings_eq]
          by_cases hword : word' = word
          · rw [hword, postings_of_nil hempty]
            exact (postings_of_lookup hself).trans (h.fresh s.dictIdCounter le_rfl)
          · apply postings_congr
            · change dictionary'.lookup word' = _
              rw [hlookup, Multimap.insert_of_ne _ _ hword]
            · exact fun _ _ _ => rfl }
    · intro m hm
      rcases Nat.lt_succ_iff_lt_or_eq.mp hm with hlt | rfl
      · exact .inl hlt
      · exact .inr rfl
    · rintro i ⟨⟩
      exact ⟨[], hself⟩
  · refine ⟨h.push e, fun m hm => .inl hm, ?_⟩
    rintro i ⟨⟩

/-- The sources that the table takes for the id of a word are new postings of that word alone. -/
theorem tableAdd (h : Tells s log) {word id : WString} {rest sources : List WString} {code : ℕ}
    (hword : s.dictionary.lookup word = id :: rest) (hguard : s.table.Harmless id sources)
    (hrun : s.tableAdd id sources = .ok (s', code)) :
    Tells s' (log ++ [⟨word, sources, decide (code = 0)⟩]) ∧ Admissible id ∧
      s'.dictIdCounter = s.dictIdCounter ∧
      (code = 0 ↔ InvertedIndex.tableException code = none) := by
  rw [InvertedIndex.tableAdd, Exec.bind_eq_ok] at hrun
  obtain ⟨⟨table, code'⟩, hadd, hrun⟩ := hrun
  cases hrun
  obtain ⟨husable, hresult⟩ := h.table_sound.add_eq_ok hadd
  have hlookup := hresult.lookup_eq h.table_sound hguard
  have hother : ∀ key, key ≠ id → table.lookup key = s.table.lookup key := by
    intro key hkey
    rw [hlookup]
    split
    · exact Multimap.insert_of_ne _ _ hkey
    · rfl
  refine ⟨?_, admissible_of_usable h.table_size husable, rfl, ?_⟩
  · exact {
      named := h.named
      dictionary_settled := h.dictionary_settled
      table_sound := hresult.sound h.table_sound husable
      table_settled := hresult.settled h.table_sound h.table_settled hguard
      table_size := by
        change 5 ∣ table.size
        rw [hresult.size_eq]
        exact h.table_size
      fresh := by
        intro m hm
        obtain ⟨k, hk, hid⟩ := h.id_eq hword
        refine (hother _ ?_).trans (h.fresh m hm)
        rw [hid]
        intro hsame
        have hmk : m = k := toWString_injective hsame
        exact absurd (hmk ▸ hk) (Nat.not_lt.mpr hm)
      postings_eq := by
        intro word'
        rw [passedTo_concat, ← h.postings_eq]
        by_cases hsame : word' = word
        · subst hsame
          rw [postings_of_lookup hword, postings_of_lookup (s := { s with table }) hword, hlookup]
          by_cases hcode : code = 0
          · simp [hcode]
          · simp [hcode]
        · have hnone : ¬ (word = word' ∧ decide (code = 0) = true) := fun h => hsame h.1.symm
          rw [if_neg hnone, List.append_nil]
          apply postings_congr
          · rfl
          · exact fun id' rest' hword' => hother id' (h.id_ne hword hword' hsame) }
  · cases hresult <;> decide

end Tells

/-! ### Steps -/

/-- Every insertion of the words into the dictionary and the table is harmless. -/
def HarmlessWords (sources : List WString) : List WString → InvertedIndex → Prop
  | [], _ => True
  | word :: rest, s =>
      (s.dictionary.lookup word = [] →
        s.dictionary.Harmless word [toWString s.dictIdCounter]) ∧
      ∀ s₁ id, s.wordId word = .ok (s₁, some id) → s₁.table.Harmless id sources ∧
        ∀ s₂ code, s₁.tableAdd id sources = .ok (s₂, code) → HarmlessWords sources rest s₂

instance decidableHarmlessWords (sources : List WString) :
    ∀ wordList s, Decidable (HarmlessWords sources wordList s)
  | [], _ => isTrue trivial
  | word :: rest, s =>
      match hword : s.wordId word with
      | .error _ | .ok (_, none) =>
          decidable_of_iff (s.dictionary.lookup word = [] →
            s.dictionary.Harmless word [toWString s.dictIdCounter]) (by simp [HarmlessWords, hword])
      | .ok (s₁, some id) =>
          match htable : s₁.tableAdd id sources with
          | .error _ =>
              decidable_of_iff ((s.dictionary.lookup word = [] →
                s.dictionary.Harmless word [toWString s.dictIdCounter]) ∧
                  s₁.table.Harmless id sources) (by simp [HarmlessWords, hword, htable])
          | .ok (s₂, _) =>
              have := decidableHarmlessWords sources rest s₂
              decidable_of_iff ((s.dictionary.lookup word = [] →
                s.dictionary.Harmless word [toWString s.dictIdCounter]) ∧
                  s₁.table.Harmless id sources ∧ HarmlessWords sources rest s₂) (by
                    simp [HarmlessWords, hword, htable])

/-- The insertions of the step, and those that a growth makes, are harmless. -/
def Harmless (s : InvertedIndex) : InvertedIndex.Op → Prop
  | .add queue sources => HarmlessWords sources (History.words queue) s
  | .handle .fullTable _ => s.table.Regrows
  | .handle .fullDict _ => s.dictionary.Regrows
  | _ => True

instance (s : InvertedIndex) (op : InvertedIndex.Op) : Decidable (Harmless s op) :=
  match op with
  | .add _ _ => inferInstanceAs (Decidable (HarmlessWords _ _ s))
  | .handle .fullTable _ => inferInstanceAs (Decidable s.table.Regrows)
  | .handle .fullDict _ => inferInstanceAs (Decidable s.dictionary.Regrows)
  | .handle .ok _ | .handle .maxTable _ | .handle .maxDict _ | .handle .maxMemory _ | .clear =>
      isTrue trivial

namespace Tells

variable {s s' : InvertedIndex} {log insertions : List Insertion}

theorem addWords {sources words : List WString} (h : Tells s log) (hgiven : Given s)
    (hguard : HarmlessWords sources words s)
    (hrun : InvertedIndex.addWordsLogged sources words s = .ok (s', insertions)) :
    Tells s' (log ++ insertions) ∧ Given s' := by
  induction words generalizing s log insertions with
  | nil =>
      cases hrun
      exact ⟨(List.append_nil log).symm ▸ h, hgiven⟩
  | cons word rest ih =>
      obtain ⟨hfirst, hothers⟩ := hguard
      obtain ⟨⟨s₁, id⟩, hid, hrun⟩ := Exec.bind_eq_ok.mp hrun
      obtain ⟨h₁, hcounter, hlookup⟩ := h.wordId hfirst hid
      cases id with
      | none =>
          cases hrun
          refine ⟨h₁.refuse word sources, fun m hm => ?_⟩
          exact hgiven m ((hcounter m hm).resolve_right (by simp))
      | some id =>
          obtain ⟨behind, hword⟩ := hlookup id rfl
          obtain ⟨hharmless, hnext⟩ := hothers s₁ id hid
          obtain ⟨⟨s₂, code⟩, hadd, hrun⟩ := Exec.bind_eq_ok.mp hrun
          obtain ⟨h₂, hadmissible, hsame, hcode⟩ := h₁.tableAdd hword hharmless hadd
          have hgiven₂ : Given s₂ := by
            intro m hm
            rw [hsame] at hm
            rcases hcounter m hm with hold | hnew
            · exact hgiven m hold
            · exact Option.some.inj hnew ▸ hadmissible
          dsimp only at hrun
          split at hrun
          · next e hexception =>
              cases hrun
              have hrefused : ¬ code = 0 := by
                rw [hcode, hexception]
                exact Option.some_ne_none e
              rw [decide_eq_false hrefused] at h₂
              exact ⟨h₂.push e, hgiven₂⟩
          · next haccepted =>
              obtain ⟨⟨s₃, others⟩, hrest, hrun⟩ := Exec.bind_eq_ok.mp hrun
              cases hrun
              rw [decide_eq_true (hcode.mpr haccepted)] at h₂
              have h₃ := ih h₂ hgiven₂ (hnext s₂ code hadd) hrest
              rw [List.append_assoc] at h₃
              exact h₃

theorem filter_keeps {e : Exception} (h : ∀ word, keeps s e word = true) :
    (log.filter fun i => keeps s e i.word) = log :=
  List.filter_eq_self.mpr fun i _ => h i.word

theorem filter_not_keeps {e : Exception} (h : ∀ word, keeps s e word = false) :
    (log.filter fun i => keeps s e i.word) = [] :=
  List.filter_eq_nil_iff.mpr fun i _ => by simp [h i.word]

theorem growTable {table : HashTable} {code : ℕ} (h : Tells s log) (hguard : s.table.Regrows)
    (hgrow : s.table.increaseTable = .ok (table, code)) :
    Tells { s with table } (log.filter fun i => keeps s .fullTable i.word) := by
  rcases h.table_sound.increaseTable_cases with
    ⟨hlarge, hsame⟩ | ⟨_, _, grown, hsmall, _, _, hsound, hsize, hnew⟩
  · rw [hsame] at hgrow
    cases hgrow
    have hall : ∀ word, keeps s .fullTable word = true := fun word =>
      decide_eq_true fun hgrows => absurd hlarge (Nat.not_le.mpr hgrows)
    rw [filter_keeps hall]
    exact h
  · rw [hnew] at hgrow
    cases hgrow
    obtain ⟨hsettled, hlookup⟩ :=
      h.table_sound.increaseTable_behind h.table_settled hguard hnew
    have hkept : ∀ key, table.lookup key = if s.table.Fronts key then [] else s.table.lookup key :=
      hlookup
    exact {
      named := h.named
      dictionary_settled := h.dictionary_settled
      table_sound := hsound
      table_settled := hsettled
      table_size := by
        change 5 ∣ table.size
        rw [hsize]
        exact Dvd.dvd.mul_left h.table_size 2
      fresh := fun m hm => (hkept _).trans (by rw [h.fresh m hm, ite_self])
      postings_eq := by
        intro word
        rw [passedTo_filter, ← h.postings_eq, keeps]
        cases hword : s.dictionary.lookup word with
        | nil =>
            have hnone : postings { s with table } word = [] := postings_of_nil hword
            rw [postings_of_nil hword, hnone, ite_self]
        | cons id rest =>
            have hloses : Loses s word ↔ s.table.Fronts id := by rw [Loses, hword]
            rw [postings_of_lookup hword, postings_of_lookup (s := { s with table }) hword]
            refine (hkept id).trans ?_
            by_cases hfront : s.table.Fronts id
            · simp [hfront, hloses, Grows, hsmall]
            · simp [hfront, hloses] }

theorem growDictionary {dictionary : HashTable} {code : ℕ} (h : Tells s log)
    (hguard : s.dictionary.Regrows)
    (hgrow : s.dictionary.increaseTable = .ok (dictionary, code)) :
    Tells { s with dictionary } (log.filter fun i => keeps s .fullDict i.word) := by
  obtain ⟨R, hnamed⟩ := h.named
  rcases hnamed.sound.increaseTable_cases with
    ⟨hlarge, hsame⟩ | ⟨_, _, grown, hsmall, _, _, _, _, hnew⟩
  · rw [hsame] at hgrow
    cases hgrow
    have hall : ∀ word, keeps s .fullDict word = true := fun word =>
      decide_eq_true fun hgrows => absurd hlarge (Nat.not_le.mpr hgrows)
    rw [filter_keeps hall]
    exact h
  · rw [hnew] at hgrow
    cases hgrow
    obtain ⟨hsettled, hlookup⟩ :=
      hnamed.sound.increaseTable_behind h.dictionary_settled hguard hnew
    have hkept : ∀ word, dictionary.lookup word =
        if s.dictionary.Fronts word then [] else s.dictionary.lookup word := hlookup
    have hunchained :
        EachAdd (fun T key value => ¬ T.Chained key value) s.dictionary .increaseTable := by
      intro T₁ tmp hsmall hrun
      refine (hguard T₁ tmp hsmall hrun).mono fun T hi hreceived hchained => ?_
      exact hreceived.2.not_behind hchained.2
    exact {
      named := ⟨R, hnamed.increaseTable hunchained hnew⟩
      dictionary_settled := hsettled
      table_sound := h.table_sound
      table_settled := h.table_settled
      table_size := h.table_size
      fresh := h.fresh
      postings_eq := by
        intro word
        rw [passedTo_filter, ← h.postings_eq, keeps]
        by_cases hfront : s.dictionary.Fronts word
        · have hnone : dictionary.lookup word = [] := (hkept word).trans (if_pos hfront)
          have hgone : postings { s with dictionary } word = [] := postings_of_nil hnone
          simp [hgone, hfront, Grows, hsmall]
        · have hsame : dictionary.lookup word = s.dictionary.lookup word :=
            (hkept word).trans (if_neg hfront)
          rw [if_pos (decide_eq_true fun _ => hfront)]
          exact postings_congr hsame fun _ _ _ => rfl }

theorem handle {e : Exception} {stored : ℕ} (h : Tells s log)
    (hguard : Harmless s (.handle e stored)) (hrun : s.handle stored e = .ok s') :
    Tells s' (log.filter fun i => keeps s e i.word) ∧ s'.dictIdCounter = s.dictIdCounter := by
  cases e with
  | ok | maxMemory =>
      cases hrun
      refine ⟨?_, rfl⟩
      rw [filter_keeps fun _ => rfl]
      exact h
  | fullTable =>
      obtain ⟨⟨table, code⟩, hgrow, hrun⟩ := Exec.bind_eq_ok.mp hrun
      have hgrown := h.growTable hguard hgrow
      cases hrun
      split
      · exact ⟨hgrown, rfl⟩
      · exact ⟨hgrown.push .maxTable, rfl⟩
  | fullDict =>
      obtain ⟨⟨dictionary, code⟩, hgrow, hrun⟩ := Exec.bind_eq_ok.mp hrun
      have hgrown := h.growDictionary hguard hgrow
      cases hrun
      split
      · exact ⟨hgrown, rfl⟩
      · exact ⟨hgrown.push .maxDict, rfl⟩
  | maxTable =>
      cases hrun
      rw [filter_not_keeps fun _ => rfl]
      split
      · exact ⟨empty h.named h.dictionary_settled, rfl⟩
      · exact ⟨empty h.named h.dictionary_settled, rfl⟩
  | maxDict =>
      cases hrun
      rw [filter_not_keeps fun _ => rfl]
      exact ⟨empty ⟨_, Named.new (by decide) _⟩ (new_settled _), rfl⟩

end Tells

theorem tells_step {s s' : Journal} {op : InvertedIndex.Op} (h : Tells s.index s.insertions)
    (hgiven : Given s.index) (hguard : Harmless s.index op) (hstep : s.step op = some s') :
    Tells s'.index s'.insertions ∧ Given s'.index := by
  cases op with
  | add queue sources =>
      obtain ⟨⟨index, insertions⟩, hadd, rfl⟩ := Option.map_eq_some_iff.mp hstep
      have hadd := Exec.toOption_eq_some.mp hadd
      rw [InvertedIndex.addLogged, Exec.bind_eq_ok] at hadd
      obtain ⟨words, hwords, hadd⟩ := hadd
      have hsplit : History.words queue = words := by rw [History.words, hwords]; rfl
      rw [Harmless, hsplit] at hguard
      exact h.addWords hgiven hguard hadd
  | handle e stored =>
      obtain ⟨index, hhandle, rfl⟩ := Option.map_eq_some_iff.mp hstep
      obtain ⟨htells, hcounter⟩ := h.handle hguard (Exec.toOption_eq_some.mp hhandle)
      exact ⟨htells, fun m hm => hgiven m (hcounter ▸ hm)⟩
  | clear =>
      cases hstep
      exact ⟨.empty ⟨_, Named.new (by decide) _⟩ (new_settled _), hgiven⟩

/-- What lies in memory is all that `get` returns while no listed file is a section. -/
theorem loadSections_of_none {load : WString → WString → Exec (List WString)}
    {path id : WString} {sections : List SectionInfo}
    (h : ∀ si ∈ sections, find si.name sectionType 0 = none) (result : List WString) :
    InvertedIndex.loadSections load path id sections result = .ok result := by
  induction sections with
  | nil => rfl
  | cons si rest ih =>
      rw [InvertedIndex.loadSections, if_pos (h si List.mem_cons_self)]
      exact ih fun other hother => h other (List.mem_cons_of_mem si hother)

theorem Tells.get {s : InvertedIndex} {log : List Insertion} (h : Tells s log)
    (hgiven : Given s) {load : WString → WString → Exec (List WString)} {fm : FileManager}
    (hsections : ∀ si ∈ fm.getSections, find si.name sectionType 0 = none) {word : WString}
    (hword : Admissible word) : s.get load fm word = .ok (passedTo word log) := by
  obtain ⟨R, hnamed⟩ := h.named
  have hget : s.dictionary.get word = .ok (s.dictionary.lookup word) :=
    hnamed.sound.get_eq (.inl hword)
  rw [InvertedIndex.get, hget, Exec.ok_bind, ← h.postings_eq]
  cases hlookup : s.dictionary.lookup word with
  | nil =>
      rw [postings_of_nil hlookup]
      rfl
  | cons id rest =>
      obtain ⟨m, hm, hid⟩ := h.id_eq hlookup
      have hgetId : s.table.get id = .ok (s.table.lookup id) :=
        h.table_sound.get_eq (.inl (hid ▸ hgiven m hm))
      have hfirst : vectorGet (id :: rest) 0 = .ok id := rfl
      rw [postings_of_lookup hlookup, if_neg (by simp), hfirst, Exec.ok_bind, hgetId, Exec.ok_bind,
        loadSections_of_none hsections]

theorem given_new : Given InvertedIndex.new := by
  intro m hm
  have hzero : m = 0 := Nat.lt_one_iff.mp hm
  rw [hzero]
  decide

theorem run_get {ops : List InvertedIndex.Op} {s : InvertedIndex}
    (hguard : Machine.Meets InvertedIndex.step Harmless InvertedIndex.new ops)
    (hrun : Machine.run InvertedIndex.step InvertedIndex.new ops = some s) :
    ∃ insertions, Machine.run step start ops = some ⟨s, insertions⟩ ∧
      ∀ load fm word, (∀ si ∈ fm.getSections, find si.name sectionType 0 = none) →
        Admissible word → s.get load fm word = .ok (passedTo word insertions) := by
  have hprojected := Machine.map_run map_index_step start ops
  rw [show start.index = InvertedIndex.new from rfl, hrun] at hprojected
  obtain ⟨⟨s', insertions⟩, hjournal, rfl⟩ := Option.map_eq_some_iff.mp hprojected
  have htells := Machine.run_invariant_of_meets
    (fun j : Journal => Tells j.index j.insertions ∧ Given j.index)
    (fun _ _ _ hj hguard hstep => tells_step hj.1 hj.2 hguard hstep)
    ⟨.empty ⟨_, Named.new (by decide) _⟩ (new_settled _), given_new⟩
    ((Machine.meets_map map_index_step).mpr hguard) hjournal
  exact ⟨insertions, hjournal, fun load fm word hsections hword =>
    htells.1.get htells.2 hsections hword⟩

/-- Two words, a growth of the table that forgets both, and the first word again. -/
def regrown : List InvertedIndex.Op :=
  [.add [97, 32, 98] [[115]], .handle .fullTable 0, .add [97] [[116]]]

theorem regrown_get : ∃ s insertions,
    Machine.run InvertedIndex.step InvertedIndex.new regrown = some s ∧
      Machine.run step start regrown = some ⟨s, insertions⟩ ∧
        s.get noValue noSections [97] = .ok [[116]] ∧
          s.get noValue noSections [98] = .ok [] := by
  have hguard : Machine.Meets InvertedIndex.step Harmless InvertedIndex.new regrown := by
    decide +kernel
  obtain ⟨s, hrun⟩ : ∃ s, Machine.run InvertedIndex.step InvertedIndex.new regrown = some s :=
    Option.isSome_iff_exists.mp (by decide +kernel)
  have hpassed : (Machine.run step start regrown).map (fun j =>
      (passedTo [97] j.insertions, passedTo [98] j.insertions)) = some ([[116]], []) := by
    decide +kernel
  obtain ⟨insertions, hjournal, hget⟩ := run_get hguard hrun
  rw [hjournal, Option.map_some, Option.some.injEq, Prod.mk.injEq] at hpassed
  have hsections : ∀ si ∈ noSections.getSections, find si.name sectionType 0 = none := by decide
  have hfirst := hget noValue noSections [97] hsections (by decide)
  have hsecond := hget noValue noSections [98] hsections (by decide)
  rw [hpassed.1] at hfirst
  rw [hpassed.2] at hsecond
  exact ⟨s, insertions, hrun, hjournal, hfirst, hsecond⟩

end Journal

end IndexServer
