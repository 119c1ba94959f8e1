import IndexServer.Storage.History
import IndexServer.InvertedIndex.Ids

/-!
# Ids across processes

The counter of ids starts anew with each process, and the files keep the ids of earlier ones. Within
a process an id belongs to one word; what a lookup returns for it was passed with that word as long
as a word owns what the files hold under the id it is given, and no values reach a head from the
entry behind it.
-/

namespace IndexServer

open HashTable

namespace History

variable {R : WString → WString → Prop} {files files' : List (WString × HashTable)}
  {calls calls' : List (WString × List WString)} {index index' : InvertedIndex}

theorem Passed.mono {word source : WString} (h : Passed calls word source)
    (hcalls : ∀ call ∈ calls, call ∈ calls') : Passed calls' word source := by
  obtain ⟨call, hcall, hpassed⟩ := h
  exact ⟨call, hcalls call hcall, hpassed⟩

theorem Owns.mono {word id : WString} (h : Owns files calls word id)
    (hcalls : ∀ call ∈ calls, call ∈ calls') : Owns files calls' word id :=
  fun f hf source hsource => (h f hf source hsource).mono hcalls

/-! ### The invariant -/

/-- The counter is beyond the id, and the source was passed with every word that has the id. -/
def Entitled (R : WString → WString → Prop) (calls : List (WString × List WString)) (n : ℕ)
    (id source : WString) : Prop :=
  (∃ m < n, id = toWString m) ∧ ∀ word, R word id → Passed calls word source

/-- The words of the dictionary have the ids that `R` says, and own what the table and the files
hold under them. -/
structure Owned (R : WString → WString → Prop) (files : List (WString × HashTable))
    (calls : List (WString × List WString)) (index : InvertedIndex) : Prop where
  named : Named R index.dictionary index.dictIdCounter
  table_sound : index.table.Sound
  table_within : index.table.Within (Entitled R calls index.dictIdCounter)
  owns : ∀ word id, R word id → Owns files calls word id

theorem owned_new {n : ℕ} {queue : List Exception} :
    Owned (fun _ _ => False) files calls
      ⟨n, HashTable.new InvertedIndex.startSize, HashTable.new InvertedIndex.startSize, queue⟩ where
  named := Named.new (by decide) n
  table_sound := new_sound (by decide)
  table_within := new_within _ _
  owns _ _ h := h.elim

namespace Owned

theorem mono_calls (h : Owned R files calls index) (hcalls : ∀ call ∈ calls, call ∈ calls') :
    Owned R files calls' index where
  named := h.named
  table_sound := h.table_sound
  table_within := h.table_within.mono fun _ _ hentitled =>
    ⟨hentitled.1, fun word hword => (hentitled.2 word hword).mono hcalls⟩
  owns word id hword := (h.owns word id hword).mono hcalls

theorem of_files (h : Owned R files calls index) (hfiles : ∀ f ∈ files', f ∈ files) :
    Owned R files' calls index where
  named := h.named
  table_sound := h.table_sound
  table_within := h.table_within
  owns word id hword f hf := h.owns word id hword f (hfiles f hf)

theorem push (h : Owned R files calls index) (e : Exception) :
    Owned R files calls (index.push e) :=
  ⟨h.named, h.table_sound, h.table_within, h.owns⟩

theorem withTable (h : Owned R files calls index) {table : HashTable} (hsound : table.Sound)
    (hwithin : table.Within (Entitled R calls index.dictIdCounter)) :
    Owned R files calls { index with table } :=
  ⟨h.named, hsound, hwithin, h.owns⟩

theorem withDictionary (h : Owned R files calls index) {dictionary : HashTable}
    (hnamed : Named R dictionary index.dictIdCounter) :
    Owned R files calls { index with dictionary } :=
  ⟨hnamed, h.table_sound, h.table_within, h.owns⟩

/-! ### Insertion -/

theorem wordId (h : Owned R files calls index) {word : WString} {id : Option WString}
    (hrun : index.wordId word = .ok (index', id))
    (hguard : index.dictionary.get word = .ok [] → ∀ i, id = some i → Owns files calls word i) :
    ∃ R', Owned R' files calls index' ∧ ∀ i, id = some i → R' word i := by
  rcases InvertedIndex.wordId_cases h.named.sound hrun with
    ⟨found, rest, hget, rfl, rfl⟩ |
    ⟨husable, hempty, dictionary', code, hresult, ⟨rfl, rfl⟩ | ⟨⟨e, rfl⟩, rfl⟩⟩
  · refine ⟨R, h, ?_⟩
    rintro i ⟨⟩
    exact h.named.get_first hget
  · have hget : index.dictionary.get word = .ok [] :=
      (h.named.sound.get_eq husable).trans (congrArg _ hempty)
    have hunchained := not_chained_of_lookup h.named.sound h.named.filled hempty
      [toWString index.dictIdCounter]
    refine ⟨_, ⟨h.named.insert hresult husable hunchained, h.table_sound, ?_, ?_⟩, ?_⟩
    · -- the table holds nothing under the new id
      refine h.table_within.mono fun i source hentitled => ?_
      obtain ⟨⟨m, hm, rfl⟩, hpassed⟩ := hentitled
      refine ⟨⟨m, Nat.lt_succ_of_lt hm, rfl⟩, ?_⟩
      rintro w (hold | ⟨_, hnew⟩)
      · exact hpassed w hold
      · exact absurd (toWString_injective hnew) (Nat.ne_of_lt hm)
    · rintro w i (hold | ⟨rfl, rfl⟩)
      · exact h.owns w i hold
      · exact hguard hget _ rfl
    · rintro i ⟨⟩
      exact .inr ⟨rfl, rfl⟩
  · refine ⟨R, h.push e, ?_⟩
    rintro i ⟨⟩

theorem tableAdd (h : Owned R files calls index) {word id : WString} {sources : List WString}
    {code : ℕ} (hword : R word id) (hsources : ∀ source ∈ sources, Passed calls word source)
    (hguard : ¬ index.table.Chained id sources)
    (hrun : index.tableAdd id sources = .ok (index', code)) : Owned R files calls index' := by
  rw [InvertedIndex.tableAdd, Exec.bind_eq_ok] at hrun
  obtain ⟨⟨table, code'⟩, hadd, hrun⟩ := hrun
  cases hrun
  obtain ⟨husable, hresult⟩ := h.table_sound.add_eq_ok hadd
  refine h.withTable (hresult.sound h.table_sound husable)
    (hresult.within h.table_within (fun source hsource => ?_) hguard)
  refine ⟨h.named.bound word id hword, fun w hw => ?_⟩
  rw [h.named.unique hw hword]
  exact hsources source hsource

theorem addWords {sources : List WString} {wordList : List WString}
    (h : Owned R files calls index)
    (hsources : ∀ word ∈ wordList, ∀ source ∈ sources, Passed calls word source)
    (hguard : CarefulWords files calls sources wordList index)
    (hrun : InvertedIndex.addWords sources wordList index = .ok index') :
    ∃ R', Owned R' files calls index' := by
  induction wordList generalizing R index with
  | nil =>
      cases hrun
      exact ⟨R, h⟩
  | cons word rest ih =>
      rw [InvertedIndex.addWords, Exec.bind_eq_ok] at hrun
      obtain ⟨⟨index₁, id⟩, hword, hrun⟩ := hrun
      cases id with
      | none =>
          cases hrun
          obtain ⟨R', howned, _⟩ := h.wordId hword fun _ i hi => absurd hi (by simp)
          exact ⟨R', howned⟩
      | some id =>
          obtain ⟨hfresh, hunchained, hrest⟩ := hguard _ _ hword
          obtain ⟨R', howned, hR⟩ := h.wordId hword fun hget i hi =>
            Option.some.inj hi ▸ hfresh hget
          dsimp only at hrun
          rw [Exec.bind_eq_ok] at hrun
          obtain ⟨⟨index₂, code⟩, htable, hrun⟩ := hrun
          have howned₂ := howned.tableAdd (hR id rfl) (hsources word List.mem_cons_self)
            hunchained htable
          dsimp only at hrun
          split at hrun
          · cases hrun
            exact ⟨R', howned₂.push _⟩
          · have hnone : InvertedIndex.tableException code = none := by assumption
            exact ih howned₂ (fun w hw => hsources w (List.mem_cons_of_mem _ hw))
              (hrest _ _ htable hnone) hrun

/-! ### The service handlers -/

theorem increaseTable (h : Owned R files calls index) {stored : ℕ}
    (hguard : EachAdd (fun T key value => ¬ T.Chained key value) index.table .increaseTable)
    (hrun : index.handle stored .fullTable = .ok index') : Owned R files calls index' := by
  rw [InvertedIndex.handle, Exec.bind_eq_ok] at hrun
  obtain ⟨⟨table, code⟩, hgrow, hrun⟩ := hrun
  have hsound := (h.table_sound.increaseTable_entries joins_true (fun _ _ => trivial) hgrow).1
  have hgrown := h.withTable hsound
    (h.table_sound.increaseTable_within h.table_within hguard hgrow)
  cases hrun
  split
  · exact hgrown
  · exact hgrown.push _

theorem increaseDictionary (h : Owned R files calls index) {stored : ℕ}
    (hguard : EachAdd (fun T key value => ¬ T.Chained key value) index.dictionary .increaseTable)
    (hrun : index.handle stored .fullDict = .ok index') : Owned R files calls index' := by
  rw [InvertedIndex.handle, Exec.bind_eq_ok] at hrun
  obtain ⟨⟨dictionary, code⟩, hgrow, hrun⟩ := hrun
  have hgrown := h.withDictionary (h.named.increaseTable hguard hgrow)
  cases hrun
  split
  · exact hgrown
  · exact hgrown.push _

/-- A saved table holds under its ids what the words that have them own. -/
theorem save (h : Owned R files calls index) (path : WString) :
    Owned R ((path, index.table) :: files) calls
      { index with table := HashTable.new InvertedIndex.startSize } where
  named := h.named
  table_sound := new_sound (by decide)
  table_within := new_within _ _
  owns word id hword f hf source hsource := by
    cases List.mem_cons.mp hf with
    | inr hold => exact h.owns word id hword f hold source hsource
    | inl hsaved =>
        subst hsaved
        rw [found] at hsource
        cases hget : index.table.get id with
        | error fault =>
            rw [hget] at hsource
            cases hsource
        | ok value =>
            rw [hget] at hsource
            exact (h.table_sound.get_within h.table_within hget hsource).2 word hword

/-! ### Lookup -/

theorem load {s : History} (h : Owned R s.files s.calls s.index) {word id path : WString}
    (hword : R word id) {value : List WString} (hload : s.load path id = .ok value) :
    ∀ source ∈ value, Passed s.calls word source := by
  rw [History.load] at hload
  intro source hsource
  split at hload
  · case h_1 T hlookup =>
      obtain ⟨before, after, hfiles, _⟩ := List.lookup_eq_some_iff.mp hlookup
      have hfile : (path, T) ∈ s.files := hfiles ▸ List.mem_append_right before List.mem_cons_self
      refine h.owns word id hword _ hfile source ?_
      rw [found, hload]
      exact hsource
  · cases hload
    cases hsource

theorem loadSections {s : History} (h : Owned R s.files s.calls s.index) {word id : WString}
    (hword : R word id) {storingPath : WString} {sections : List SectionInfo}
    {result result' : List WString} (hresult : ∀ source ∈ result, Passed s.calls word source)
    (hrun : InvertedIndex.loadSections s.load storingPath id sections result = .ok result') :
    ∀ source ∈ result', Passed s.calls word source := by
  induction sections generalizing result with
  | nil =>
      cases hrun
      exact hresult
  | cons si rest ih =>
      rw [InvertedIndex.loadSections] at hrun
      split at hrun
      · exact ih hresult hrun
      · obtain ⟨value, hload, hrun⟩ := Exec.bind_eq_ok.mp hrun
        refine ih (fun source hsource => ?_) hrun
        cases List.mem_append.mp hsource with
        | inl hold => exact hresult source hold
        | inr hnew => exact h.load hword hload source hnew

theorem honest {s : History} (h : Owned R s.files s.calls s.index) : s.Honest := by
  intro word result hget
  obtain ⟨wordIdVector, hids, hget⟩ := Exec.bind_eq_ok.mp hget
  cases wordIdVector with
  | nil =>
      cases hget
      intro source hsource
      cases hsource
  | cons id rest =>
      rw [if_neg (by simp)] at hget
      obtain ⟨first, hfirst, hget⟩ := Exec.bind_eq_ok.mp hget
      cases hfirst
      obtain ⟨value, htable, hget⟩ := Exec.bind_eq_ok.mp hget
      have hword := h.named.get_first hids
      exact h.loadSections hword (fun source hsource =>
        (h.table_sound.get_within h.table_within htable hsource).2 word hword) hget

end Owned

/-! ### Runs -/

theorem owned_handle {s s' : History} (h : Owned R s.files s.calls s.index) {e : Exception}
    {fileName : WString} {kept : List WString} {fm : FileManager}
    (hguard : s.Careful (.handle e fileName kept fm))
    (hrun : s.handle fileName kept fm e = .ok s') : ∃ R', Owned R' s'.files s'.calls s'.index := by
  obtain ⟨index, hindex, hrun⟩ := Exec.bind_eq_ok.mp hrun
  have hkept : ∀ f ∈ s.files.filter fun f => decide (f.1 ∈ kept), f ∈ s.files :=
    fun f hf => List.mem_of_mem_filter hf
  cases e with
  | ok =>
      cases hindex
      cases hrun
      exact ⟨R, h⟩
  | fullTable =>
      cases hrun
      exact ⟨R, h.increaseTable hguard hindex⟩
  | fullDict =>
      cases hrun
      exact ⟨R, h.increaseDictionary hguard hindex⟩
  | maxTable =>
      obtain ⟨content, _, hrun⟩ := Exec.bind_eq_ok.mp hrun
      cases hindex
      cases hrun
      have hothers : ∀ path,
          Owned R (s.files.filter fun f => decide (f.1 ≠ path)) s.calls s.index :=
        fun path => h.of_files fun f hf => List.mem_of_mem_filter hf
      refine ⟨R, ?_⟩
      dsimp only
      split
      · exact ((hothers _).save _).push .maxMemory
      · exact (hothers _).save _
  | maxDict =>
      cases hindex
      cases hrun
      exact ⟨_, owned_new⟩
  | maxMemory =>
      cases hindex
      cases hrun
      exact ⟨R, h.of_files hkept⟩

theorem owned_step {s s' : History} {op : Op} (h : ∃ R, Owned R s.files s.calls s.index)
    (hguard : s.Careful op) (hstep : s.step op = some s') :
    ∃ R, Owned R s'.files s'.calls s'.index := by
  obtain ⟨R, h⟩ := h
  cases op with
  | add queue sources =>
      obtain ⟨index, hadd, rfl⟩ := Option.map_eq_some_iff.mp hstep
      rw [Exec.toOption_eq_some, InvertedIndex.add, Exec.bind_eq_ok] at hadd
      obtain ⟨wordList, hsplit, hadd⟩ := hadd
      have hwords : words queue = wordList := by rw [words, hsplit]; rfl
      rw [Careful, hwords] at hguard
      have hcalled : Owned R s.files (s.calls ++ [(queue, sources)]) s.index :=
        h.mono_calls fun call hcall => List.mem_append_left _ hcall
      refine hcalled.addWords (fun word hword source hsource => ?_) hguard hadd
      refine ⟨(queue, sources), List.mem_append_right _ List.mem_cons_self, ?_, hsource⟩
      rw [hwords]
      exact hword
  | handle e fileName kept fm => exact owned_handle h hguard (Exec.toOption_eq_some.mp hstep)
  | clear =>
      cases hstep
      exact ⟨_, owned_new⟩
  | restart fm =>
      cases hstep
      exact ⟨_, owned_new⟩

/-- In a run of careful steps, over however many processes, every lookup returns only what was
passed with its word. -/
theorem run_honest {ops : List Op} {s : History} (hguard : Machine.Meets step Careful start ops)
    (hrun : Machine.run step start ops = some s) : s.Honest :=
  (Machine.run_invariant_of_meets (fun s => ∃ R, Owned R s.files s.calls s.index)
    (fun _ _ _ h hguard hstep => owned_step h hguard hstep) ⟨_, owned_new⟩ hguard hrun).elim
    fun _ h => h.honest

/-! ### Two processes -/

/-- The manager of a process that has read the first section. -/
def sectionListed : FileManager where
  currentStoringCapacity := 0
  sectionsInfo := [⟨sectionType ++ [45, 48] ++ extension ++ extension, sectionType, 0, 0⟩]
  clearInProcess := false

/-- A process adds a source under "a" and saves its table; the next one adds a source under the
word, which takes the id that "a" had. -/
def restarted (word : WString) : List Op :=
  [.add [97] [[115]], .handle .maxTable (sectionType ++ [45, 48] ++ extension) [] sectionListed,
    .restart sectionListed, .add word [[116]]]

theorem sameWord_honest : ∃ s, Machine.run step start (restarted [97]) = some s ∧
    s.get [97] = .ok [[116], [115]] ∧ s.Honest := by
  have hrun : (Machine.run step start (restarted [97])).map
      (fun s => decide (s.get [97] = .ok [[116], [115]])) = some true := by decide +kernel
  have hguard : Machine.Meets step Careful start (restarted [97]) := by decide +kernel
  obtain ⟨s, hs, hget⟩ := Option.map_eq_some_iff.mp hrun
  exact ⟨s, hs, of_decide_eq_true hget, run_honest hguard hs⟩

def letters : WString :=
  [97, 32, 98, 32, 99, 32, 100, 32, 101, 32, 102, 32, 103, 32, 104, 32, 105, 32, 106, 32, 107, 32,
    108, 32, 109, 32, 110, 32, 111]

/-- In the second round "a" and "o" have the ids 16 and 30, which share a cell. -/
def sharedCell : List Op :=
  [.add letters [[115]], .clear, .add letters [[115]], .add [111] [[116]]]

/-- Lookups of "b" return what was passed with "a" to an earlier process, and without any section
lookups of "a" return what was passed with "o". -/
theorem restarted_not_honest :
    (¬ ∀ (ops : List Op) (s : History), Machine.run step start ops = some s → s.Honest) ∧
      ¬ ∀ (ops : List Op) (s : History), Machine.run step start ops = some s → s.files = [] →
        s.Honest := by
  constructor
  · intro hclaim
    have hrun : (Machine.run step start (restarted [98])).map (fun s =>
        decide (s.get [98] = .ok [[116], [115]] ∧ ¬ Passed s.calls [98] [115])) = some true := by
      decide +kernel
    obtain ⟨s, hs, hstale⟩ := Option.map_eq_some_iff.mp hrun
    obtain ⟨hget, hnever⟩ := of_decide_eq_true hstale
    exact hnever (hclaim _ s hs _ _ hget [115] (by decide))
  · intro hclaim
    have hrun : (Machine.run step start sharedCell).map (fun s => decide
        (s.files = [] ∧ s.get [97] = .ok [[115], [116]] ∧ ¬ Passed s.calls [97] [116])) =
          some true := by decide +kernel
    obtain ⟨s, hs, hmerged⟩ := Option.map_eq_some_iff.mp hrun
    obtain ⟨hfiles, hget, hnever⟩ := of_decide_eq_true hmerged
    exact hnever (hclaim _ s hs hfiles _ _ hget [116] (by decide))

end History

end IndexServer
