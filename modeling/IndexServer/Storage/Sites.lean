import IndexServer.InvertedIndex.Rules
import IndexServer.Storage.History
import IndexServer.HashTable.Values
import IndexServer.Site

/-!
# What lookups return to the task handlers

As long as nothing is spilled to the folder, every string that a lookup returns has been passed to
`add`, under whichever key the tables have moved it to. The task handlers pass only the texts of
sites, so `toSite` finds three parts in what they look up.
-/

namespace IndexServer

open HashTable

/-! ### Insertion -/

namespace InvertedIndex

variable {s s' : InvertedIndex} {p : WString → Prop}

structure Stores (p : WString → Prop) (s : InvertedIndex) : Prop where
  sound : s.table.Sound
  within : s.table.Within fun _ x => p x

theorem stores_new {n : ℕ} {dictionary : HashTable} {queue : List Exception} :
    Stores p ⟨n, HashTable.new startSize, dictionary, queue⟩ where
  sound := new_sound (by decide)
  within := new_within _ _

theorem Stores.of_table (h : s.Stores p) (htable : s'.table = s.table) : s'.Stores p where
  sound := htable ▸ h.sound
  within := htable ▸ h.within

theorem wordId_table {word : WString} {id : Option WString}
    (hrun : s.wordId word = .ok (s', id)) : s'.table = s.table := by
  obtain ⟨found, _, hrun⟩ := Exec.bind_eq_ok.mp hrun
  split at hrun
  · obtain ⟨⟨s₁, code⟩, hadd, hrun⟩ := Exec.bind_eq_ok.mp hrun
    obtain ⟨⟨dictionary, code'⟩, _, hadd⟩ := Exec.bind_eq_ok.mp hadd
    cases hadd
    dsimp only at hrun
    split at hrun
    · cases hrun
      rfl
    · cases hrun
      rfl
  · obtain ⟨id', _, hrun⟩ := Exec.bind_eq_ok.mp hrun
    cases hrun
    rfl

theorem Stores.tableAdd (h : s.Stores p) {id : WString} {sources : List WString} {code : ℕ}
    (hsources : ∀ source ∈ sources, p source) (hrun : s.tableAdd id sources = .ok (s', code)) :
    s'.Stores p := by
  obtain ⟨⟨table, code'⟩, hadd, hrun⟩ := Exec.bind_eq_ok.mp hrun
  cases hrun
  obtain ⟨husable, hresult⟩ := h.sound.add_eq_ok hadd
  exact ⟨hresult.sound h.sound husable,
    hresult.within_of_moved h.within hsources fun _ _ _ hx => hx⟩

theorem Stores.addWords {sources wordList : List WString} (h : s.Stores p)
    (hsources : ∀ source ∈ sources, p source) (hrun : addWords sources wordList s = .ok s') :
    s'.Stores p :=
  addWords_rule (Stores p) (fun _ _ hs => hs.of_table rfl)
    (fun _ _ _ _ hs hid => hs.of_table (wordId_table hid))
    (fun _ _ _ _ hs htable => hs.tableAdd hsources htable) h hrun

theorem Stores.handle (h : s.Stores p) {e : Exception} {stored : ℕ}
    (hrun : s.handle stored e = .ok s') : s'.Stores p := by
  refine handle_rule (Stores p) (fun _ _ hs => hs.of_table rfl) ?_ (fun _ _ _ _ => h.of_table rfl)
    stores_new stores_new h hrun
  intro _ table code hgrow
  exact ⟨(h.sound.increaseTable_entries joins_true (fun _ _ => trivial) hgrow).1,
    h.sound.increaseTable_values h.within hgrow⟩

end InvertedIndex

/-! ### Runs in memory -/

namespace History

/-- The source was passed to `add`, with whichever query. -/
def Given (calls : List (WString × List WString)) (source : WString) : Prop :=
  ∃ call ∈ calls, source ∈ call.2

/-- The step does not spill the table to the folder. -/
def Op.InMemory : Op → Prop
  | .handle .maxTable _ _ _ => False
  | _ => True

def Op.PassesSites : Op → Prop
  | .add _ sources => ∀ source ∈ sources, ∃ site : Site, source = site.toString
  | _ => True

/-- No file holds a table, the table holds what was passed to `add`, and that consists of texts of
sites. -/
structure Sourced (s : History) : Prop where
  files : s.files = []
  stores : s.index.Stores (Given s.calls)
  sites : ∀ source, Given s.calls source → ∃ site : Site, source = site.toString

variable {s s' : History}

theorem start_sourced : start.Sourced where
  files := rfl
  stores := InvertedIndex.stores_new
  sites source h := by simp [Given, start] at h

theorem handle_sourced (h : s.Sourced) {e : Exception} (he : e ≠ .maxTable) {fileName : WString}
    {kept : List WString} {fm : FileManager} (hrun : s.handle fileName kept fm e = .ok s') :
    s'.Sourced := by
  obtain ⟨index, hindex, hrun⟩ := Exec.bind_eq_ok.mp hrun
  have hstores := h.stores.handle hindex
  cases e with
  | maxTable => exact absurd rfl he
  | ok | fullTable | fullDict =>
      cases hrun
      exact ⟨h.files, hstores, h.sites⟩
  | maxDict | maxMemory =>
      cases hrun
      refine ⟨?_, hstores, h.sites⟩
      show s.files.filter _ = []
      rw [h.files, List.filter_nil]

theorem given_append {calls more : List (WString × List WString)} {source : WString} :
    Given (calls ++ more) source ↔ Given calls source ∨ Given more source := by
  simp only [Given, List.mem_append, or_and_right, exists_or]

theorem step_sourced (h : s.Sourced) {op : Op} (hmemory : op.InMemory) (hsites : op.PassesSites)
    (hstep : s.step op = some s') : s'.Sourced := by
  cases op with
  | add queue sources =>
      obtain ⟨index, hadd, rfl⟩ := Option.map_eq_some_iff.mp hstep
      obtain ⟨wordList, _, hadd⟩ := Exec.bind_eq_ok.mp (Exec.toOption_eq_some.mp hadd)
      have hcall : ∀ source, Given [(queue, sources)] source ↔ source ∈ sources := by
        simp [Given]
      refine ⟨h.files, ?_, fun source hsource => ?_⟩
      · apply InvertedIndex.Stores.addWords _ _ hadd
        · exact ⟨h.stores.sound, h.stores.within.mono fun _ _ hx => given_append.mpr (.inl hx)⟩
        · exact fun source hsource => given_append.mpr (.inr ((hcall source).mpr hsource))
      · exact (given_append.mp hsource).elim (h.sites source) fun hnew =>
          hsites source ((hcall source).mp hnew)
  | handle e fileName kept fm =>
      refine handle_sourced h ?_ (Exec.toOption_eq_some.mp hstep)
      rintro rfl
      exact hmemory
  | clear =>
      cases hstep
      exact ⟨h.files, InvertedIndex.stores_new, h.sites⟩
  | restart fm =>
      cases hstep
      exact ⟨h.files, InvertedIndex.stores_new, h.sites⟩

/-! ### Lookup -/

theorem loadSections_of_files (h : s.files = []) {storingPath id : WString}
    {sections : List SectionInfo} {result result' : List WString}
    (hrun : InvertedIndex.loadSections s.load storingPath id sections result = .ok result') :
    result' = result := by
  induction sections generalizing result with
  | nil =>
      cases hrun
      rfl
  | cons si rest ih =>
      rw [InvertedIndex.loadSections] at hrun
      split at hrun
      · exact ih hrun
      · obtain ⟨value, hload, hrun⟩ := Exec.bind_eq_ok.mp hrun
        rw [load, h] at hload
        cases hload
        rw [ih hrun, extendVector, List.append_nil]

theorem Sourced.given (h : s.Sourced) {word : WString} {result : List WString}
    (hget : s.get word = .ok result) : ∀ source ∈ result, Given s.calls source := by
  obtain ⟨wordIdVector, _, hget⟩ := Exec.bind_eq_ok.mp hget
  split at hget
  · cases hget
    intro source hsource
    cases hsource
  · obtain ⟨id, _, hget⟩ := Exec.bind_eq_ok.mp hget
    obtain ⟨value, htable, hget⟩ := Exec.bind_eq_ok.mp hget
    rw [loadSections_of_files h.files hget]
    exact fun source hsource => h.stores.sound.get_within h.stores.within htable hsource

/-- Without sections, every string that a lookup returns was passed to `add` and splits into at
least three parts, so that `toSite` makes a site of it. -/
theorem run_sites {ops : List Op} (hmemory : ∀ op ∈ ops, op.InMemory)
    (hsites : ∀ op ∈ ops, op.PassesSites) (hrun : Machine.run step start ops = some s) :
    ∀ word result, s.get word = .ok result → ∀ source ∈ result,
      Given s.calls source ∧
        (∃ parts, split source Site.delimiter = .ok parts ∧ 3 ≤ parts.length) ∧
        ∃ site, Site.toSite source = .ok site := by
  have hmeets : Machine.Meets step (fun _ op => op.InMemory ∧ op.PassesSites) start ops :=
    Machine.meets_label fun op hop => ⟨hmemory op hop, hsites op hop⟩
  have hsourced : s.Sourced := Machine.run_invariant_of_meets Sourced
    (fun _ _ _ h hop hstep => step_sourced h hop.1 hop.2 hstep) start_sourced hmeets hrun
  intro word result hget source hsource
  have hgiven := hsourced.given hget source hsource
  obtain ⟨site, rfl⟩ := hsourced.sites source hgiven
  obtain ⟨title, link, snippet, more, hcuts⟩ := site.toString_cuts
  refine ⟨hgiven, ⟨_, (split_eq_ok Site.delimiter_ne_nil).mpr hcuts, ?_⟩, _,
    Site.toSite_of_cuts hcuts⟩
  simp

def delimited : Site where
  title := Site.delimiter
  link := [104]
  snippet := [115]

theorem delimited_sites : ∃ s, Machine.run step start [.add [97] [delimited.toString]] = some s ∧
    s.get [97] = .ok [delimited.toString] ∧
      ∃ parts, split delimited.toString Site.delimiter = .ok parts ∧ 3 ≤ parts.length := by
  have hget : (Machine.run step start [.add [97] [delimited.toString]]).map
      (fun s => decide (s.get [97] = .ok [delimited.toString])) = some true := by decide +kernel
  obtain ⟨s, hrun, hget⟩ := Option.map_eq_some_iff.mp hget
  have hfound := of_decide_eq_true hget
  have hsites := run_sites (by simp [Op.InMemory])
    (by simp only [List.mem_singleton, forall_eq, Op.PassesSites]; exact ⟨delimited, rfl⟩) hrun
  exact ⟨s, hrun, hfound, (hsites [97] _ hfound _ List.mem_cons_self).2.1⟩

end History

end IndexServer
