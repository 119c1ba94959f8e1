import IndexServer.InvertedIndex.Journal
import IndexServer.InvertedIndex.Progress
import IndexServer.Storage.Sites

/-!
# The client handler

`clientTaskHandler` from the query of the request to the sites of the response, with the insertions
of words that its call of `add` makes, and the handlers of requests one after the other with those
of exceptions between them. Unlike the console handler it returns everything that it finds, and it
passes what it has generated to `add` once. As long as nothing is spilled to the folder, all that
the index returns has been generated, and the same request again is answered from the index.
-/

namespace IndexServer

def characters : WString :=
  (List.range' 48 10 ++ List.range' 65 26 ++ List.range' 97 26).map UInt16.ofNat

def randomString (length : ℕ) (distribution : ℕ → Fin characters.length) : WString :=
  (List.range length).map fun i => characters.get (distribution i)

def generateRandomSiteVector (strLength vectorLength : ℕ)
    (distribution : ℕ → Fin characters.length) : List Site :=
  let s := randomString strLength distribution
  List.replicate vectorLength ⟨s, s, s⟩

section handler

variable (load : WString → WString → Exec (List WString)) (fm : FileManager)

/-- The first loop of `clientTaskHandler`, with the variable `result`. -/
def foundResults (s : InvertedIndex) : List WString → List Site → Exec (List Site)
  | [], result => .ok result
  | key :: rest, result => do
      let keyValue ← s.get load fm key
      let sites ← keyValue.mapM Site.toSite
      foundResults s rest (result ++ sites)

/-- `clientTaskHandler`: the variable `result`, the index, and the insertions. -/
def clientTaskHandler (s : InvertedIndex) (queue : WString) (resultCount : ℕ)
    (distribution : ℕ → Fin characters.length) :
    Exec (List Site × InvertedIndex × List Insertion) := do
  let keys ← split queue [32]
  let result ← foundResults load fm s keys []
  if result.length < resultCount then
    let sites := generateRandomSiteVector 4 resultCount distribution
    let result := extendVector result sites
    let value := sites.map Site.toString
    let (s, insertions) ← s.addLogged queue value
    return (result, s, insertions)
  else return (result, s, [])

end handler

/-! ### What is generated -/

/-- The site can have been generated. -/
def Generated (site : Site) : Prop :=
  ∃ distribution, site = ⟨randomString 4 distribution, randomString 4 distribution,
    randomString 4 distribution⟩

theorem mem_generateRandomSiteVector {resultCount : ℕ} {distribution : ℕ → Fin characters.length}
    {site : Site} (hsite : site ∈ generateRandomSiteVector 4 resultCount distribution) :
    Generated site :=
  ⟨distribution, (List.mem_replicate.mp hsite).2⟩

theorem length_generateRandomSiteVector (strLength resultCount : ℕ)
    (distribution : ℕ → Fin characters.length) :
    (generateRandomSiteVector strLength resultCount distribution).length = resultCount :=
  List.length_replicate

theorem randomString_free (length : ℕ) (distribution : ℕ → Fin characters.length) :
    ¬ Site.delimiter <:+: randomString length distribution := by
  intro hinfix
  have hmem : (36 : WChar) ∈ randomString length distribution :=
    hinfix.subset List.mem_cons_self
  obtain ⟨i, _, hi⟩ := List.mem_map.mp hmem
  have hcharacter : (36 : WChar) ∈ characters := hi ▸ List.getElem_mem _
  exact absurd hcharacter (by decide)

theorem Generated.toSite {site : Site} (h : Generated site) :
    Site.toSite site.toString = .ok site := by
  obtain ⟨distribution, rfl⟩ := h
  have hfree := randomString_free 4 distribution
  exact (Site.toSite_toString_iff _ _ _).mpr ⟨hfree, hfree, hfree⟩

theorem mapM_toSite {sites : List Site} (h : ∀ site ∈ sites, Generated site) :
    (sites.map Site.toString).mapM Site.toSite = .ok sites := by
  induction sites with
  | nil => rfl
  | cons site rest ih =>
      have hrest := ih fun other hother => h other (List.mem_cons_of_mem _ hother)
      rw [List.map_cons, List.mapM_cons, (h site List.mem_cons_self).toSite, Exec.ok_bind, hrest]
      rfl

theorem exists_mapM_toSite {value : List WString}
    (h : ∀ source ∈ value, ∃ site, Generated site ∧ source = site.toString) :
    ∃ sites, value.mapM Site.toSite = .ok sites ∧ ∀ site ∈ sites, Generated site := by
  induction value with
  | nil => exact ⟨[], rfl, fun _ h => by cases h⟩
  | cons source rest ih =>
      obtain ⟨site, hsite, rfl⟩ := h source List.mem_cons_self
      obtain ⟨sites, hsites, hall⟩ := ih fun other hother => h other (List.mem_cons_of_mem _ hother)
      refine ⟨site :: sites, ?_, List.forall_mem_cons.mpr ⟨hsite, hall⟩⟩
      rw [List.mapM_cons, hsite.toSite, Exec.ok_bind, hsites]
      rfl

namespace Requests

variable (load : WString → WString → Exec (List WString)) (fm : FileManager) (resultCount : ℕ)

inductive Op where
  /-- `clientTaskHandler` runs. -/
  | serve (queue : WString) (distribution : ℕ → Fin characters.length)
  /-- The handler of an exception runs. -/
  | handle (e : Exception) (currentStoringCapacity : ℕ)

def step (j : Journal) : Op → Option Journal
  | .serve queue distribution =>
      (clientTaskHandler load fm j.index queue resultCount distribution).toOption.map fun r =>
        ⟨r.2.1, j.insertions ++ r.2.2⟩
  | .handle e currentStoringCapacity => j.step (.handle e currentStoringCapacity)

/-! ### Every request is served -/

/-- The table is not spilled to the folder, and every word has a cell. -/
def Op.Admits : Op → Prop
  | .serve queue _ => ∀ word ∈ History.words queue, HashTable.Admissible word
  | .handle e _ => e ≠ .maxTable

def Op.wordCount : Op → ℕ
  | .serve queue _ => (History.words queue).length
  | .handle _ _ => 0

def Text (source : WString) : Prop := ∃ site, Generated site ∧ source = site.toString

/-- The index returns from every call, and holds texts of generated sites. -/
structure Serves (s : InvertedIndex) : Prop where
  able : s.Able
  stores : s.Stores Text

theorem new_serves : Serves InvertedIndex.new := ⟨InvertedIndex.able_new, InvertedIndex.stores_new⟩

section sections

variable {fm} (hsections : ∀ si ∈ fm.getSections, find si.name sectionType 0 = none)
include hsections

theorem get_eq_of_none (s : InvertedIndex) (word : WString) :
    s.get load fm word = s.get noValue noSections word := by
  rw [InvertedIndex.get, InvertedIndex.get]
  apply bind_congr
  intro wordIdVector
  split
  · rfl
  · apply bind_congr
    intro id
    apply bind_congr
    intro result
    rw [Journal.loadSections_of_none hsections]
    rfl

theorem Serves.get {s : InvertedIndex} (h : Serves s) (hids : s.dictIdCounter ≤ 10 ^ 10)
    {word : WString} (hword : HashTable.Admissible word) :
    ∃ keyValue, s.get load fm word = .ok keyValue ∧ ∀ source ∈ keyValue, Text source := by
  rw [get_eq_of_none load hsections]
  have hreturns : ∃ keyValue, s.get noValue noSections word = .ok keyValue :=
    h.able.exists_get hids (List.forall_mem_nil _) hword
  obtain ⟨keyValue, hget⟩ := hreturns
  refine ⟨keyValue, hget, ?_⟩
  obtain ⟨wordIdVector, _, hget⟩ := Exec.bind_eq_ok.mp hget
  split at hget
  · cases hget
    exact fun _ h => by cases h
  · obtain ⟨id, _, hget⟩ := Exec.bind_eq_ok.mp hget
    obtain ⟨value, htable, hget⟩ := Exec.bind_eq_ok.mp hget
    cases hget
    exact fun source hsource => h.stores.sound.get_within h.stores.within htable hsource

theorem Serves.foundResults {s : InvertedIndex} (h : Serves s) (hids : s.dictIdCounter ≤ 10 ^ 10)
    {keys : List WString} (hkeys : ∀ key ∈ keys, HashTable.Admissible key) {result : List Site}
    (hresult : ∀ site ∈ result, Generated site) :
    ∃ found, foundResults load fm s keys result = .ok found ∧ ∀ site ∈ found, Generated site := by
  induction keys generalizing result with
  | nil => exact ⟨result, rfl, hresult⟩
  | cons key rest ih =>
      obtain ⟨keyValue, hget, htexts⟩ := h.get load hsections hids (hkeys key List.mem_cons_self)
      obtain ⟨sites, hsites, hgenerated⟩ := exists_mapM_toSite htexts
      rw [IndexServer.foundResults, hget, Exec.ok_bind, hsites, Exec.ok_bind]
      refine ih (fun k hk => hkeys k (List.mem_cons_of_mem _ hk)) fun site hsite => ?_
      exact (List.mem_append.mp hsite).elim (hresult site) (hgenerated site)

/-- The request is served from what has been generated, now or before, and there is enough. -/
theorem Serves.serve {s : InvertedIndex} (h : Serves s) {queue : WString}
    (hwords : ∀ word ∈ History.words queue, HashTable.Admissible word)
    (hids : s.dictIdCounter + (History.words queue).length ≤ 10 ^ 10)
    (distribution : ℕ → Fin characters.length) :
    ∃ result s' insertions,
      clientTaskHandler load fm s queue resultCount distribution = .ok (result, s', insertions) ∧
        resultCount ≤ result.length ∧ (∀ site ∈ result, Generated site) ∧ Serves s' ∧
          s'.dictIdCounter ≤ s.dictIdCounter + (History.words queue).length := by
  obtain ⟨keys, hsplit, _⟩ := exists_split queue (List.cons_ne_nil (32 : WChar) [])
  have hkeys : History.words queue = keys := by rw [History.words, hsplit]; rfl
  rw [hkeys] at hwords hids ⊢
  obtain ⟨found, hfound, hgenerated⟩ :=
    h.foundResults load hsections (by omega) hwords (List.forall_mem_nil _)
  rw [clientTaskHandler, hsplit, Exec.ok_bind, hfound, Exec.ok_bind]
  by_cases hfew : found.length < resultCount
  · rw [if_pos hfew]
    have hall : ∀ site ∈ generateRandomSiteVector 4 resultCount distribution, Generated site :=
      fun site => mem_generateRandomSiteVector
    have htexts : ∀ source ∈ (generateRandomSiteVector 4 resultCount distribution).map
        Site.toString, Text source := by
      intro source hsource
      obtain ⟨site, hsite, rfl⟩ := List.mem_map.mp hsource
      exact ⟨site, hall site hsite, rfl⟩
    obtain ⟨s', hadd, hable, hcounter⟩ := h.able.addWords _ hwords hids
    have hlogged := InvertedIndex.map_fst_addLogged s queue
      ((generateRandomSiteVector 4 resultCount distribution).map Site.toString)
    rw [InvertedIndex.add, hsplit, Exec.ok_bind, hadd] at hlogged
    cases hrun : s.addLogged queue
        ((generateRandomSiteVector 4 resultCount distribution).map Site.toString) with
    | error fault =>
        rw [hrun] at hlogged
        cases hlogged
    | ok r =>
        rw [hrun] at hlogged
        obtain rfl : r.1 = s' := Except.ok.inj hlogged
        refine ⟨extendVector found (generateRandomSiteVector 4 resultCount distribution), r.1, r.2,
          by dsimp only; rw [hrun]; rfl, ?_, ?_, ⟨hable, h.stores.addWords htexts hadd⟩, hcounter⟩
        · rw [extendVector, List.length_append, length_generateRandomSiteVector]
          exact Nat.le_add_left _ _
        · intro site hsite
          exact (List.mem_append.mp hsite).elim (hgenerated site) (hall site)
  · rw [if_neg hfew]
    exact ⟨found, s, [], rfl, Nat.not_lt.mp hfew, hgenerated, h, Nat.le_add_right _ _⟩

theorem Serves.step {j : Journal} (h : Serves j.index) {op : Op} (hop : op.Admits)
    (hids : j.index.dictIdCounter + op.wordCount ≤ 10 ^ 10) :
    ∃ j', Requests.step load fm resultCount j op = some j' ∧ Serves j'.index ∧
      j'.index.dictIdCounter ≤ j.index.dictIdCounter + op.wordCount := by
  cases op with
  | serve queue distribution =>
      obtain ⟨result, s', insertions, hrun, _, _, hserves, hcounter⟩ :=
        h.serve load resultCount hsections hop hids distribution
      refine ⟨⟨s', j.insertions ++ insertions⟩, ?_, hserves, hcounter⟩
      rw [Requests.step, hrun]
      rfl
  | handle e stored =>
      obtain ⟨s', hrun, hcounter⟩ := h.able.exists_handle e stored
      refine ⟨⟨s', j.insertions.filter fun i => Journal.keeps j.index e i.word⟩, ?_,
        ⟨h.able.handle hrun, h.stores.handle hrun⟩, hcounter.le⟩
      rw [Requests.step, Journal.step, hrun]
      rfl

/-- As long as nothing is spilled to the folder, every request is served, whatever was asked and
whichever exceptions were handled before: the handler returns, with as many sites as it should or
more, and every one of them is a generated site. -/
theorem run_serves {ops : List Op} (hops : ∀ op ∈ ops, op.Admits) {queue : WString}
    (hwords : ∀ word ∈ History.words queue, HashTable.Admissible word)
    (hcount : (ops.map Op.wordCount).sum + (History.words queue).length < 10 ^ 10) :
    ∃ j, Machine.run (step load fm resultCount) Journal.start ops = some j ∧
      ∀ distribution, ∃ result s' insertions,
        clientTaskHandler load fm j.index queue resultCount distribution =
          .ok (result, s', insertions) ∧
        resultCount ≤ result.length ∧ ∀ site ∈ result, Generated site := by
  obtain ⟨j, hrun, hserves, _, hids⟩ := Machine.exists_run
    (fun ops (j : Journal) => Serves j.index ∧ (∀ op ∈ ops, op.Admits) ∧
      j.index.dictIdCounter + (ops.map Op.wordCount).sum + (History.words queue).length ≤ 10 ^ 10)
    (by
      rintro op rest j ⟨hserves, hops, hids⟩
      rw [List.map_cons, List.sum_cons] at hids
      obtain ⟨j', hstep, hserves', hcounter⟩ :=
        hserves.step load resultCount hsections (hops op List.mem_cons_self) (by omega)
      exact ⟨j', hstep, hserves', fun o ho => hops o (List.mem_cons_of_mem _ ho), by omega⟩)
    (s := Journal.start) ⟨new_serves, hops, by
      rw [show Journal.start.index.dictIdCounter = 1 from rfl]
      omega⟩
  refine ⟨j, hrun, fun distribution => ?_⟩
  rw [List.map_nil, List.sum_nil, Nat.add_zero] at hids
  obtain ⟨result, s', insertions, hserve, henough, hgenerated, _⟩ :=
    hserves.serve load resultCount hsections hwords hids distribution
  exact ⟨result, s', insertions, hserve, henough, hgenerated⟩

end sections

theorem length_characters_pos : 0 < characters.length := by decide

def firstCharacter (_ : ℕ) : Fin characters.length := ⟨0, length_characters_pos⟩

/-- The table grows between two requests. -/
def grown : List Op :=
  [.serve [97, 32, 98] firstCharacter, .handle .fullTable 0, .serve [97] firstCharacter]

theorem grown_serves : ∃ j, Machine.run (step noValue noSections 2) Journal.start grown = some j ∧
    ∀ distribution, ∃ result s' insertions,
      clientTaskHandler noValue noSections j.index [98] 2 distribution =
        .ok (result, s', insertions) ∧
      2 ≤ result.length ∧ ∀ site ∈ result, Generated site := by
  have hops : ∀ op ∈ grown, op.Admits := by
    simp only [grown, List.forall_mem_cons]
    exact ⟨by unfold Op.Admits; decide, by unfold Op.Admits; decide, by unfold Op.Admits; decide,
      List.forall_mem_nil _⟩
  exact run_serves noValue 2 (List.forall_mem_nil _) hops (by decide) (by decide)

/-! ### The same request again -/

def Gives (s : InvertedIndex) (key : WString) (sites : List Site) : Prop :=
  ∃ keyValue, s.get load fm key = .ok keyValue ∧ keyValue.mapM Site.toSite = .ok sites

variable {load fm} {s s' : InvertedIndex} {keys : List WString}

theorem foundResults_eq_ok {result found : List Site} :
    foundResults load fm s keys result = .ok found ↔
      ∃ parts, List.Forall₂ (Gives load fm s) keys parts ∧ found = result ++ parts.flatten := by
  induction keys generalizing result with
  | nil =>
      rw [foundResults, Except.ok.injEq]
      constructor
      · rintro rfl
        exact ⟨[], .nil, (List.append_nil _).symm⟩
      · rintro ⟨_, ⟨⟩, rfl⟩
        exact (List.append_nil _).symm
  | cons key rest ih =>
      rw [foundResults]
      constructor
      · intro h
        obtain ⟨keyValue, hget, h⟩ := Exec.bind_eq_ok.mp h
        obtain ⟨sites, hsites, h⟩ := Exec.bind_eq_ok.mp h
        obtain ⟨parts, hparts, rfl⟩ := ih.mp h
        exact ⟨sites :: parts, .cons ⟨keyValue, hget, hsites⟩ hparts, by simp⟩
      · rintro ⟨_, _ | @⟨_, sites, _, parts, ⟨keyValue, hget, hsites⟩, hparts⟩, rfl⟩
        rw [hget, Exec.ok_bind, hsites, Exec.ok_bind]
        exact ih.mpr ⟨parts, hparts, by simp⟩

/-- Where every lookup gives more by the same sites, the loop gives what it gave and the sites. -/
theorem foundResults_mono {found sites : List Site} (hkeys : keys ≠ [])
    (hmore : ∀ key ∈ keys, ∀ part, Gives load fm s key part → Gives load fm s' key (part ++ sites))
    (hfound : foundResults load fm s keys [] = .ok found) :
    ∃ found', foundResults load fm s' keys [] = .ok found' ∧ found.Sublist found' ∧
      sites.Sublist found' := by
  obtain ⟨parts, hparts, rfl⟩ := foundResults_eq_ok.mp hfound
  have hjoined : ∃ parts', List.Forall₂ (Gives load fm s') keys parts' ∧
      parts.flatten.Sublist parts'.flatten ∧ (keys ≠ [] → sites.Sublist parts'.flatten) := by
    clear hkeys hfound
    induction hparts with
    | nil => exact ⟨[], .nil, .refl _, fun h => absurd rfl h⟩
    | @cons key part rest parts hpart _ ih =>
        obtain ⟨parts', hparts', hold, _⟩ := ih fun k hk => hmore k (List.mem_cons_of_mem _ hk)
        refine ⟨(part ++ sites) :: parts', .cons (hmore key List.mem_cons_self part hpart) hparts',
          ?_, fun _ => ?_⟩
        · rw [List.flatten_cons, List.flatten_cons]
          exact (List.sublist_append_left part sites).append hold
        · rw [List.flatten_cons]
          exact (List.sublist_append_right part sites).trans (List.sublist_append_left _ _)
  obtain ⟨parts', hparts', hold, hnew⟩ := hjoined
  exact ⟨parts'.flatten, foundResults_eq_ok.mpr ⟨parts', hparts', rfl⟩, hold, hnew hkeys⟩

/-- The insertions of the step, and those that a growth makes, are harmless. -/
def Harmless (load : WString → WString → Exec (List WString)) (fm : FileManager) (resultCount : ℕ)
    (j : Journal) : Op → Prop
  | .serve queue distribution => ∀ found,
      foundResults load fm j.index (History.words queue) [] = .ok found →
        found.length < resultCount → Journal.HarmlessWords
          ((generateRandomSiteVector 4 resultCount distribution).map Site.toString)
          (History.words queue) j.index
  | .handle e currentStoringCapacity => Journal.Harmless j.index (.handle e currentStoringCapacity)

theorem clientTaskHandler_cases {queue : WString} {distribution : ℕ → Fin characters.length}
    {result : List Site} {insertions : List Insertion}
    (hrun : clientTaskHandler load fm s queue resultCount distribution =
      .ok (result, s', insertions)) :
    ∃ found, split queue [32] = .ok (History.words queue) ∧
      foundResults load fm s (History.words queue) [] = .ok found ∧
      (resultCount ≤ found.length ∧ result = found ∧ s' = s ∧ insertions = [] ∨
        found.length < resultCount ∧
          result = found ++ generateRandomSiteVector 4 resultCount distribution ∧
          InvertedIndex.addWordsLogged
            ((generateRandomSiteVector 4 resultCount distribution).map Site.toString)
            (History.words queue) s = .ok (s', insertions)) := by
  obtain ⟨keys, hkeys, hrun⟩ := Exec.bind_eq_ok.mp hrun
  obtain ⟨found, hfound, hrun⟩ := Exec.bind_eq_ok.mp hrun
  have hwords : History.words queue = keys := by rw [History.words, hkeys]; rfl
  rw [hwords]
  refine ⟨found, hkeys, hfound, ?_⟩
  by_cases hfew : found.length < resultCount
  · rw [if_pos hfew] at hrun
    obtain ⟨⟨index, log⟩, hadd, hrun⟩ := Exec.bind_eq_ok.mp hrun
    cases hrun
    rw [InvertedIndex.addLogged, hkeys] at hadd
    exact .inr ⟨hfew, rfl, hadd⟩
  · rw [if_neg hfew] at hrun
    cases hrun
    exact .inl ⟨Nat.not_lt.mp hfew, rfl, rfl, rfl⟩

theorem tells_step {j j' : Journal} {op : Op}
    (h : Journal.Tells j.index j.insertions ∧ Journal.Given j.index)
    (hguard : Harmless load fm resultCount j op)
    (hstep : step load fm resultCount j op = some j') :
    Journal.Tells j'.index j'.insertions ∧ Journal.Given j'.index := by
  cases op with
  | serve queue distribution =>
      obtain ⟨⟨result, index, insertions⟩, hserve, rfl⟩ := Option.map_eq_some_iff.mp hstep
      obtain ⟨found, _, hfound, ⟨_, _, rfl, rfl⟩ | ⟨hfew, _, hadd⟩⟩ :=
        clientTaskHandler_cases resultCount (Exec.toOption_eq_some.mp hserve)
      · rw [List.append_nil]
        exact h
      · exact h.1.addWords h.2 (hguard found hfound hfew) hadd
  | handle e stored => exact Journal.tells_step h.1 h.2 hguard hstep

/-- The same request again is served from the index alone, with every site of the first answer, as
long as the words of the query are accepted and no insertion goes astray. -/
theorem run_servedAgain (hsections : ∀ si ∈ fm.getSections, find si.name sectionType 0 = none)
    {ops : List Op} {j : Journal} {queue : WString}
    {distribution distribution' : ℕ → Fin characters.length} {result : List Site}
    {insertions : List Insertion}
    (hguard : Machine.Meets (step load fm resultCount) (Harmless load fm resultCount) Journal.start
      (ops ++ [.serve queue distribution]))
    (hrun : Machine.run (step load fm resultCount) Journal.start ops = some j)
    (hwords : ∀ word ∈ History.words queue, HashTable.Admissible word)
    (hdistinct : (History.words queue).Nodup)
    (hfirst : clientTaskHandler load fm j.index queue resultCount distribution =
      .ok (result, s', insertions))
    (haccepted : ∀ insertion ∈ insertions, insertion.accepted) :
    (insertions = [] ∨ PassesOnce (History.words queue)
      (generateRandomSiteVector 4 resultCount distribution) insertions) ∧
    ∃ again, clientTaskHandler load fm s' queue resultCount distribution' = .ok (again, s', []) ∧
      resultCount ≤ again.length ∧ ∀ site ∈ result, site ∈ again := by
  obtain ⟨hguard, hlast⟩ := (Machine.meets_snoc hrun).mp hguard
  have htells : Journal.Tells j.index j.insertions ∧ Journal.Given j.index :=
    Machine.run_invariant_of_meets
      (fun j : Journal => Journal.Tells j.index j.insertions ∧ Journal.Given j.index)
      (fun _ _ _ h hguard hstep => tells_step resultCount h hguard hstep)
      ⟨.empty ⟨_, Named.new (by decide) _⟩ (HashTable.new_settled _), Journal.given_new⟩ hguard hrun
  obtain ⟨found, hsplit, hfound, ⟨hmany, rfl, rfl, rfl⟩ | ⟨hfew, rfl, hadd⟩⟩ :=
    clientTaskHandler_cases resultCount hfirst
  · refine ⟨.inl rfl, result, ?_, hmany, fun _ => id⟩
    rw [clientTaskHandler, hsplit, Exec.ok_bind, hfound, Exec.ok_bind,
      if_neg (Nat.not_lt.mpr hmany)]
    rfl
  · obtain ⟨hafter, hgiven⟩ := htells.1.addWords htells.2 (hlast found hfound hfew) hadd
    have hall := InvertedIndex.addWordsLogged_accepted hadd haccepted
    have hpassed : ∀ key ∈ History.words queue, passedTo key insertions =
        (generateRandomSiteVector 4 resultCount distribution).map Site.toString := by
      intro key hkey
      obtain ⟨i, hi⟩ := List.getElem?_of_mem hkey
      rw [hall, passedTo_mapIdx hdistinct _ hi]
    have hmore : ∀ key ∈ History.words queue, ∀ part, Gives load fm j.index key part →
        Gives load fm s' key (part ++ generateRandomSiteVector 4 resultCount distribution) := by
      rintro key hkey part ⟨keyValue, hget, hpart⟩
      have hbefore : j.index.get load fm key = .ok (passedTo key j.insertions) :=
        htells.1.get htells.2 hsections (hwords key hkey)
      obtain rfl : passedTo key j.insertions = keyValue := Except.ok.inj (hbefore.symm.trans hget)
      refine ⟨_, hafter.get hgiven hsections (hwords key hkey), ?_⟩
      rw [passedTo_append, hpassed key hkey, List.mapM_append, hpart, Exec.ok_bind,
        mapM_toSite fun _ => mem_generateRandomSiteVector]
      rfl
    obtain ⟨again, hagain, hold, hnew⟩ :=
      foundResults_mono ((split_eq_ok (List.cons_ne_nil _ _)).mp hsplit).ne_nil hmore hfound
    have hmany : resultCount ≤ again.length := by
      have hlength := hnew.length_le
      rwa [length_generateRandomSiteVector] at hlength
    refine ⟨.inr fun key hkey => (hpassed key hkey).symm ▸ .refl _, again, ?_, hmany, ?_⟩
    · rw [clientTaskHandler, hsplit, Exec.ok_bind, hagain, Exec.ok_bind,
        if_neg (Nat.not_lt.mpr hmany)]
      rfl
    · intro site hsite
      rcases List.mem_append.mp hsite with hsite | hsite
      · exact hold.subset hsite
      · exact hnew.subset hsite

instance (j : Journal) : ∀ op, Decidable (Harmless load fm resultCount j op)
  | .serve queue distribution =>
      decidable_of_iff (∀ found ∈ (foundResults load fm j.index (History.words queue) []).toOption,
        found.length < resultCount → Journal.HarmlessWords
          ((generateRandomSiteVector 4 resultCount distribution).map Site.toString)
          (History.words queue) j.index)
        ⟨fun h found hfound => h found (Exec.toOption_eq_some.mpr hfound),
          fun h found hfound => h found (Exec.toOption_eq_some.mp hfound)⟩
  | .handle _ _ => inferInstanceAs (Decidable (Journal.Harmless _ _))

/-- A word that a growth of the table has forgotten, and a new one. -/
def newWords : WString := [98, 32, 99]

theorem newWords_servedAgain : ∃ j result s' insertions,
    Machine.run (step noValue noSections 2) Journal.start grown = some j ∧
    clientTaskHandler noValue noSections j.index newWords 2 firstCharacter =
      .ok (result, s', insertions) ∧
    (insertions = [] ∨ PassesOnce (History.words newWords)
      (generateRandomSiteVector 4 2 firstCharacter) insertions) ∧
    ∃ again, clientTaskHandler noValue noSections s' newWords 2 firstCharacter =
      .ok (again, s', []) ∧ 2 ≤ again.length ∧ ∀ site ∈ result, site ∈ again := by
  have hguard : Machine.Meets (step noValue noSections 2) (Harmless noValue noSections 2)
      Journal.start (grown ++ [.serve newWords firstCharacter]) := by decide +kernel
  have hserves : ((Machine.run (step noValue noSections 2) Journal.start grown).bind fun j =>
      (clientTaskHandler noValue noSections j.index newWords 2 firstCharacter).toOption.map fun r =>
        decide (∀ insertion ∈ r.2.2, insertion.accepted)) = some true := by decide +kernel
  obtain ⟨j, hrun, hserves⟩ := Option.bind_eq_some_iff.mp hserves
  obtain ⟨⟨result, s', insertions⟩, hfirst, haccepted⟩ := Option.map_eq_some_iff.mp hserves
  have hfirst := Exec.toOption_eq_some.mp hfirst
  exact ⟨j, result, s', insertions, hrun, hfirst, run_servedAgain 2 (List.forall_mem_nil _) hguard
    hrun (by decide) (by decide) hfirst (of_decide_eq_true haccepted)⟩

end Requests

end IndexServer
