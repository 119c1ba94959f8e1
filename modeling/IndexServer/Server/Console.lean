import IndexServer.InvertedIndex.Overflow
import IndexServer.Storage.Model
import IndexServer.Site

/-!
# The console handler

`consoleTaskHandler` with the insertions of words that its calls of `InvertedIndex::add` make. The
list of found sites is pushed to the same vector once for each word of the query and once more for
the query as a whole, and the last call of `add` splits the query into the same words again. The
search is a parameter; the text of the answer is left out.
-/

namespace IndexServer

/-- An attempt of `add` to pass sources to the postings of a word. -/
structure Insertion where
  word : WString
  sources : List WString
  accepted : Bool
  deriving DecidableEq, Repr

namespace InvertedIndex

/-- The loop of `add` with its insertions. -/
def addWordsLogged (sources : List WString) :
    List WString → InvertedIndex → Exec (InvertedIndex × List Insertion)
  | [], s => .ok (s, [])
  | word :: rest, s => do
      match ← s.wordId word with
      | (s, none) => return (s, [⟨word, sources, false⟩])
      | (s, some id) =>
          let (s, code) ← s.tableAdd id sources
          match tableException code with
          | some e => return (s.push e, [⟨word, sources, false⟩])
          | none =>
              let (s, insertions) ← addWordsLogged sources rest s
              return (s, ⟨word, sources, true⟩ :: insertions)

def addLogged (s : InvertedIndex) (queue : WString) (sources : List WString) :
    Exec (InvertedIndex × List Insertion) := do
  let wordList ← split queue [32]
  addWordsLogged sources wordList s

theorem map_fst_addWordsLogged (sources : List WString) (words : List WString)
    (s : InvertedIndex) :
    (addWordsLogged sources words s).map Prod.fst = addWords sources words s := by
  induction words generalizing s with
  | nil => rfl
  | cons word rest ih =>
      rw [addWordsLogged, addWords, Exec.map_bind]
      apply bind_congr
      rintro ⟨s₁, _ | id⟩
      · rfl
      · refine (Exec.map_bind ..).trans (bind_congr ?_)
        rintro ⟨s₂, code⟩
        dsimp only
        cases tableException code with
        | some e => rfl
        | none =>
            dsimp only
            rw [Exec.map_bind, ← ih]
            cases addWordsLogged sources rest s₂ with
            | error => rfl
            | ok => rfl

theorem map_fst_addLogged (s : InvertedIndex) (queue : WString) (sources : List WString) :
    (s.addLogged queue sources).map Prod.fst = s.add queue sources := by
  rw [addLogged, add]
  cases split queue [32] with
  | error => rfl
  | ok words => exact map_fst_addWordsLogged sources words s

theorem addWordsLogged_accepted {sources : List WString} {words : List WString}
    {s s' : InvertedIndex} {insertions : List Insertion}
    (hrun : addWordsLogged sources words s = .ok (s', insertions))
    (haccepted : ∀ insertion ∈ insertions, insertion.accepted) :
    insertions = words.mapIdx fun _ word => ⟨word, sources, true⟩ := by
  induction words generalizing s insertions with
  | nil =>
      cases hrun
      rfl
  | cons word rest ih =>
      obtain ⟨⟨s₁, id⟩, _, hrun⟩ := Exec.bind_eq_ok.mp hrun
      cases id with
      | none =>
          cases hrun
          exact absurd (haccepted _ List.mem_cons_self) Bool.false_ne_true
      | some id =>
          obtain ⟨⟨s₂, code⟩, _, hrun⟩ := Exec.bind_eq_ok.mp hrun
          dsimp only at hrun
          cases hexception : tableException code with
          | some e =>
              rw [hexception] at hrun
              cases hrun
              exact absurd (haccepted _ List.mem_cons_self) Bool.false_ne_true
          | none =>
              rw [hexception] at hrun
              obtain ⟨⟨s₃, others⟩, hrest, hrun⟩ := Exec.bind_eq_ok.mp hrun
              cases hrun
              have hothers := ih hrest fun i hi => haccepted i (List.mem_cons_of_mem _ hi)
              rw [List.mapIdx_cons, hothers]

theorem addLogged_accepted {queue : WString} {sources words : List WString}
    {s s' : InvertedIndex} {insertions : List Insertion} (hwords : split queue [32] = .ok words)
    (hrun : s.addLogged queue sources = .ok (s', insertions))
    (haccepted : ∀ insertion ∈ insertions, insertion.accepted) :
    insertions = words.mapIdx fun _ word => ⟨word, sources, true⟩ := by
  rw [addLogged, hwords] at hrun
  exact addWordsLogged_accepted hrun haccepted

end InvertedIndex

/-- What a task handler reads of a `Task`; `resultCount` is as compared with sizes. -/
structure Task where
  recvBuffer : WString
  resultCount : ℕ
  deriving DecidableEq, Repr

section handler

variable (load : WString → WString → Exec (List WString)) (fm : FileManager)
  (search : WString → ℕ → List Site)

/-- The first loop of `consoleTaskHandler`, with the variable `result`. -/
def cachedResults (s : InvertedIndex) (resultCount : ℕ) :
    List WString → List Site → Exec (List Site)
  | [], result => .ok result
  | key :: rest, result => do
      let keyValue ← s.get load fm key
      let keyValue := if keyValue.length > resultCount then keyValue.take resultCount else keyValue
      let sites ← keyValue.mapM Site.toSite
      cachedResults s resultCount rest (result ++ sites)

/-- The loop over the keys with the found sites, and the variable `value`. -/
def addKeys (sites : List Site) :
    List WString → List WString → InvertedIndex →
      Exec (List WString × InvertedIndex × List Insertion)
  | [], value, s => .ok (value, s, [])
  | key :: rest, value, s => do
      let value := value ++ sites.map Site.toString
      let (s, first) ← s.addLogged key value
      let (value, s, others) ← addKeys sites rest value s
      return (value, s, first ++ others)

/-- `consoleTaskHandler`: the variable `result`, the index, and the insertions. -/
def consoleTaskHandler (s : InvertedIndex) (task : Task) :
    Exec (List Site × InvertedIndex × List Insertion) := do
  let queue := task.recvBuffer
  let keys ← split queue [32]
  let result ← cachedResults load fm s task.resultCount keys []
  if result.length < task.resultCount then
    let sites := search queue (task.resultCount - result.length)
    let (value, s, insertions) ←
      if s.isOverflowed then .ok ([], s, []) else addKeys sites keys [] s
    let result := extendVector result sites
    let value := value ++ sites.map Site.toString
    let (s, last) ← s.addLogged queue value
    return (result, s, insertions ++ last)
  else return (result, s, [])

end handler

/-! ### What a word is passed -/

/-- The sources passed to the postings of a word, one insertion after the other. -/
def passedTo (word : WString) (insertions : List Insertion) : List WString :=
  (insertions.filter fun i => decide (i.word = word) && i.accepted).flatMap Insertion.sources

/-- The texts of the found sites, so many times over. -/
def copies (n : ℕ) (sites : List Site) : List WString :=
  (List.replicate n (sites.map Site.toString)).flatten

/-- Each found site is passed to the postings of each word exactly once. -/
def PassesOnce (words : List WString) (sites : List Site) (insertions : List Insertion) : Prop :=
  ∀ word ∈ words, (passedTo word insertions).Perm (sites.map Site.toString)

theorem passedTo_append (word : WString) (first last : List Insertion) :
    passedTo word (first ++ last) = passedTo word first ++ passedTo word last := by
  rw [passedTo, List.filter_append, List.flatMap_append]
  rfl

theorem passedTo_mapIdx {words : List WString} (hdistinct : words.Nodup)
    (sources : ℕ → List WString) {i : ℕ} {word : WString} (hword : words[i]? = some word) :
    passedTo word (words.mapIdx fun j w => ⟨w, sources j, true⟩) = sources i := by
  induction words generalizing sources i with
  | nil => cases hword
  | cons first rest ih =>
      obtain ⟨hfirst, hrest⟩ := List.nodup_cons.mp hdistinct
      rw [List.mapIdx_cons, ← List.singleton_append, passedTo_append]
      cases i with
      | zero =>
          obtain rfl : first = word := Option.some.inj hword
          have hothers : passedTo first
              (rest.mapIdx fun j w => ⟨w, sources (j + 1), true⟩) = [] := by
            rw [passedTo, List.flatMap_eq_nil_iff]
            intro insertion hinsertion
            obtain ⟨hmem, hown⟩ := List.mem_filter.mp hinsertion
            obtain ⟨j, hj, rfl⟩ := List.mem_mapIdx.mp hmem
            simp only [Bool.and_true, decide_eq_true_eq] at hown
            exact absurd (hown ▸ List.getElem_mem hj) hfirst
          rw [hothers]
          simp [passedTo]
      | succ i =>
          have hne : first ≠ word := by
            rintro rfl
            exact hfirst (List.mem_of_getElem? hword)
          rw [ih hrest (fun j => sources (j + 1)) hword]
          simp [passedTo, hne]

theorem copies_zero (sites : List Site) : copies 0 sites = [] := rfl

theorem copies_succ (n : ℕ) (sites : List Site) :
    copies (n + 1) sites = sites.map Site.toString ++ copies n sites := rfl

theorem copies_add (m n : ℕ) (sites : List Site) :
    copies (m + n) sites = copies m sites ++ copies n sites := by
  rw [copies, List.replicate_add, List.flatten_append]
  rfl

theorem length_copies (n : ℕ) (sites : List Site) :
    (copies n sites).length = n * sites.length := by
  simp [copies]

theorem addKeys_accepted {sites : List Site} {keys value value' : List WString}
    {s s' : InvertedIndex} {insertions : List Insertion}
    (hkeys : ∀ key ∈ keys, split key [32] = .ok [key])
    (hrun : addKeys sites keys value s = .ok (value', s', insertions))
    (haccepted : ∀ insertion ∈ insertions, insertion.accepted) :
    value' = value ++ copies keys.length sites ∧
      insertions = keys.mapIdx fun j key => ⟨key, value ++ copies (j + 1) sites, true⟩ := by
  induction keys generalizing value s insertions with
  | nil =>
      cases hrun
      exact ⟨(List.append_nil _).symm, rfl⟩
  | cons key rest ih =>
      obtain ⟨⟨s₁, first⟩, hfirst, hrun⟩ := Exec.bind_eq_ok.mp hrun
      obtain ⟨⟨value₁, s₂, others⟩, hrest, hrun⟩ := Exec.bind_eq_ok.mp hrun
      cases hrun
      have hone := InvertedIndex.addLogged_accepted (hkeys key List.mem_cons_self) hfirst
        fun i hi => haccepted i (List.mem_append_left _ hi)
      obtain ⟨hvalue, hothers⟩ := ih (fun k hk => hkeys k (List.mem_cons_of_mem _ hk)) hrest
        fun i hi => haccepted i (List.mem_append_right _ hi)
      constructor
      · rw [hvalue, List.length_cons, copies_succ, List.append_assoc]
      · rw [hone, hothers, List.mapIdx_cons, List.mapIdx_nil, List.mapIdx_cons]
        simp only [copies_zero, copies_succ, List.append_nil, List.append_assoc]
        rfl

section once

variable {load : WString → WString → Exec (List WString)} {fm : FileManager}
  {search : WString → ℕ → List Site} {s s' : InvertedIndex} {task : Task} {keys : List WString}
  {cached result : List Site} {insertions : List Insertion}

/-- The i-th of n words is passed i + 1 copies of the list by its own call of `add`, counted from
zero, and n + 1 copies by the call for the query. -/
theorem passedTo_consoleTaskHandler (hkeys : split task.recvBuffer [32] = .ok keys)
    (hdistinct : keys.Nodup) (hroom : s.isOverflowed = false)
    (hcached : cachedResults load fm s task.resultCount keys [] = .ok cached)
    (hfew : cached.length < task.resultCount)
    (hrun : consoleTaskHandler load fm search s task = .ok (result, s', insertions))
    (haccepted : ∀ insertion ∈ insertions, insertion.accepted) {i : ℕ} {word : WString}
    (hword : keys[i]? = some word) :
    passedTo word insertions = copies (i + 1 + (keys.length + 1))
      (search task.recvBuffer (task.resultCount - cached.length)) := by
  have hcuts := (split_eq_ok (List.cons_ne_nil _ _)).mp hkeys
  have hown : ∀ key ∈ keys, split key [32] = .ok [key] := fun key hkey =>
    (split_eq_ok (List.cons_ne_nil _ _)).mpr (.last (hcuts.free key hkey))
  rw [consoleTaskHandler, hkeys, Exec.ok_bind, hcached, Exec.ok_bind, if_pos hfew, hroom] at hrun
  obtain ⟨⟨value, s₁, first⟩, hfirst, hrun⟩ := Exec.bind_eq_ok.mp hrun
  obtain ⟨⟨s₂, last⟩, hlast, hrun⟩ := Exec.bind_eq_ok.mp hrun
  cases hrun
  obtain ⟨rfl, hinsertions⟩ := addKeys_accepted hown hfirst
    fun i hi => haccepted i (List.mem_append_left _ hi)
  have hquery := InvertedIndex.addLogged_accepted hkeys hlast
    fun i hi => haccepted i (List.mem_append_right _ hi)
  rw [passedTo_append, hinsertions, hquery, passedTo_mapIdx hdistinct _ hword,
    passedTo_mapIdx hdistinct _ hword, List.nil_append, List.nil_append, copies_add (i + 1),
    copies_add keys.length, copies_succ 0, copies_zero, List.append_nil]

/-- Each found site is passed to each word exactly once only if none is found. -/
theorem consoleTaskHandler_passesOnce_iff (hkeys : split task.recvBuffer [32] = .ok keys)
    (hdistinct : keys.Nodup) (hroom : s.isOverflowed = false)
    (hcached : cachedResults load fm s task.resultCount keys [] = .ok cached)
    (hfew : cached.length < task.resultCount)
    (hrun : consoleTaskHandler load fm search s task = .ok (result, s', insertions))
    (haccepted : ∀ insertion ∈ insertions, insertion.accepted) :
    PassesOnce keys (search task.recvBuffer (task.resultCount - cached.length)) insertions ↔
      search task.recvBuffer (task.resultCount - cached.length) = [] := by
  have hpassed := fun {i : ℕ} {word : WString} (hword : keys[i]? = some word) =>
    passedTo_consoleTaskHandler hkeys hdistinct hroom hcached hfew hrun haccepted hword
  generalize search task.recvBuffer (task.resultCount - cached.length) = sites at hpassed ⊢
  constructor
  · intro h
    obtain ⟨word, rest, rfl⟩ := List.exists_cons_of_ne_nil
      ((split_eq_ok (List.cons_ne_nil _ _)).mp hkeys).ne_nil
    have hlength := (h word List.mem_cons_self).length_eq
    rw [hpassed (i := 0) rfl, length_copies, List.length_map, List.length_cons] at hlength
    by_contra hfound
    have hsites := List.length_pos_iff.mpr hfound
    have hmore : sites.length * 1 < sites.length * (0 + 1 + (rest.length + 1 + 1)) :=
      Nat.mul_lt_mul_of_pos_left (by omega) hsites
    rw [Nat.mul_one, Nat.mul_comm, hlength] at hmore
    exact Nat.lt_irrefl _ hmore
  · rintro rfl word hword
    obtain ⟨i, hi⟩ := List.getElem?_of_mem hword
    have hnone : copies (i + 1 + (keys.length + 1)) [] = [] :=
      List.eq_nil_of_length_eq_zero (length_copies _ [])
    rw [hpassed hi, hnone]
    exact .nil

theorem passesOnce_of_isOverflowed (hkeys : split task.recvBuffer [32] = .ok keys)
    (hdistinct : keys.Nodup) (hfull : s.isOverflowed = true)
    (hcached : cachedResults load fm s task.resultCount keys [] = .ok cached)
    (hfew : cached.length < task.resultCount)
    (hrun : consoleTaskHandler load fm search s task = .ok (result, s', insertions))
    (haccepted : ∀ insertion ∈ insertions, insertion.accepted) :
    PassesOnce keys (search task.recvBuffer (task.resultCount - cached.length)) insertions := by
  rw [consoleTaskHandler, hkeys, Exec.ok_bind, hcached, Exec.ok_bind, if_pos hfew, hfull] at hrun
  obtain ⟨⟨value, s₁, first⟩, hfirst, hrun⟩ := Exec.bind_eq_ok.mp hrun
  cases hfirst
  obtain ⟨⟨s₂, last⟩, hlast, hrun⟩ := Exec.bind_eq_ok.mp hrun
  cases hrun
  have hquery := InvertedIndex.addLogged_accepted hkeys hlast haccepted
  intro word hword
  obtain ⟨i, hi⟩ := List.getElem?_of_mem hword
  rw [List.nil_append, hquery, passedTo_mapIdx hdistinct _ hi]
  exact .refl _

end once

/-! ### A query for a new index -/

def noSections : FileManager where
  currentStoringCapacity := 0
  sectionsInfo := []
  clearInProcess := false

def noValue (_ _ : WString) : Exec (List WString) := .ok []

/-- The handler with a search that finds these sites. -/
def newIndexHandler (sites : List Site) (task : Task) :
    Exec (List Site × InvertedIndex × List Insertion) :=
  consoleTaskHandler noValue noSections (fun _ _ => sites) InvertedIndex.new task

theorem new_isOverflowed : InvertedIndex.new.isOverflowed = false := by decide +kernel

def twoWords : Task := ⟨[97, 32, 98], 1⟩

theorem nothingFound_passesOnce : ∃ result s' insertions,
    newIndexHandler [] twoWords = .ok (result, s', insertions) ∧
      PassesOnce [[97], [98]] [] insertions := by
  have hrun : (newIndexHandler [] twoWords).toOption.map (fun r =>
      decide (∀ insertion ∈ r.2.2, insertion.accepted)) = some true := by decide +kernel
  obtain ⟨⟨result, s', insertions⟩, hrun, haccepted⟩ := Option.map_eq_some_iff.mp hrun
  have hrun := Exec.toOption_eq_some.mp hrun
  have hcached : cachedResults noValue noSections InvertedIndex.new twoWords.resultCount
      [[97], [98]] [] = .ok [] := by decide +kernel
  have hiff := consoleTaskHandler_passesOnce_iff (by decide) (by decide) new_isOverflowed hcached
    Nat.one_pos hrun (of_decide_eq_true haccepted)
  exact ⟨result, s', insertions, hrun, hiff.mpr rfl⟩

def oneWord : Task := ⟨[97], 1⟩

def foundSite : Site := ⟨[116], [108], [115]⟩

/-- The one word is passed the one found site three times. -/
theorem foundSite_not_passesOnce : ¬ ∀ (load : WString → WString → Exec (List WString))
    (fm : FileManager) (search : WString → ℕ → List Site) (s s' : InvertedIndex) (task : Task)
    (keys : List WString) (cached result : List Site) (insertions : List Insertion),
    split task.recvBuffer [32] = .ok keys → keys.Nodup → s.isOverflowed = false →
      cachedResults load fm s task.resultCount keys [] = .ok cached →
        cached.length < task.resultCount →
          consoleTaskHandler load fm search s task = .ok (result, s', insertions) →
            (∀ insertion ∈ insertions, insertion.accepted) →
              PassesOnce keys (search task.recvBuffer (task.resultCount - cached.length))
                insertions := by
  intro hclaim
  have hrun : (newIndexHandler [foundSite] oneWord).toOption.map (fun r =>
      decide ((∀ insertion ∈ r.2.2, insertion.accepted) ∧ (passedTo [97] r.2.2).length = 3)) =
        some true := by decide +kernel
  obtain ⟨⟨result, s', insertions⟩, hrun, hinsertions⟩ := Option.map_eq_some_iff.mp hrun
  obtain ⟨haccepted, hthree⟩ := of_decide_eq_true hinsertions
  have hcached : cachedResults noValue noSections InvertedIndex.new oneWord.resultCount [[97]] [] =
      .ok [] := by decide +kernel
  have hsplit : split oneWord.recvBuffer [32] = .ok [[97]] := by decide
  have honce := hclaim _ _ _ _ _ _ _ _ _ _ hsplit (List.nodup_singleton _) new_isOverflowed
    hcached Nat.one_pos (Exec.toOption_eq_some.mp hrun) haccepted
  have hone := (honce [97] List.mem_cons_self).length_eq
  rw [hthree] at hone
  cases hone

end IndexServer
