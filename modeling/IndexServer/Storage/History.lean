import IndexServer.Storage.Model
import IndexServer.HashTable.Runs
import IndexServer.HashTable.Lookup

/-!
# Processes over one folder

The processes of the server one after another, each with an `InvertedIndex` of its own, over one
storage folder. `loadItemValue` is taken to return what the table saved in the file holds under the
id, and nothing from a path at which no table was saved. Which files a handler removes, and what the
manager holds once it has read the folder, is open at every step.
-/

namespace IndexServer

/-- The index and the manager of the present process, the tables in the files with their paths, and
the calls of `InvertedIndex::add` that all processes have made. -/
structure History where
  index : InvertedIndex
  fm : FileManager
  files : List (WString × HashTable)
  calls : List (WString × List WString)
  deriving DecidableEq, Repr

namespace History

/-- The first process over an empty folder. -/
def start : History where
  index := InvertedIndex.new
  fm := { currentStoringCapacity := 0, sectionsInfo := [], clearInProcess := false }
  files := []
  calls := []

def load (s : History) (path id : WString) : Exec (List WString) :=
  match s.files.lookup path with
  | some T => T.get id
  | none => .ok []

def get (s : History) (key : WString) : Exec (List WString) := s.index.get s.load s.fm key

/-- The files when the table has been saved. -/
def save (s : History) (path : WString) : List (WString × HashTable) :=
  (path, s.index.table) :: s.files.filter fun f => decide (f.1 ≠ path)

/-- The handler of an exception. `fileName` is the name that `saveTable` takes, `kept` are the paths
of the files that `clearMemory` or `decreaseStoredData` leaves, and `fm` is the manager after it. -/
def handle (s : History) (fileName : WString) (kept : List WString) (fm : FileManager)
    (e : Exception) : Exec History := do
  let index ← s.index.handle s.fm.currentStoringCapacity e
  match e with
  | .maxTable => do
      let _ ← s.index.table.saveTable
      let path := HashTable.savePath (s.fm.getPath ++ fileName)
      return { s with index, fm, files := s.save path }
  | .maxDict => return { s with index, fm, files := s.files.filter fun f => decide (f.1 ∈ kept) }
  | .maxMemory => return { s with index, fm, files := s.files.filter fun f => decide (f.1 ∈ kept) }
  | _ => return { s with index }

inductive Op where
  | add (queue : WString) (sources : List WString)
  | handle (e : Exception) (fileName : WString) (kept : List WString) (fm : FileManager)
  | clear
  /-- The process ends and another one starts, whose manager has read the folder. -/
  | restart (fm : FileManager)
  deriving DecidableEq, Repr

def step (s : History) : Op → Option History
  | .add queue sources =>
      (s.index.add queue sources).toOption.map fun index =>
        { s with index, calls := s.calls ++ [(queue, sources)] }
  | .handle e fileName kept fm => (s.handle fileName kept fm e).toOption
  | .clear => some { s with index := s.index.clear }
  | .restart fm => some { s with index := InvertedIndex.new, fm }

/-! ### What lookups may return -/

def words (queue : WString) : List WString := (split queue [32]).toOption.getD []

/-- A source that was passed to `add` with a query containing the word. -/
def Passed (calls : List (WString × List WString)) (word source : WString) : Prop :=
  ∃ call ∈ calls, word ∈ words call.1 ∧ source ∈ call.2

instance (calls : List (WString × List WString)) (word source : WString) :
    Decidable (Passed calls word source) :=
  inferInstanceAs (Decidable (∃ call ∈ calls, _))

/-- Lookups return nothing but what was passed with their word. -/
def Honest (s : History) : Prop :=
  ∀ word result, s.get word = .ok result → ∀ source ∈ result, Passed s.calls word source

/-! ### Steps that keep lookups honest -/

def found (T : HashTable) (id : WString) : List WString := (T.get id).toOption.getD []

/-- Everything that the files hold under the id was passed with the word. -/
def Owns (files : List (WString × HashTable)) (calls : List (WString × List WString))
    (word id : WString) : Prop :=
  ∀ f ∈ files, ∀ source ∈ found f.2 id, Passed calls word source

instance (files : List (WString × HashTable)) (calls : List (WString × List WString))
    (word id : WString) : Decidable (Owns files calls word id) :=
  inferInstanceAs (Decidable (∀ f ∈ files, _))

/-- A new id is given to a word that owns what the files hold under it, and no id is found at the
entry behind the head of its cell. -/
def CarefulWords (files : List (WString × HashTable)) (calls : List (WString × List WString))
    (sources : List WString) : List WString → InvertedIndex → Prop
  | [], _ => True
  | word :: rest, s => ∀ s₁ id, s.wordId word = .ok (s₁, some id) →
      (s.dictionary.get word = .ok [] → Owns files calls word id) ∧
      ¬ s₁.table.Chained id sources ∧
      ∀ s₂ code, s₁.tableAdd id sources = .ok (s₂, code) →
        InvertedIndex.tableException code = none → CarefulWords files calls sources rest s₂

instance decidableCarefulWords (files : List (WString × HashTable))
    (calls : List (WString × List WString)) (sources : List WString) :
    ∀ wordList s, Decidable (CarefulWords files calls sources wordList s)
  | [], _ => isTrue trivial
  | word :: rest, s =>
      match hword : s.wordId word with
      | .error _ => isTrue fun s₁ id h => by simp [hword] at h
      | .ok (_, none) => isTrue fun s₁ id h => by simp [hword] at h
      | .ok (s₁, some id) =>
          match htable : s₁.tableAdd id sources with
          | .error _ =>
              decidable_of_iff ((s.dictionary.get word = .ok [] → Owns files calls word id) ∧
                ¬ s₁.table.Chained id sources) (by simp [CarefulWords, hword, htable])
          | .ok (s₂, code) =>
              have := decidableCarefulWords files calls sources rest s₂
              decidable_of_iff ((s.dictionary.get word = .ok [] → Owns files calls word id) ∧
                ¬ s₁.table.Chained id sources ∧
                (InvertedIndex.tableException code = none →
                  CarefulWords files calls sources rest s₂)) (by simp [CarefulWords, hword, htable])

/-- A growth of the table re-adds no key that it finds at the entry behind the head of its cell. -/
def Unchained (T : HashTable) : Prop :=
  HashTable.EachAdd (fun T key value => ¬ T.Chained key value) T .increaseTable

instance (T : HashTable) : Decidable (Unchained T) :=
  inferInstanceAs (Decidable (HashTable.EachAdd _ T _))

/-- The condition on a step. -/
def Careful (s : History) : Op → Prop
  | .add queue sources =>
      CarefulWords s.files (s.calls ++ [(queue, sources)]) sources (words queue) s.index
  | .handle .fullTable _ _ _ => Unchained s.index.table
  | .handle .fullDict _ _ _ => Unchained s.index.dictionary
  | _ => True

instance (s : History) (op : Op) : Decidable (s.Careful op) :=
  match op with
  | .add _ _ => inferInstanceAs (Decidable (CarefulWords _ _ _ _ s.index))
  | .handle .fullTable _ _ _ => inferInstanceAs (Decidable (Unchained s.index.table))
  | .handle .fullDict _ _ _ => inferInstanceAs (Decidable (Unchained s.index.dictionary))
  | .handle .ok _ _ _ | .handle .maxTable _ _ _ | .handle .maxDict _ _ _
  | .handle .maxMemory _ _ _ | .clear | .restart _ => isTrue trivial

end History

end IndexServer
