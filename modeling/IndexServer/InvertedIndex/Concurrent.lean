import IndexServer.InvertedIndex.Ids
import Mathlib.Logic.Function.Basic

/-!
# Concurrent insertions

Any number of calls of `InvertedIndex::add` at once, without growths and clearings. Each access to
the dictionary, to the counter of ids and to the table is one step. A call reads the counter before
it inserts a word and increments it afterwards, so two calls may insert with the same number.
-/

namespace IndexServer

/-- Where a call stands in `InvertedIndex::add`, with what its next step uses. -/
inductive Call where
  | absent
  | looking (word : WString) (rest sources : List WString)
  | counting (word : WString) (rest sources : List WString)
  | inserting (word strLong : WString) (rest sources : List WString)
  | incrementing (word strLong : WString) (rest sources : List WString)
  | posting (id : WString) (rest sources : List WString)
  | raising (e : Exception)
  | returned
  deriving DecidableEq, Repr

namespace Call

/-- The loop over the words goes on. -/
def next (sources : List WString) : List WString → Call
  | [] => .returned
  | word :: rest => .looking word rest sources

def inserted (word strLong : WString) (rest sources : List WString) (code : ℕ) : Call :=
  match InvertedIndex.dictionaryException code with
  | some e => .raising e
  | none => .incrementing word strLong rest sources

def posted (rest sources : List WString) (code : ℕ) : Call :=
  match InvertedIndex.tableException code with
  | some e => .raising e
  | none => next sources rest

/-- The word and the number of a call that has read the counter and neither incremented it nor been
refused. -/
def pending : Call → Option (WString × WString)
  | .inserting word strLong _ _ | .incrementing word strLong _ _ => some (word, strLong)
  | _ => none

end Call

/-- The index and the calls at work on it. -/
structure Insertions (ι : Type) where
  index : InvertedIndex
  call : ι → Call

namespace Insertions

variable {ι : Type}

def new : Insertions ι where
  index := InvertedIndex.new
  call _ := .absent

inductive Command (ι : Type) where
  | start (c : ι) (queue : WString) (sources : List WString)
  /-- `dictionary.get(word)` returns `found`. -/
  | look (c : ι) (word : WString) (found : List WString)
  /-- `dictIdCounter` is read. -/
  | count (c : ι)
  /-- `dictionary.add(word, { strLong })` returns `code`. -/
  | insert (c : ι) (word strLong : WString) (code : ℕ)
  /-- `dictIdCounter` is incremented. -/
  | increment (c : ι)
  /-- `table.add` -/
  | post (c : ι)
  /-- An exception is pushed. -/
  | raise (c : ι)

variable [DecidableEq ι]

def set (s : Insertions ι) (c : ι) (index : InvertedIndex) (p : Call) : Insertions ι where
  index
  call := Function.update s.call c p

@[simp] theorem set_call_self (s : Insertions ι) (c : ι) (index : InvertedIndex) (p : Call) :
    (s.set c index p).call c = p := Function.update_self ..

theorem set_call_ne (s : Insertions ι) {c d : ι} (hdc : d ≠ c) (index : InvertedIndex) (p : Call) :
    (s.set c index p).call d = s.call d := Function.update_of_ne hdc ..

def step (s : Insertions ι) : Command ι → Option (Insertions ι)
  | .start c queue sources =>
      match s.call c, split queue [32] with
      | .absent, .ok wordList => some (s.set c s.index (.next sources wordList))
      | _, _ => none
  | .look c word found =>
      match s.call c with
      | .looking word' rest sources =>
          if word' = word ∧ s.index.dictionary.get word = .ok found then
            match found with
            | [] => some (s.set c s.index (.counting word rest sources))
            | id :: _ => some (s.set c s.index (.posting id rest sources))
          else none
      | _ => none
  | .count c =>
      match s.call c with
      | .counting word rest sources =>
          some (s.set c s.index
            (.inserting word (toWString s.index.dictIdCounter) rest sources))
      | _ => none
  | .insert c word strLong code =>
      match s.call c with
      | .inserting word' strLong' rest sources =>
          if word' = word ∧ strLong' = strLong then
            (s.index.dictionaryAdd word strLong).toOption.bind fun result =>
              if result.2 = code then
                some (s.set c result.1 (.inserted word strLong rest sources code))
              else none
          else none
      | _ => none
  | .increment c =>
      match s.call c with
      | .incrementing _ strLong rest sources =>
          some (s.set c s.index.countId (.posting strLong rest sources))
      | _ => none
  | .post c =>
      match s.call c with
      | .posting id rest sources =>
          (s.index.tableAdd id sources).toOption.map fun result =>
            s.set c result.1 (.posted rest sources result.2)
      | _ => none
  | .raise c =>
      match s.call c with
      | .raising e => some (s.set c (s.index.push e) .returned)
      | _ => none

/-- The word and the id that a call obtains in a step. -/
def Command.obtains : Command ι → Option (WString × WString)
  | .look _ word (id :: _) => some (word, id)
  | .insert _ word strLong 0 => some (word, strLong)
  | _ => none

/-- The words that have obtained ids along a run. -/
def obtained (cs : List (Command ι)) : List (WString × WString) := cs.filterMap Command.obtains

end Insertions

end IndexServer
