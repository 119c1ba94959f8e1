import IndexServer.StringFunctions
import IndexServer.HashTable.Model
import IndexServer.InvertedIndex.Service

/-!
# The inverted index

`add` and the service handlers of `InvertedIndex`, for what they do to the two tables, to the
counter of ids and to the queue of exceptions. The storage folder is the business of `FileManager`;
here a handler is given the amount stored in it. `dictIdCounter` stays below `2 ^ 63` in any run
that a process can make, so its increments are exact.
-/

namespace IndexServer

structure InvertedIndex where
  dictIdCounter : ℕ
  table : HashTable
  dictionary : HashTable
  exceptionQueue : List Exception
  deriving DecidableEq, Repr

namespace InvertedIndex

def startSize : ℕ := 20

/-- `FileManager::maxStoringCapacity`. -/
def maxStoringCapacity : ℕ := 5000000000

def new : InvertedIndex where
  dictIdCounter := 1
  table := HashTable.new startSize
  dictionary := HashTable.new startSize
  exceptionQueue := []

/-! ### Insertion -/

/-- The section that pushes an exception. -/
def push (s : InvertedIndex) (e : Exception) : InvertedIndex :=
  { s with exceptionQueue := s.exceptionQueue ++ [e] }

def dictionaryException : ℕ → Option Exception
  | 1 => some .fullDict
  | 2 => some .maxDict
  | _ => none

def tableException : ℕ → Option Exception
  | 1 => some .fullTable
  | 2 => some .maxTable
  | _ => none

def dictionaryAdd (s : InvertedIndex) (word strLong : WString) : Exec (InvertedIndex × ℕ) := do
  let (dictionary, code) ← s.dictionary.add word [strLong]
  return ({ s with dictionary }, code)

def tableAdd (s : InvertedIndex) (id : WString) (sources : List WString) :
    Exec (InvertedIndex × ℕ) := do
  let (table, code) ← s.table.add id sources
  return ({ s with table }, code)

def countId (s : InvertedIndex) : InvertedIndex := { s with dictIdCounter := s.dictIdCounter + 1 }

/-- The id of a word, which is a new one if the dictionary has none. There is no id if the
dictionary refuses the word. -/
def wordId (s : InvertedIndex) (word : WString) : Exec (InvertedIndex × Option WString) := do
  let wordId ← s.dictionary.get word
  if wordId.length = 0 then
    let strLong := toWString s.dictIdCounter
    let (s, code) ← s.dictionaryAdd word strLong
    match dictionaryException code with
    | some e => return (s.push e, none)
    | none => return (s.countId, some strLong)
  else
    let id ← vectorGet wordId 0
    return (s, some id)

def addWords (sources : List WString) : List WString → InvertedIndex → Exec InvertedIndex
  | [], s => .ok s
  | word :: rest, s => do
      match ← s.wordId word with
      | (s, none) => return s
      | (s, some id) =>
          let (s, code) ← s.tableAdd id sources
          match tableException code with
          | some e => return s.push e
          | none => addWords sources rest s

def add (s : InvertedIndex) (queue : WString) (sources : List WString) : Exec InvertedIndex := do
  let wordList ← split queue [32]
  addWords sources wordList s

/-! ### The service handlers -/

/-- The handler of an exception, with the amount stored in the folder. -/
def handle (s : InvertedIndex) (currentStoringCapacity : ℕ) : Exception → Exec InvertedIndex
  | .ok => .ok s
  | .fullTable => do
      let (table, code) ← s.table.increaseTable
      let s := { s with table }
      return if code = 0 then s else s.push .maxTable
  | .fullDict => do
      let (dictionary, code) ← s.dictionary.increaseTable
      let s := { s with dictionary }
      return if code = 0 then s else s.push .maxDict
  | .maxTable =>
      let s :=
        if s.table.currentCapacity + currentStoringCapacity ≥ maxStoringCapacity then
          s.push .maxMemory
        else s
      .ok { s with table := HashTable.new startSize }
  | .maxDict =>
      .ok { s with table := HashTable.new startSize, dictionary := HashTable.new startSize }
  | .maxMemory => .ok s

def clear (s : InvertedIndex) : InvertedIndex :=
  { s with table := HashTable.new startSize, dictionary := HashTable.new startSize }

/-! ### Runs of operations -/

/-- The operations made one at a time. A handler may run at any time: the theorems about runs hold
whatever the queue of exceptions asks for. -/
inductive Op where
  | add (queue : WString) (sources : List WString)
  | handle (e : Exception) (currentStoringCapacity : ℕ)
  | clear
  deriving DecidableEq, Repr

def step (s : InvertedIndex) : Op → Option InvertedIndex
  | .add queue sources => (s.add queue sources).toOption
  | .handle e currentStoringCapacity => (s.handle currentStoringCapacity e).toOption
  | .clear => some s.clear

end InvertedIndex

end IndexServer
