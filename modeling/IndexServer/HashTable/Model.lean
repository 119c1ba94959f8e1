import IndexServer.Base
import IndexServer.Lib.Machine

/-!
# The hash table

`HashTable.h` and `HashTable.cpp` for calls made one at a time. No growth is then in progress when a
call starts, so `checkIncreaseProcess` falls through and nobody is ever parked: `increaseInProcess`
is false and `currentStopedThreadCount` is zero throughout, and neither is part of the state. The
locked sections are kept as the accesses they make, to the mutex and to the vector.

The tests of the two loads are exact in `double` for every size below `2 ^ 51`, so
`(long long)((double)size * 0.75)` is `3 * size / 4` and the floor of a quotient by `32.0` is the
integer quotient.
-/

namespace IndexServer

structure HashItem where
  key : WString
  value : List WString
  byteSize : Int
  next : Int
  deriving DecidableEq, Repr

/-- The members of `HashTable` that a call reads or writes; of the vector of mutexes only its length
matters to a single caller. -/
structure HashTable where
  size : Nat
  count : Nat
  currentCapacity : Nat
  items : List HashItem
  colisions : List HashItem
  itemsMutexesSize : Nat
  itemsMutexes : Nat
  busyThreadCount : Int
  deriving DecidableEq, Repr

namespace HashTable

def maxCapacity : Nat := 2000000000

def itemsSizeOnItemsMutexRatio : Nat := 32

def createNewVector (s : Nat) : List HashItem := List.replicate s ⟨[], [], -1, -1⟩

/-- The constructor `HashTable(long long size)`. -/
def new (size : Nat) : HashTable :=
  let itemsMutexesSize :=
    if size < itemsSizeOnItemsMutexRatio then 1 else size / itemsSizeOnItemsMutexRatio
  { size, count := 0, currentCapacity := 0, items := createNewVector size, colisions := [],
    itemsMutexesSize, itemsMutexes := itemsMutexesSize, busyThreadCount := 0 }

/-- The variable `hash` of `hashFunction` after its loop. -/
def hash (key : WString) : Int := key.foldl (fun h c => wrap64 (33 * h + c.toNat)) 5381

def hashFunction (key : WString) (tableSize : Int) : Int := (abs64 (hash key)).tmod tableSize

def getItemCapacity (item : HashItem) : Nat :=
  8 * 2 + item.key.length + getVectorByteSize item.value

def getMutexIndex (T : HashTable) (itemIndex : Int) : Int :=
  let mutexIndex := itemIndex / itemsSizeOnItemsMutexRatio
  if mutexIndex ≥ T.itemsMutexesSize then T.itemsMutexesSize - 1 else mutexIndex

/-- The load at which `add` refuses a free cell: `size * percent`. -/
def loadLimit (T : HashTable) : Nat := 3 * T.size / 4

/-! ### The locked sections -/

/-- `itemsMutexes[mutexIndex].lock()`, with nobody else holding it. -/
def lockMutex (T : HashTable) (mutexIndex : Int) : Exec Unit :=
  if 0 ≤ mutexIndex ∧ mutexIndex < T.itemsMutexes then .ok () else .error .outOfRange

/-- The section that copies `items[index]`. -/
def readCell (T : HashTable) (index : Int) : Exec HashItem := do
  T.lockMutex (T.getMutexIndex index)
  vectorGet T.items index

/-- The section that writes into `items[index]`. -/
def modifyCell (T : HashTable) (index : Int) (f : HashItem → HashItem) : Exec HashTable := do
  T.lockMutex (T.getMutexIndex index)
  let cell ← vectorGet T.items index
  let items ← vectorSet T.items index (f cell)
  return { T with items }

/-! ### Lookup and insertion -/

/-- The loop of `get`. It follows links, so it returns within as many rounds as there are entries
besides the head, or goes round for ever. -/
def getLoop (colisions : List HashItem) (key : WString) : Nat → HashItem → Exec (List WString)
  | 0, _ => .error .noReturn
  | fuel + 1, item =>
      if key = item.key then .ok item.value
      else if item.next = -1 then .ok []
      else do
        let item ← vectorGet colisions item.next
        getLoop colisions key fuel item

def get (T : HashTable) (key : WString) : Exec (List WString) := do
  let index := hashFunction key T.size
  let item ← T.readCell index
  if item.value.length > 0 then getLoop T.colisions key (T.colisions.length + 1) item
  else return []

def handleCollisionLoop (item : HashItem) (index : Int) :
    Nat → HashTable → HashItem → Exec HashTable
  | 0, _, _ => .error .noReturn
  | fuel + 1, T, currentItem =>
      if currentItem.key = item.key then do
        let T ← T.modifyCell index fun cell =>
          { cell with value := extendVector currentItem.value item.value }
        return { T with currentCapacity := T.currentCapacity + getVectorByteSize item.value }
      else if currentItem.next = -1 then
        let T := { T with colisions := T.colisions ++ [item] }
        let colisionSize := T.colisions.length
        T.modifyCell index fun cell => { cell with next := colisionSize - 1 }
      else do
        let currentItem ← vectorGet T.colisions currentItem.next
        let T := { T with
          count := T.count + 1
          currentCapacity := T.currentCapacity + getItemCapacity item }
        handleCollisionLoop item index fuel T currentItem

def handleCollision (T : HashTable) (item : HashItem) (colisionIndex : Int) : Exec HashTable := do
  let currentItem ← T.readCell colisionIndex
  handleCollisionLoop item colisionIndex (T.colisions.length + 1) T currentItem

/-- The entry that `add` makes of its arguments. -/
def newItem (key : WString) (value : List WString) : HashItem :=
  { key, value, byteSize := getVectorByteSize value, next := -1 }

def add (T : HashTable) (key : WString) (value : List WString) : Exec (HashTable × Nat) := do
  let item := newItem key value
  let index := hashFunction key T.size
  let currentItem ← T.readCell index
  let itemCapacity := getItemCapacity item
  if T.currentCapacity + itemCapacity ≥ maxCapacity then
    return (T, 2)
  else if currentItem.value.length = 0 then
    if T.count ≥ T.loadLimit then
      return (T, 1)
    else
      let T ← T.modifyCell index fun _ => item
      return ({ T with
        count := T.count + 1
        currentCapacity := T.currentCapacity + itemCapacity }, 0)
  else if item.key = currentItem.key then
    let T ← T.modifyCell index fun cell =>
      { cell with value := extendVector currentItem.value item.value }
    return ({ T with currentCapacity := T.currentCapacity + itemCapacity }, 0)
  else
    let T ← T.handleCollision item index
    return (T, 0)

/-! ### Growth -/

/-- The local vectors of `increaseTable`. -/
structure Growth where
  newItemsVector : List HashItem
  tmpColisions : List HashItem

/-- What both loops of `increaseTable` do with an entry. -/
def Growth.place (g : Growth) (newSize : Nat) (item : HashItem) : Exec Growth := do
  let index := hashFunction item.key newSize
  let currentItem ← vectorGet g.newItemsVector index
  if currentItem.value.length > 0 then
    if currentItem.key ≠ item.key then
      return { g with tmpColisions := g.tmpColisions ++ [item] }
    else
      let newItemsVector ← vectorSet g.newItemsVector index
        { currentItem with
          value := extendVector currentItem.value item.value
          byteSize := currentItem.byteSize + item.byteSize }
      return { g with newItemsVector }
  else
    let newItemsVector ← vectorSet g.newItemsVector index item
    return { g with newItemsVector }

/-- The first loop of `increaseTable`: a cell with a non-empty value is skipped. -/
def growItems (T : HashTable) (newSize : Nat) : List Nat → Growth → Exec Growth
  | [], g => .ok g
  | i :: rest, g => do
      let item ← T.readCell i
      if item.value.length > 0 then growItems T newSize rest g
      else do
        let g ← g.place newSize item
        growItems T newSize rest g

/-- The second loop of `increaseTable`. -/
def growColisions (T : HashTable) (newSize : Nat) : List Nat → Growth → Exec Growth
  | [], g => .ok g
  | i :: rest, g => do
      let item ← vectorGet T.colisions i
      let g ← g.place newSize { item with next := -1 }
      growColisions T newSize rest g

def mutexCount (T : HashTable) : Nat :=
  if T.size > itemsSizeOnItemsMutexRatio then 2 * T.size / itemsSizeOnItemsMutexRatio else 1

/-- The members that `increaseTable` replaces, `colisions` by an empty vector. -/
def install (T : HashTable) (g : Growth) : HashTable :=
  { T with
    size := 2 * T.size
    items := g.newItemsVector
    colisions := []
    itemsMutexesSize := T.mutexCount
    itemsMutexes := T.mutexCount }

/-- `increaseTable` up to the replacement of its vectors, with the entries that are still to be
added. The wait for `busyThreadCount` parked threads compares as `unsigned`, and no thread parks. -/
def rehash (T : HashTable) : Exec (HashTable × List HashItem) := do
  let newSize := 2 * T.size
  let g ← T.growItems newSize (List.range T.size) ⟨createNewVector newSize, []⟩
  let g ← T.growColisions newSize (List.range T.colisions.length) g
  if T.busyThreadCount ≠ 0 then .error .noReturn else return (T.install g, g.tmpColisions)

/-- The last loop of `increaseTable`, which ignores what `add` returns. -/
def readd : HashTable → List HashItem → Exec HashTable
  | T, [] => .ok T
  | T, hi :: rest => do
      let (T, _) ← T.add hi.key hi.value
      readd T rest

def increaseTable (T : HashTable) : Exec (HashTable × Nat) :=
  if 2 * T.size ≥ maxCapacity then return (T, 1)
  else do
    let (T, tmpColisions) ← T.rehash
    let T ← T.readd tmpColisions
    return (T, 0)

/-! ### Runs of calls -/

/-- The hash of the key is not the one value whose `abs` is negative. -/
def Admissible (key : WString) : Prop := hash key ≠ -(2 ^ 63)

instance (key : WString) : Decidable (Admissible key) := inferInstanceAs (Decidable (_ ≠ _))

inductive Op where
  | add (key : WString) (value : List WString)
  | increaseTable
  deriving DecidableEq, Repr

/-- Every key of the call has the property. -/
def Op.Keyed (p : WString → Prop) : Op → Prop
  | .add key _ => p key
  | .increaseTable => True

instance (p : WString → Prop) [DecidablePred p] : DecidablePred (Op.Keyed p)
  | .add key _ => inferInstanceAs (Decidable (p key))
  | .increaseTable => isTrue trivial

/-- One call, for its effect on the table. -/
def step (T : HashTable) : Op → Option HashTable
  | .add key value => (T.add key value).toOption.map Prod.fst
  | .increaseTable => T.increaseTable.toOption.map Prod.fst

/-- The tables that calls made one at a time, with admissible keys, reach from a constructor with at
least one cell. -/
def Reachable (T : HashTable) : Prop :=
  ∃ n ops, 1 ≤ n ∧ (∀ op ∈ ops, op.Keyed Admissible) ∧ Machine.run step (new n) ops = some T

end HashTable

end IndexServer
