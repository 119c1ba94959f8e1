import IndexServer.HashTable.Model
import IndexServer.SharedTable.Parking

/-!
# A table shared by threads

`HashTable.cpp` for calls of `add` and `get` that run at once, with at most one `increaseTable`
among them. Each section under a mutex and each atomic load, store or update is one step, and so is
each access that takes no mutex where others may run at the same time: that of `get` to `colisions`,
and the replacement of `itemsMutexes` and `items`. Where such accesses overlap (`Races`), a step
here is not what the program does. Between its steps a call only computes with its own variables, so
where it stands is the next access with the variables that are still read. The steps of
`checkIncreaseProcess` and of the handshake in `increaseTable` are those of `Parking`.
-/

namespace IndexServer

namespace HashTable

/-- The section of `itemsMutexes[mutexIndex]` that copies `items[index]`. -/
def readCellAt (T : HashTable) (index mutexIndex : Int) : Exec HashItem := do
  T.lockMutex mutexIndex
  vectorGet T.items index

/-- The section of `itemsMutexes[mutexIndex]` that writes into `items[index]`. -/
def modifyCellAt (T : HashTable) (index mutexIndex : Int) (f : HashItem → HashItem) :
    Exec HashTable := do
  T.lockMutex mutexIndex
  let cell ← vectorGet T.items index
  let items ← vectorSet T.items index (f cell)
  return { T with items }

end HashTable

/-- The sections that a call runs under a mutex of `itemsMutexes`. -/
inductive Access where
  /-- `add` copies the cell. -/
  | find (item : HashItem)
  /-- `add` fills the cell. -/
  | place (item : HashItem)
  /-- `add` extends the value of the cell. -/
  | extend (item currentItem : HashItem)
  /-- `handleCollision` copies the cell. -/
  | collide (item : HashItem)
  /-- `handleCollision` writes the value that it extends. -/
  | merge (item currentItem : HashItem)
  /-- `handleCollision` links what it has pushed. -/
  | link (item : HashItem) (colisionSize : ℕ)
  /-- `get` copies the cell. -/
  | look (key : WString)
  deriving DecidableEq, Repr

def Access.key : Access → WString
  | .find item | .place item | .extend item _ | .collide item | .merge item _ | .link item _ =>
      item.key
  | .look key => key

/-- Where a thread stands in `add` or `get`. -/
inductive Caller where
  | idle
  /-- At the section of `sizeMutex`. -/
  | sizing (access : Access)
  /-- In `checkIncreaseProcess`, or behind it at the first load of `itemsMutexesSize`. -/
  | locating (access : Access) (index : Int)
  /-- At the second load of `itemsMutexesSize`. -/
  | capping (access : Access) (index : Int)
  /-- At the section of `itemsMutexes[mutexIndex]`. -/
  | accessing (access : Access) (index mutexIndex : Int)
  /-- At the load of `currentCapacity` that may refuse the item. -/
  | testing (item : HashItem) (index mutexIndex : Int) (currentItem : HashItem)
  /-- At the load of `count` that may refuse the item. -/
  | weighing (item : HashItem) (index mutexIndex : Int)
  /-- At the load of `size` that may refuse the item. -/
  | limiting (item : HashItem) (index mutexIndex : Int) (count : ℕ)
  | tallying (item : HashItem)
  | tallied (item : HashItem) (count : ℕ)
  | charging (item : HashItem)
  | charged (item : HashItem) (currentCapacity : ℕ)
  /-- At the section that copies `colisions[next]`. -/
  | following (item : HashItem) (index next : Int)
  /-- At `count++`. -/
  | counting (item : HashItem) (index : Int) (currentItem : HashItem)
  /-- At the update of `currentCapacity` in the walk. -/
  | paying (item : HashItem) (index : Int) (currentItem : HashItem)
  | pushing (item : HashItem) (index : Int)
  /-- At the update of `currentCapacity` behind the merge. -/
  | crediting (item : HashItem)
  | returned (code : ℕ)
  /-- `get` reads `colisions[next]`. -/
  | looking (key : WString) (next : Int)
  | got (value : List WString)
  deriving DecidableEq, Repr

namespace Caller

def resting : Caller → Bool
  | .idle | .returned _ | .got _ => true
  | _ => false

def working : Caller → Bool
  | .idle | .sizing _ | .returned _ | .got _ => false
  | _ => true

def checks : Caller → Bool
  | .locating _ _ => true
  | _ => false

/-- The loop of `handleCollision` up to its next access. -/
def walk (item : HashItem) (index : Int) (currentItem : HashItem) : Caller :=
  if currentItem.key = item.key then .locating (.merge item currentItem) index
  else if currentItem.next = -1 then .pushing item index
  else .following item index currentItem.next

/-- The loop of `get` up to its next access. -/
def search (key : WString) (item : HashItem) : Caller :=
  if key = item.key then .got item.value
  else if item.next = -1 then .got []
  else .looking key item.next

end Caller

open HashTable (itemsSizeOnItemsMutexRatio maxCapacity getItemCapacity hashFunction newItem)

/-- The section, and where it leaves the call. -/
def Access.perform (T : HashTable) (index mutexIndex : Int) : Access → Exec (HashTable × Caller)
  | .find item => do
      let currentItem ← T.readCellAt index mutexIndex
      return (T, .testing item index mutexIndex currentItem)
  | .place item => do
      let T ← T.modifyCellAt index mutexIndex fun _ => item
      return (T, .tallying item)
  | .extend item currentItem => do
      let T ← T.modifyCellAt index mutexIndex fun cell =>
        { cell with value := extendVector currentItem.value item.value }
      return (T, .charging item)
  | .collide item => do
      let currentItem ← T.readCellAt index mutexIndex
      return (T, .walk item index currentItem)
  | .merge item currentItem => do
      let T ← T.modifyCellAt index mutexIndex fun cell =>
        { cell with value := extendVector currentItem.value item.value }
      return (T, .crediting item)
  | .link _ colisionSize => do
      let T ← T.modifyCellAt index mutexIndex fun cell => { cell with next := colisionSize - 1 }
      return (T, .returned 0)
  | .look key => do
      let item ← T.readCellAt index mutexIndex
      return (T, if item.value.length > 0 then .search key item else .got [])

/-- The next access of a call that is not inside `checkIncreaseProcess`, where no other one races
with it. -/
def Caller.move (T : HashTable) : Caller → Option (HashTable × Caller)
  | .idle | .returned _ | .got _ => none
  | .sizing access => some (T, .locating access (hashFunction access.key T.size))
  | .locating access index =>
      let mutexIndex := index / itemsSizeOnItemsMutexRatio
      some (T, if mutexIndex ≥ T.itemsMutexesSize then .capping access index
        else .accessing access index mutexIndex)
  | .capping access index => some (T, .accessing access index (T.itemsMutexesSize - 1))
  | .accessing access index mutexIndex => (access.perform T index mutexIndex).toOption
  | .testing item index mutexIndex currentItem =>
      some (T, if T.currentCapacity + getItemCapacity item ≥ maxCapacity then .returned 2
        else if currentItem.value.length = 0 then .weighing item index mutexIndex
        else if item.key = currentItem.key then
          .accessing (.extend item currentItem) index mutexIndex
        else .locating (.collide item) index)
  | .weighing item index mutexIndex => some (T, .limiting item index mutexIndex T.count)
  | .limiting item index mutexIndex count =>
      some (T, if count ≥ T.loadLimit then .returned 1
        else .accessing (.place item) index mutexIndex)
  | .tallying item => some (T, .tallied item T.count)
  | .tallied item count => some ({ T with count := count + 1 }, .charging item)
  | .charging item => some (T, .charged item T.currentCapacity)
  | .charged item currentCapacity =>
      some ({ T with currentCapacity := currentCapacity + getItemCapacity item }, .returned 0)
  | .following item index next =>
      (vectorGet T.colisions next).toOption.map fun currentItem =>
        (T, .counting item index currentItem)
  | .counting item index currentItem =>
      some ({ T with count := T.count + 1 }, .paying item index currentItem)
  | .paying item index currentItem =>
      some ({ T with currentCapacity := T.currentCapacity + getItemCapacity item },
        .walk item index currentItem)
  | .pushing item index =>
      some ({ T with colisions := T.colisions ++ [item] },
        .locating (.link item (T.colisions.length + 1)) index)
  | .crediting item =>
      some ({ T with currentCapacity := T.currentCapacity + getVectorByteSize item.value },
        .returned 0)
  | .looking key next =>
      (vectorGet T.colisions next).toOption.map fun item => (T, .search key item)

/-- The local variables of `increaseTable`; `oldSize` is its first load of `size`. -/
structure Job where
  oldSize : ℕ
  mutexCount : ℕ
  growth : HashTable.Growth

def Job.newSize (job : Job) : ℕ := 2 * job.oldSize

inductive Grower where
  | idle
  /-- At its first load of `size`. -/
  | starting
  /-- At the load of `size` that decides `mutexCount`. -/
  | sizing (oldSize : ℕ)
  /-- In `checkIncreaseProcess`, or behind it at the first load of `itemsMutexesSize`. -/
  | scanning (job : Job) (i : ℕ)
  /-- At the second load of `itemsMutexesSize`. -/
  | capping (job : Job) (i : ℕ)
  /-- At the section that copies `items[i]`. -/
  | copying (job : Job) (i : ℕ) (mutexIndex : Int)
  /-- At the section that reads the size of `colisions`. -/
  | measuring (job : Job)
  /-- At the section that copies `colisions[i]`. -/
  | collecting (job : Job) (i colisionsSize : ℕ)
  /-- In the handshake, or behind it at the replacement of `itemsMutexes`. -/
  | gating (job : Job)
  /-- At the store of `itemsMutexesSize`. -/
  | storing (job : Job)
  /-- At the replacement of `items`. -/
  | installing (job : Job)
  /-- At the section of `sizeMutex`. -/
  | resizing (job : Job)
  /-- Clearing `increaseInProcess` and unlocking, or behind that at the section that empties
  `colisions`. -/
  | opening (job : Job)
  /-- The entries that are still to be added. -/
  | readding (tmpColisions : List HashItem)
  | returned (code : ℕ)

/-- The first loop of `increaseTable` up to its next access. -/
def Grower.scan (job : Job) (i : ℕ) : Grower :=
  if i < job.oldSize then .scanning job i else .measuring job

/-- The second loop of `increaseTable` up to its next access. -/
def Grower.collect (job : Job) (i colisionsSize : ℕ) : Grower :=
  if i < colisionsSize then .collecting job i colisionsSize else .gating job

/-- What the first loop does with a copied cell. -/
def Job.scanned (job : Job) (item : HashItem) : Exec Job :=
  if item.value.length > 0 then return job
  else do
    let growth ← job.growth.place job.newSize item
    return { job with growth }

/-- What the second loop does with a copied entry. -/
def Job.collected (job : Job) (item : HashItem) : Exec Job := do
  let growth ← job.growth.place job.newSize { item with next := -1 }
  return { job with growth }

/-- The table and the threads at work on it: the callers, and `none` for the thread of
`increaseTable`, which also calls `add`. The members that `Parking` has are left to it. -/
structure SharedTable (ι : Type) where
  table : HashTable
  parking : Parking (Option ι)
  caller : Option ι → Caller
  grower : Grower

namespace SharedTable

variable {ι : Type}

def new (T : HashTable) : SharedTable ι where
  table := T
  parking := .new T.busyThreadCount
  caller _ := .idle
  grower := .idle

inductive Command (ι : Type) where
  | add (c : ι) (key : WString) (value : List WString)
  | get (c : ι) (key : WString)
  /-- The next step of a call. -/
  | work (c : Option ι)
  | increaseTable
  /-- The next step of `increaseTable` outside its calls of `add`. -/
  | grow
  | setBusyThreadCount (busyThreadCount : Int)

variable [DecidableEq ι]

def set (s : SharedTable ι) (c : Option ι) (table : HashTable) (p : Caller) : SharedTable ι :=
  { s with
    table
    parking := if p.checks then s.parking.set c .testing else s.parking
    caller := Function.update s.caller c p }

@[simp] theorem set_caller_self (s : SharedTable ι) (c : Option ι) (table : HashTable)
    (p : Caller) : (s.set c table p).caller c = p := Function.update_self ..

theorem set_caller_ne (s : SharedTable ι) {c d : Option ι} (hdc : d ≠ c) (table : HashTable)
    (p : Caller) : (s.set c table p).caller d = s.caller d := Function.update_of_ne hdc ..

def call (s : SharedTable ι) (c : Option ι) (access : Access) : Option (SharedTable ι) :=
  if (s.caller c).resting then some (s.set c s.table (.sizing access)) else none

def work (s : SharedTable ι) (c : Option ι) : Option (SharedTable ι) :=
  if (s.caller c).checks ∧ s.parking.thread c ≠ .outside then
    (s.parking.work c).map fun parking => { s with parking }
  else ((s.caller c).move s.table).map fun result => s.set c result.1 result.2

def setGrower (s : SharedTable ι) (p : Grower) : SharedTable ι :=
  { s with
    parking := match p with
      | .scanning _ _ => s.parking.set none .testing
      | .gating _ => s.parking.set none .closing
      | _ => s.parking
    grower := p }

/-- A step of `checkIncreaseProcess` or of the handshake, by the thread of `increaseTable`. -/
def park (s : SharedTable ι) : Option (SharedTable ι) :=
  (s.parking.work none).map fun parking => { s with parking }

def grow (s : SharedTable ι) : Option (SharedTable ι) :=
  match s.grower with
  | .idle | .returned _ => none
  | .starting =>
      let oldSize := s.table.size
      some (s.setGrower (if 2 * oldSize ≥ maxCapacity then .returned 1 else .sizing oldSize))
  | .sizing oldSize =>
      let mutexCount := if s.table.size > itemsSizeOnItemsMutexRatio
        then 2 * oldSize / itemsSizeOnItemsMutexRatio else 1
      let growth := ⟨HashTable.createNewVector (2 * oldSize), []⟩
      some (s.setGrower (.scan { oldSize, mutexCount, growth } 0))
  | .scanning job i =>
      if s.parking.thread none = .outside then
        let mutexIndex : Int := (i : Int) / itemsSizeOnItemsMutexRatio
        some (s.setGrower (if mutexIndex ≥ s.table.itemsMutexesSize then .capping job i
          else .copying job i mutexIndex))
      else s.park
  | .capping job i => some (s.setGrower (.copying job i (s.table.itemsMutexesSize - 1)))
  | .copying job i mutexIndex =>
      (do
        let item ← s.table.readCellAt i mutexIndex
        let job ← job.scanned item
        return s.setGrower (.scan job (i + 1)) : Exec (SharedTable ι)).toOption
  | .measuring job => some (s.setGrower (.collect job 0 s.table.colisions.length))
  | .collecting job i colisionsSize =>
      (do
        let item ← vectorGet s.table.colisions i
        let job ← job.collected item
        return s.setGrower (.collect job (i + 1) colisionsSize) : Exec (SharedTable ι)).toOption
  | .gating job =>
      if s.parking.thread none = .replacing then
        some { s.setGrower (.storing job) with
          table := { s.table with itemsMutexes := job.mutexCount } }
      else s.park
  | .storing job =>
      some { s.setGrower (.installing job) with
        table := { s.table with itemsMutexesSize := s.table.itemsMutexes } }
  | .installing job =>
      some { s.setGrower (.resizing job) with
        table := { s.table with items := job.growth.newItemsVector } }
  | .resizing job =>
      some { s.setGrower (.opening job) with
        table := { s.table with size := job.newSize }
        parking := s.parking.set none .reopening }
  | .opening job =>
      if s.parking.thread none = .outside then
        some { s.setGrower (.readding job.growth.tmpColisions) with
          table := { s.table with colisions := [] } }
      else s.park
  | .readding tmpColisions =>
      if (s.caller none).resting then
        match tmpColisions with
        | [] => some (s.setGrower (.returned 0))
        | hi :: rest => (s.setGrower (.readding rest)).call none (.find (newItem hi.key hi.value))
      else none

def step (s : SharedTable ι) : Command ι → Option (SharedTable ι)
  | .add c key value => s.call (some c) (.find (newItem key value))
  | .get c key => s.call (some c) (.look key)
  | .work c => s.work c
  | .increaseTable =>
      match s.grower with
      | .idle => some (s.setGrower .starting)
      | _ => none
  | .grow => s.grow
  | .setBusyThreadCount busyThreadCount =>
      some { s with parking := { s.parking with busyThreadCount } }

end SharedTable

end IndexServer
