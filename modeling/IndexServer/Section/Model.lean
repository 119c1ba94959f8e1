import IndexServer.StringFunctions
import IndexServer.HashTable.Model

/-!
# Sections: tables saved to files

`HashTable::saveTable` and `InvertedIndex::loadItemValue`. A wide stream writes and reads units as
they are, and positions in a file count units. A `long long` takes four units, the low one first.
What `read` leaves in the string it fills is a parameter of the reader, since the string is shorter
than what is read into it.
-/

namespace IndexServer

/-! ### Wide streams -/

/-- The units of a `long long` in memory. -/
def longUnits (x : Int) : WString :=
  let n := (x % 2 ^ 64).toNat
  [.ofNat n, .ofNat (n / 2 ^ 16), .ofNat (n / 2 ^ 32), .ofNat (n / 2 ^ 48)]

def longOf (u₀ u₁ u₂ u₃ : WChar) : Int :=
  wrap64 (u₀.toNat + u₁.toNat * 2 ^ 16 + u₂.toNat * 2 ^ 32 + u₃.toNat * 2 ^ 48)

/-- `((long long*)buffer.c_str())[i]`. -/
def longAt (buffer : WString) (i : ℕ) : Exec Int :=
  match buffer.drop (4 * i) with
  | u₀ :: u₁ :: u₂ :: u₃ :: _ => .ok (longOf u₀ u₁ u₂ u₃)
  | _ => .error .outOfRange

structure WIfStream where
  file : WString
  pos : ℕ
  failed : Bool
  deriving DecidableEq, Repr

namespace WIfStream

def seekg (s : WIfStream) (off : Int) : WIfStream :=
  if s.failed then s
  else if off < 0 then { s with failed := true }
  else { s with pos := off.toNat }

/-- The units that `read` delivers, and the stream after it. -/
def read (s : WIfStream) (count : Int) : WString × WIfStream :=
  if s.failed then ([], s)
  else
    let delivered := (s.file.drop s.pos).take count.toNat
    (delivered, { s with
      pos := s.pos + delivered.length
      failed := decide ((delivered.length : Int) ≠ count) })

end WIfStream

/-- What becomes of a string when `read` is asked for `count` units and delivers some. -/
abbrev Refill := (buffer delivered : WString) → (count : Int) → WString

/-- The string holds the units delivered. -/
def holdsDelivered : Refill := fun _ delivered _ => delivered

namespace HashTable

def delimiter : WString := [36, 35, 64, 60, 33, 95, 115, 105, 116, 101, 95, 62]

/-- `sizeof(long long) / sizeof(wchar_t)`. -/
def cellSize : ℕ := 4

def zero : Int := 2 ^ 63 - 1

/-! ### Saving -/

/-- The variable `key` of `itemToArray`. -/
def arrayKey (item : HashItem) : Exec Int :=
  if item.key = [] then .ok zero else stoll (item.key.map UInt16.toNat)

/-- `itemToArray`, which halves its parameter `cellSize`. -/
def itemToArray (T : HashTable) (item : HashItem) (cellSize : ℕ) (valueAddress : Int) :
    Exec (Vector Int 4) := do
  let cellSize := cellSize / 2
  let key ← arrayKey item
  let nextAddress :=
    if item.next ≠ zero then wrap64 ((T.size + item.next) * cellSize * 4 + cellSize) else zero
  if item.value.length = 0 then return #v[zero, zero, zero, zero]
  else return #v[key, valueAddress, item.byteSize, nextAddress]

def writeVectorToString (vector : List WString) : WString := vector.flatMap (· ++ delimiter)

structure Saving where
  newFile : WString
  currentValueAddress : Int
  deriving DecidableEq, Repr

/-- What both loops over the records do: each of the four writes starts at `dlongArray[0]`. -/
def saveRecord (T : HashTable) (s : Saving) (item : HashItem) : Exec Saving := do
  let dlongArray ← T.itemToArray item cellSize s.currentValueAddress
  let written := (List.range 4).flatMap fun _ => (longUnits (dlongArray.get 0)).take 1
  return {
    newFile := s.newFile ++ written
    currentValueAddress := wrap64 (s.currentValueAddress + item.byteSize) }

def saveItems (T : HashTable) : List ℕ → Saving → Exec Saving
  | [], s => .ok s
  | i :: rest, s => do
      let item ← T.readCell i
      let s ← T.saveRecord s item
      saveItems T rest s

def saveColisions (T : HashTable) : List ℕ → Saving → Exec Saving
  | [], s => .ok s
  | i :: rest, s => do
      let item ← vectorGet T.colisions i
      let s ← T.saveRecord s item
      saveColisions T rest s

def saveItemValues (T : HashTable) : List ℕ → WString → Exec WString
  | [], newFile => .ok newFile
  | i :: rest, newFile => do
      let item ← T.readCell i
      if item.value.length = 0 then saveItemValues T rest newFile
      else saveItemValues T rest (newFile ++ writeVectorToString item.value)

def saveColisionValues (T : HashTable) : List ℕ → WString → Exec WString
  | [], newFile => .ok newFile
  | i :: rest, newFile => do
      let item ← vectorGet T.colisions i
      saveColisionValues T rest (newFile ++ writeVectorToString item.value)

/-- `saveTable`, for the content of the file it writes. -/
def saveTable (T : HashTable) : Exec WString := do
  let colisionSize := T.colisions.length
  let currentValueAddress := wrap64 ((T.size + colisionSize) * cellSize * 4 + 1)
  let s : Saving := { newFile := longUnits T.size, currentValueAddress }
  let s ← T.saveItems (List.range T.size) s
  let s ← T.saveColisions (List.range colisionSize) s
  let newFile ← T.saveItemValues (List.range T.size) s.newFile
  T.saveColisionValues (List.range colisionSize) newFile

end HashTable

/-! ### Loading -/

namespace InvertedIndex

/-- The pair of a stream and the string that is read into. -/
structure Loading where
  stream : WIfStream
  buffer : WString
  deriving DecidableEq, Repr

/-- `in.seekg(address, std::ios::beg); in.read(&buffer[0], count);` -/
def Loading.readAt (s : Loading) (refill : Refill) (address count : Int) : Loading :=
  let (delivered, stream) := (s.stream.seekg address).read count
  { stream, buffer := refill s.buffer delivered count }

/-- The loop of `loadItemValue`, or nothing if it ends with an empty list. A round that does not end
it reads a record at a position of its own, or it goes round for ever. -/
def loadLoop (refill : Refill) (wordId : WString) : ℕ → Loading → Int → Exec (Option Loading)
  | 0, _, _ => .error .noReturn
  | fuel + 1, s, savedId =>
      if wordId ≠ toWString savedId then do
        let nextAddress ← longAt s.buffer 3
        if nextAddress = -1 then return none
        else
          let address := wrap64 ((nextAddress + 1) * HashTable.cellSize)
          let s := s.readAt refill address (4 * HashTable.cellSize)
          let savedId ← longAt s.buffer 0
          loadLoop refill wordId fuel s savedId
      else return some s

/-- `loadItemValue` from where it has found the record. -/
def loadValue (refill : Refill) (s : Loading) : Exec (List WString) := do
  let valueAddress ← longAt s.buffer 1
  let valueSize ← longAt s.buffer 2
  let s := s.readAt refill valueAddress valueSize
  split s.buffer HashTable.delimiter

/-- `loadItemValue` behind its loop. -/
def loadFound (refill : Refill) : Option Loading → Exec (List WString)
  | none => .ok []
  | some s => loadValue refill s

/-- `loadItemValue` from where it has read the first record. -/
def loadItem (refill : Refill) (wordId : WString) (fuel : ℕ) (s : Loading) :
    Exec (List WString) := do
  let savedId ← longAt s.buffer 0
  if savedId = 0 then return []
  else
    let found ← loadLoop refill wordId fuel s savedId
    loadFound refill found

/-- `loadItemValue` on the content of the file at its path. -/
def loadItemValue (refill : Refill) (file : WString) (wordId : WString) : Exec (List WString) := do
  let s : Loading := { stream := { file, pos := 0, failed := false }, buffer := [] }
  let s := s.readAt refill 0 HashTable.cellSize
  let sectionSize ← stoll ((ws2s s.buffer).map UInt8.toNat)
  if sectionSize = 0 then .error .divisionByZero
  else
    let hash := HashTable.hashFunction wordId sectionSize
    let address := wrap64 ((hash + 1) * HashTable.cellSize)
    let s := s.readAt refill address (4 * HashTable.cellSize)
    loadItem refill wordId (file.length + 2) s

end InvertedIndex

end IndexServer
