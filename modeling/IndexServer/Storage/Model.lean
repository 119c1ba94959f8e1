import IndexServer.InvertedIndex.Model
import IndexServer.Section.Model
import Mathlib.Data.List.DropRight

/-!
# The storage folder

`FileManager`, and what `InvertedIndex` does with it: the handler `saveTable`, which writes a
section and reads the folder again, and `get`, which consults the sections. A folder is the list of
the entries of the directory that `storingPath` names before its last separator, under their bare
names. The functions of the C library are a parameter; what they are relied on for is
`Platform.Documented`.
-/

namespace IndexServer

structure FindData where
  name : List UInt8
  size : ℕ
  timeCreate : Int
  deriving DecidableEq, Repr

structure SectionInfo where
  name : WString
  type : WString
  size : ℕ
  createTime : Int
  deriving DecidableEq, Repr

/-- The functions of the C library and of the system that the server calls. -/
structure Platform where
  /-- The conversion of `s2ws`, in the code page of the system. -/
  s2ws : List UInt8 → WString
  /-- What `_findfirst` and `_findnext` list of a folder. -/
  findFiles : (path : List UInt8) → (folder : List FindData) → List FindData
  /-- A `std::ifstream` of this name is good. -/
  opens : (name : WString) → Bool
  /-- The size of a file that a `std::wofstream` leaves. -/
  fileSize : (content : WString) → ℕ
  time : Int

/-- The units of a path behind its last separator. -/
def bareName (path : WString) : WString := path.rtakeWhile fun u => decide (u ≠ 92)

def sectionType : WString := [83, 101, 99, 116, 105, 111, 110]

def extension : WString := [46, 116, 120, 116]

structure FileManager where
  currentStoringCapacity : ℕ
  sectionsInfo : List SectionInfo
  clearInProcess : Bool
  deriving DecidableEq, Repr

namespace FileManager

/-- `STORING_PATH`, which is `L"..\\cache"`. -/
def storingPath : WString := [46, 46, 92, 99, 97, 99, 104, 101]

def getPath (_ : FileManager) : WString := storingPath

def getSections (fm : FileManager) : List SectionInfo :=
  if fm.clearInProcess then [] else fm.sectionsInfo

def getCurrentStoringCapacity (fm : FileManager) : ℕ := fm.currentStoringCapacity

def setSections (fm : FileManager) (si : List SectionInfo) : FileManager :=
  { fm with sectionsInfo := si }

def countFilesOfType (fm : FileManager) (type : WString) : ℕ :=
  fm.sectionsInfo.countP fun si => (find si.name type 0).isSome

def createSectionInfo (p : Platform) (fileData : FindData) : Exec SectionInfo := do
  let pieces ← split (p.s2ws fileData.name) [45]
  let type ← vectorGet pieces 0
  return {
    name := p.s2ws fileData.name
    type
    size := fileData.size
    createTime := fileData.timeCreate }

/-- The loop of `readSectionsInfo`. -/
def createSectionsInfo (p : Platform) : List FindData → Exec (List SectionInfo)
  | [] => .ok []
  | fileData :: rest => do
      let si ← createSectionInfo p fileData
      let sectionsInfo ← createSectionsInfo p rest
      return si :: sectionsInfo

/-- The variable `dirPath` of `readSectionsInfo`. -/
def dirPath : List UInt8 := ws2s (storingPath ++ [42, 46, 42])

/-- `readSectionsInfo`: it clears two entries or fewer, and drops the first of more. -/
def readSectionsInfo (fm : FileManager) (p : Platform) (folder : List FindData) :
    Exec (FileManager × List SectionInfo) :=
  let found := p.findFiles dirPath folder
  if found = [] then .ok (fm, [])
  else do
    let sectionsInfo ← createSectionsInfo p found
    let sectionsInfo := if found.length ≤ 2 then [] else sectionsInfo.drop 1
    return ({ fm with currentStoringCapacity := (sectionsInfo.map SectionInfo.size).sum },
      sectionsInfo)

/-! ### Removing -/

def fullFilePath (si : SectionInfo) : List UInt8 := ws2s (storingPath ++ si.name)

/-- The paths that `clearMemory` removes. -/
def clearMemory (fm : FileManager) : List (List UInt8) := fm.sectionsInfo.map fullFilePath

/-- What a call of `deleteFileOfType` does: the paths it calls `remove` with, the entries it leaves
and the size it returns. -/
structure Deletion where
  removed : List (List UInt8)
  sectionsInfo : List SectionInfo
  size : ℕ
  deriving DecidableEq, Repr

/-- The loop of `deleteFileOfType`. An entry whose file could be removed is kept and passed over;
the first one whose file could not is erased. -/
def deleteLoop (removes : List UInt8 → Bool) : List SectionInfo → Deletion → Deletion
  | [], d => d
  | si :: rest, d =>
      if si.type = sectionType then
        let d := { d with removed := d.removed ++ [fullFilePath si] }
        if removes (fullFilePath si) then
          deleteLoop removes rest { d with sectionsInfo := d.sectionsInfo ++ [si] }
        else { d with sectionsInfo := d.sectionsInfo ++ rest, size := si.size }
      else deleteLoop removes rest { d with sectionsInfo := d.sectionsInfo ++ [si] }

def deleteFileOfType (fm : FileManager) (removes : List UInt8 → Bool) : Deletion :=
  deleteLoop removes fm.sectionsInfo ⟨[], [], 0⟩

end FileManager

namespace InvertedIndex

/-! ### Saving -/

/-- The names of `getUnicName`. -/
def unicName (type : WString) (i : ℕ) : WString := type ++ [45] ++ toWString i ++ extension

/-- The loop of `getUnicName`, with the variables `fileExist`, `name` and `i`. -/
def getUnicNameLoop (p : Platform) (type : WString) : ℕ → Bool → WString → ℕ → Exec WString
  | _, false, name, _ => .ok name
  | 0, true, _, _ => .error .noReturn
  | fuel + 1, true, name, i =>
      getUnicNameLoop p type fuel (p.opens name) (unicName type i) (i + 1)

def getUnicName (p : Platform) (fm : FileManager) (type : WString) (fuel : ℕ) : Exec WString :=
  let typeCount := fm.countFilesOfType type
  let name := unicName type typeCount
  getUnicNameLoop p type fuel (p.opens name) name (typeCount + 1)

end InvertedIndex

/-- The path of the file that `HashTable::saveTable` writes. -/
def HashTable.savePath (path : WString) : WString := path ++ extension

def writeFile (p : Platform) (path content : WString) (folder : List FindData) : List FindData :=
  let name := ws2s (bareName path)
  folder.filter (fun f => decide (f.name ≠ name)) ++ [⟨name, p.fileSize content, p.time⟩]

structure Storage where
  index : InvertedIndex
  fm : FileManager
  folder : List FindData
  deriving DecidableEq, Repr

namespace Storage

/-- The handler `saveTable`, with the path that it writes. -/
def saveTable (p : Platform) (fuel : ℕ) (s : Storage) : Exec (Storage × WString) := do
  let fileName ← InvertedIndex.getUnicName p s.fm sectionType fuel
  let content ← s.index.table.saveTable
  let path := HashTable.savePath (s.fm.getPath ++ fileName)
  let folder := writeFile p path content s.folder
  let (fm, si) ← s.fm.readSectionsInfo p folder
  let index ← s.index.handle s.fm.currentStoringCapacity .maxTable
  return ({ index, fm := fm.setSections si, folder }, path)

end Storage

/-! ### Lookup -/

namespace InvertedIndex

/-- The loop of `get` over the sections; `load` is `loadItemValue`. -/
def loadSections (load : WString → WString → Exec (List WString)) (storingPath id : WString) :
    List SectionInfo → List WString → Exec (List WString)
  | [], result => .ok result
  | s :: rest, result =>
      if find s.name sectionType 0 = none then loadSections load storingPath id rest result
      else do
        let value ← load (storingPath ++ s.name) id
        loadSections load storingPath id rest (extendVector result value)

def get (load : WString → WString → Exec (List WString)) (s : InvertedIndex) (fm : FileManager)
    (key : WString) : Exec (List WString) := do
  let wordIdVector ← s.dictionary.get key
  if wordIdVector.length = 0 then return []
  else
    let id ← vectorGet wordIdVector 0
    let result ← s.table.get id
    loadSections load fm.getPath id fm.getSections result

end InvertedIndex

/-! ### What the C library is relied on for -/

/-- Letters in one case. -/
def lowerCase (b : UInt8) : UInt8 := if 65 ≤ b ∧ b ≤ 90 then b + 32 else b

/-- The search for a path that ends in `*.*` finds the names that begin with what stands before it
behind the last separator, in whichever case. -/
def Matches (path name : List UInt8) : Bool :=
  let stem := (path.rtakeWhile fun b => decide (b ≠ 92)).takeWhile fun b => decide (b ≠ 42)
  (stem.map lowerCase).isPrefixOf (name.map lowerCase)

structure Platform.Documented (p : Platform) : Prop where
  /-- The search lists the entries that match, in any order. -/
  finds : ∀ folder, (p.findFiles FileManager.dirPath folder).Perm
    (folder.filter fun f => Matches FileManager.dirPath f.name)
  /-- A character of ASCII is the same in every code page. -/
  ascii : ∀ b rest, b < 128 → ∃ rest', p.s2ws (b :: rest) = b.toUInt16 :: rest'

end IndexServer
