import IndexServer.Storage.Decrease
import IndexServer.Storage.SavedPath
import IndexServer.StringFunctions.Split
import IndexServer.Lib.Machine

/-!
# The list and the total of the storage folder

The service handlers that touch the storage, over one folder. The list of sections and the amount
stored are two fields of `FileManager`, read from the folder together. They stay in step for a
reason that the handlers do not show: the type of a listed file begins as its name does, with the
letter of `cache`, so `decreaseStoredData` finds no section to remove.
-/

namespace IndexServer

/-- What `remove` leaves of the folder. -/
def removeFile (path : List UInt8) (folder : List FindData) : List FindData :=
  folder.eraseP fun f => decide (f.name = path.rtakeWhile fun b => decide (b ≠ 92))

def removeFiles (paths : List (List UInt8)) (folder : List FindData) : List FindData :=
  paths.foldl (fun folder path => removeFile path folder) folder

namespace Storage

/-- A new index, whose manager has read the folder. -/
def start (p : Platform) (folder : List FindData) : Exec Storage := do
  let fm : FileManager :=
    { currentStoringCapacity := 0, sectionsInfo := [], clearInProcess := false }
  let (fm, si) ← fm.readSectionsInfo p folder
  return { index := InvertedIndex.new, fm := fm.setSections si, folder }

def fullMemoryClear (p : Platform) (s : Storage) : Exec Storage := do
  let folder := removeFiles s.fm.clearMemory s.folder
  let fm := { s.fm with clearInProcess := false }
  let (fm, si) ← fm.readSectionsInfo p folder
  let index ← s.index.handle s.fm.currentStoringCapacity .maxDict
  return { index, fm := fm.setSections si, folder }

def decreaseData (sort : List SectionInfo → List SectionInfo) (removes : ℕ → Bool) (s : Storage) :
    Storage :=
  let capacity := s.index.table.currentCapacity + s.index.dictionary.currentCapacity
  let c := s.fm.decreaseStoredData sort removes (Int64.ofNat capacity)
  { s with
    fm := { s.fm with sectionsInfo := c.sectionsInfo.map Entry.info, clearInProcess := false }
    folder := removeFiles (c.removed.map fun e => FileManager.fullFilePath e.info) s.folder }

/-- The handlers, and whatever else happens to the index between them. What the system answers to
`saveTable`, and whether the calls of `remove` in `decreaseStoredData` succeed, is open. -/
inductive Op where
  | saveTable (opens : WString → Bool) (time : Int) (fuel : ℕ)
  | fullMemoryClear
  | decreaseData (removes : ℕ → Bool)
  | index (index : InvertedIndex)

def step (p : Platform) (sort : List SectionInfo → List SectionInfo) (s : Storage) :
    Op → Option Storage
  | .saveTable opens time fuel =>
      (s.saveTable { p with opens, time } fuel).toOption.map Prod.fst
  | .fullMemoryClear => (s.fullMemoryClear p).toOption
  | .decreaseData removes => some (s.decreaseData sort removes)
  | .index index => some { s with index }

/-- The total is that of the list, and every entry of the list names a file of the folder. -/
structure Agrees (p : Platform) (s : Storage) : Prop where
  total : s.fm.getCurrentStoringCapacity = (s.fm.sectionsInfo.map SectionInfo.size).sum
  exists_file : ∀ si ∈ s.fm.sectionsInfo, ∃ f ∈ s.folder, si.name = p.s2ws f.name

/-- What a search of the folder lists. -/
def listed (folder : List FindData) : ℕ :=
  folder.countP fun f => Matches FileManager.dirPath f.name

/-- The invariant of the handlers. There is a listed file that is not in the list, so a folder that
has been cleared is never found empty. -/
structure Follows (p : Platform) (s : Storage) : Prop where
  agrees : s.Agrees p
  type_ne : ∀ si ∈ s.fm.sectionsInfo, si.type ≠ sectionType
  fewer : s.fm.sectionsInfo = [] ∨ s.fm.sectionsInfo.length < listed s.folder

end Storage

/-! ### Reading the folder -/

namespace FileManager

variable {p : Platform} {si : SectionInfo}

/-- The type of a file begins as its name does. -/
theorem createSectionInfo_type_ne {fileData : FindData} {u : WChar} {rest : WString}
    (h : createSectionInfo p fileData = .ok si) (hname : p.s2ws fileData.name = u :: rest)
    (hu : u ≠ 83) : si.type ≠ sectionType := by
  obtain ⟨pieces, hpieces, h⟩ := Exec.bind_eq_ok.mp h
  obtain ⟨type, htype, h⟩ := Exec.bind_eq_ok.mp h
  cases h
  rintro rfl
  cases pieces with
  | nil => cases htype
  | cons first pieces =>
      cases htype
      have hcuts := (split_eq_ok (List.cons_ne_nil _ _)).mp hpieces
      obtain ⟨behind, hbehind⟩ := hname ▸ hcuts.first_prefix
      exact hu (List.cons.inj hbehind).1.symm

theorem length_createSectionsInfo {found : List FindData} {sectionsInfo : List SectionInfo}
    (h : createSectionsInfo p found = .ok sectionsInfo) : sectionsInfo.length = found.length := by
  induction found generalizing sectionsInfo with
  | nil =>
      cases h
      rfl
  | cons fileData rest ih =>
      obtain ⟨first, _, h⟩ := Exec.bind_eq_ok.mp h
      obtain ⟨others, hothers, h⟩ := Exec.bind_eq_ok.mp h
      cases h
      rw [List.length_cons, List.length_cons, ih hothers]

/-- The total is that of the list, except that it stays when the search finds nothing. -/
theorem readSectionsInfo_spec {fm fm' : FileManager} {folder : List FindData}
    {sectionsInfo : List SectionInfo}
    (h : fm.readSectionsInfo p folder = .ok (fm', sectionsInfo)) :
    (p.findFiles dirPath folder = [] ∧ fm' = fm ∧ sectionsInfo = []) ∨
      (fm'.currentStoringCapacity = (sectionsInfo.map SectionInfo.size).sum ∧
        (sectionsInfo = [] ∨ sectionsInfo.length < (p.findFiles dirPath folder).length)) := by
  simp only [readSectionsInfo] at h
  split at h
  · rename_i hnone
    cases h
    exact .inl ⟨hnone, rfl, rfl⟩
  · obtain ⟨all, hall, h⟩ := Exec.bind_eq_ok.mp h
    cases h
    refine .inr ⟨rfl, ?_⟩
    split
    · exact .inl rfl
    · right
      rw [List.length_drop, length_createSectionsInfo hall]
      omega

end FileManager

open FileManager

namespace Platform.Documented

variable {p : Platform} (hp : p.Documented) (folder : List FindData)

include hp

theorem length_findFiles : (p.findFiles dirPath folder).length = Storage.listed folder := by
  rw [(hp.finds folder).length_eq, Storage.listed, List.countP_eq_length_filter]

theorem type_ne {fileData : FindData} {si : SectionInfo}
    (hfound : fileData ∈ p.findFiles dirPath folder)
    (h : createSectionInfo p fileData = .ok si) : si.type ≠ sectionType := by
  obtain ⟨u, rest, hname, hletter⟩ := hp.s2ws_name hfound
  refine createSectionInfo_type_ne h hname ?_
  rintro rfl
  exact absurd hletter (by decide)

end Platform.Documented

namespace Storage

variable {p : Platform} {s s' : Storage} {folder : List FindData}

theorem follows_of_read (hp : p.Documented) {fm fm' : FileManager} {si : List SectionInfo}
    {index : InvertedIndex} (hread : fm.readSectionsInfo p folder = .ok (fm', si))
    (h : 0 < listed folder ∨ fm.currentStoringCapacity = 0) :
    Follows p ⟨index, fm'.setSections si, folder⟩ where
  agrees :=
    { total := by
        rcases readSectionsInfo_spec hread with ⟨hnone, rfl, rfl⟩ | ⟨htotal, _⟩
        · refine h.resolve_left ?_
          rw [← hp.length_findFiles, hnone]
          exact Nat.lt_irrefl 0
        · exact htotal
      exists_file := by
        intro info hinfo
        obtain ⟨fileData, hfound, hcreate⟩ := mem_readSectionsInfo hread hinfo
        exact ⟨fileData, (List.mem_filter.mp ((hp.finds folder).mem_iff.mp hfound)).1,
          createSectionInfo_name hcreate⟩ }
  type_ne := by
    intro info hinfo
    obtain ⟨fileData, hfound, hcreate⟩ := mem_readSectionsInfo hread hinfo
    exact hp.type_ne folder hfound hcreate
  fewer := by
    rcases readSectionsInfo_spec hread with ⟨_, _, hnil⟩ | ⟨_, hfewer⟩
    · exact .inl hnil
    · exact hfewer.imp_right fun hlt => hp.length_findFiles folder ▸ hlt

theorem follows_start (hp : p.Documented) (h : start p folder = .ok s) : s.Follows p := by
  obtain ⟨⟨fm, si⟩, hread, h⟩ := Exec.bind_eq_ok.mp h
  cases h
  exact follows_of_read hp hread (.inr rfl)

/-! ### The handlers -/

theorem listed_removeFile (path : List UInt8) (folder : List FindData) :
    listed folder ≤ listed (removeFile path folder) + 1 := by
  rw [removeFile, listed, listed]
  rcases List.exists_or_eq_self_of_eraseP
    (fun f : FindData => decide (f.name = path.rtakeWhile fun b => decide (b ≠ 92))) folder
    with hsame | ⟨f, front, back, _, _, hfolder, herased⟩
  · rw [hsame]
    exact Nat.le_succ _
  · rw [herased, hfolder, List.countP_append, List.countP_append, List.countP_cons]
    split <;> omega

theorem listed_removeFiles (paths : List (List UInt8)) (folder : List FindData) :
    listed folder ≤ listed (removeFiles paths folder) + paths.length := by
  induction paths generalizing folder with
  | nil => exact Nat.le_refl _
  | cons path rest ih =>
      have hfirst := listed_removeFile path folder
      have hrest := ih (removeFile path folder)
      rw [removeFiles, List.foldl_cons, ← removeFiles, List.length_cons]
      omega

/-- The files of the list are fewer than the listed ones, so one is left. -/
theorem Follows.fullMemoryClear (hp : p.Documented) (h : s.Follows p)
    (hrun : s.fullMemoryClear p = .ok s') : s'.Follows p := by
  obtain ⟨⟨fm, si⟩, hread, hrun⟩ := Exec.bind_eq_ok.mp hrun
  obtain ⟨index, _, hrun⟩ := Exec.bind_eq_ok.mp hrun
  cases hrun
  refine follows_of_read hp hread ?_
  rcases h.fewer with hnil | hlt
  · right
    change s.fm.getCurrentStoringCapacity = 0
    rw [h.agrees.total, hnil]
    rfl
  · left
    have hleft := listed_removeFiles s.fm.clearMemory s.folder
    rw [clearMemory, List.length_map] at hleft
    exact Nat.pos_of_lt_add_left (Nat.lt_of_lt_of_le hlt hleft)

theorem Follows.decreaseData {sort : List SectionInfo → List SectionInfo} {removes : ℕ → Bool}
    (hsort : ∀ sections, (sort sections).Perm sections) (h : s.Follows p) :
    (s.decreaseData sort removes).Follows p := by
  have hnone := (forall_mem_placed_sort hsort).mpr h.type_ne
  have hperm := hsort s.fm.sectionsInfo
  rw [Storage.decreaseData]
  simp only [decreaseStoredData_of_spared (.inr hnone)]
  rw [sortedClearing, map_info_placed]
  exact {
    agrees :=
      { total := h.agrees.total.trans (hperm.map _).sum_eq.symm
        exists_file := fun si hsi => h.agrees.exists_file si (hperm.mem_iff.mp hsi) }
    type_ne := fun si hsi => h.type_ne si (hperm.mem_iff.mp hsi)
    fewer := h.fewer.imp (fun hnil => by simpa [hnil] using hperm)
      fun hlt => hperm.length_eq ▸ hlt }

theorem bareName_append (front : WString) {back : WString} (h : 92 ∉ back) :
    bareName (front ++ 92 :: back) = back := by
  have hback : ∀ u ∈ back.reverse, decide (u ≠ 92) = true := by
    intro u hu
    refine decide_eq_true ?_
    rintro rfl
    exact h (List.mem_reverse.mp hu)
  rw [bareName, List.rtakeWhile, List.reverse_append, List.reverse_cons, List.append_assoc,
    List.takeWhile_append_of_pos hback]
  exact (congrArg List.reverse (List.append_nil _)).trans (List.reverse_reverse _)

theorem separator_not_mem_unicName (n : ℕ) :
    92 ∉ InvertedIndex.unicName sectionType n ++ extension := by
  have hextension : (92 : WChar) ∉ extension := by decide
  have htype : (92 : WChar) ∉ sectionType ++ [45] := by decide
  have hnumber : 92 ∉ toWString n := fun hmem =>
    absurd (isDigit_of_mem_codes (List.mem_map_of_mem hmem)) (by decide)
  simp only [InvertedIndex.unicName, List.mem_append, not_or] at htype ⊢
  exact ⟨⟨⟨htype, hnumber⟩, hextension⟩, hextension⟩

theorem matches_savePath (fm : FileManager) (n : ℕ) :
    Matches dirPath (ws2s (bareName (HashTable.savePath
      (fm.getPath ++ InvertedIndex.unicName sectionType n)))) = true := by
  have hbare : bareName (HashTable.savePath (fm.getPath ++ InvertedIndex.unicName sectionType n)) =
      [99, 97, 99, 104, 101] ++ (InvertedIndex.unicName sectionType n ++ extension) := by
    rw [HashTable.savePath, List.append_assoc]
    refine bareName_append [46, 46] ?_
    have hcache : (92 : WChar) ∉ ([99, 97, 99, 104, 101] : WString) := by decide
    exact fun hmem => (List.mem_append.mp hmem).elim hcache (separator_not_mem_unicName n)
  rw [hbare, ws2s_append, matches_dirPath, List.map_append]
  exact List.prefix_append _ _

theorem follows_saveTable (hp : p.Documented) {fuel : ℕ} {path : WString}
    (hrun : s.saveTable p fuel = .ok (s', path)) : s'.Follows p := by
  obtain ⟨fileName, hfileName, hrun⟩ := Exec.bind_eq_ok.mp hrun
  obtain ⟨content, _, hrun⟩ := Exec.bind_eq_ok.mp hrun
  obtain ⟨⟨fm, si⟩, hread, hrun⟩ := Exec.bind_eq_ok.mp hrun
  obtain ⟨index, _, hrun⟩ := Exec.bind_eq_ok.mp hrun
  cases hrun
  obtain ⟨n, rfl⟩ := InvertedIndex.getUnicName_eq hfileName
  refine follows_of_read hp hread (.inl ?_)
  rw [listed, List.countP_pos_iff]
  exact ⟨_, List.mem_append_right _ List.mem_cons_self, matches_savePath s.fm n⟩

theorem Follows.step {sort : List SectionInfo → List SectionInfo} {op : Op} (hp : p.Documented)
    (hsort : ∀ sections, (sort sections).Perm sections) (h : s.Follows p)
    (hstep : s.step p sort op = some s') : s'.Follows p := by
  cases op with
  | saveTable opens time fuel =>
      obtain ⟨⟨t, path⟩, hrun, rfl⟩ := Option.map_eq_some_iff.mp hstep
      have hnow : ({ p with opens, time } : Platform).Documented := ⟨hp.finds, hp.ascii⟩
      have ht := follows_saveTable hnow (Exec.toOption_eq_some.mp hrun)
      exact ⟨⟨ht.agrees.total, ht.agrees.exists_file⟩, ht.type_ne, ht.fewer⟩
  | fullMemoryClear => exact h.fullMemoryClear hp (Exec.toOption_eq_some.mp hstep)
  | decreaseData removes =>
      cases hstep
      exact h.decreaseData hsort
  | index index =>
      cases hstep
      exact ⟨⟨h.agrees.total, h.agrees.exists_file⟩, h.type_ne, h.fewer⟩

/-- A table is saved, its section is to be removed, and the folder is cleared. -/
def spillAndClear : List Op :=
  [.saveTable (fun _ => false) 7 1, .decreaseData fun _ => true, .fullMemoryClear]

end Storage

end IndexServer
