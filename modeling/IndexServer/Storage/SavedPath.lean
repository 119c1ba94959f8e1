import IndexServer.Storage.Model

/-!
# Saved sections are not found again

`storingPath` has no separator at its end. What `HashTable::saveTable` writes lies beside the folder
`cache` under a name that begins with `cache`, and with the path before it that name is the name of
no file that was written: it begins with `cache` twice.
-/

namespace IndexServer

open FileManager

/-! ### Names -/

namespace InvertedIndex

theorem getUnicNameLoop_eq {p : Platform} {type name result : WString} {fuel i : ℕ}
    {fileExist : Bool} (hname : ∃ n, name = unicName type n)
    (h : getUnicNameLoop p type fuel fileExist name i = .ok result) :
    ∃ n, result = unicName type n := by
  induction fuel generalizing fileExist name i with
  | zero =>
      cases fileExist with
      | false =>
          cases h
          exact hname
      | true => cases h
  | succ fuel ih =>
      cases fileExist with
      | false =>
          cases h
          exact hname
      | true => exact ih ⟨i, rfl⟩ h

theorem getUnicName_eq {p : Platform} {fm : FileManager} {type result : WString} {fuel : ℕ}
    (h : getUnicName p fm type fuel = .ok result) : ∃ n, result = unicName type n :=
  getUnicNameLoop_eq ⟨_, rfl⟩ h

end InvertedIndex

theorem ws2s_append (s t : WString) : ws2s (s ++ t) = ws2s s ++ ws2s t := List.flatMap_append

/-! ### The entries of the list of sections -/

namespace FileManager

variable {p : Platform} {si : SectionInfo}

theorem createSectionInfo_name {fileData : FindData} (h : createSectionInfo p fileData = .ok si) :
    si.name = p.s2ws fileData.name := by
  obtain ⟨pieces, _, h⟩ := Exec.bind_eq_ok.mp h
  obtain ⟨type, _, h⟩ := Exec.bind_eq_ok.mp h
  cases h
  rfl

theorem mem_createSectionsInfo {found : List FindData} {sectionsInfo : List SectionInfo}
    (h : createSectionsInfo p found = .ok sectionsInfo) (hsi : si ∈ sectionsInfo) :
    ∃ fileData ∈ found, createSectionInfo p fileData = .ok si := by
  induction found generalizing sectionsInfo with
  | nil =>
      cases h
      cases hsi
  | cons fileData rest ih =>
      obtain ⟨first, hfirst, h⟩ := Exec.bind_eq_ok.mp h
      obtain ⟨others, hothers, h⟩ := Exec.bind_eq_ok.mp h
      cases h
      cases List.mem_cons.mp hsi with
      | inl heq =>
          subst heq
          exact ⟨fileData, List.mem_cons_self, hfirst⟩
      | inr hmem =>
          obtain ⟨found, hfound, hinfo⟩ := ih hothers hmem
          exact ⟨found, List.mem_cons_of_mem _ hfound, hinfo⟩

theorem mem_readSectionsInfo {fm fm' : FileManager} {folder : List FindData}
    {sectionsInfo : List SectionInfo}
    (h : fm.readSectionsInfo p folder = .ok (fm', sectionsInfo)) (hsi : si ∈ sectionsInfo) :
    ∃ fileData ∈ p.findFiles dirPath folder, createSectionInfo p fileData = .ok si := by
  simp only [readSectionsInfo] at h
  split at h
  · cases h
    cases hsi
  · obtain ⟨all, hall, h⟩ := Exec.bind_eq_ok.mp h
    cases h
    apply mem_createSectionsInfo hall
    split at hsi
    · cases hsi
    · exact List.mem_of_mem_drop hsi

end FileManager

/-! ### Paths -/

theorem eq_of_lowerCase {b : UInt8} (h : lowerCase b = 99) : b = 99 ∨ b = 67 := by
  rw [lowerCase] at h
  split at h
  · exact .inr (by grind)
  · exact .inl h

/-- The names that begin with `cache` are listed. -/
theorem matches_dirPath {name : List UInt8} :
    Matches dirPath name = true ↔ [99, 97, 99, 104, 101] <+: name.map lowerCase := by
  have hstem : ((dirPath.rtakeWhile fun b => decide (b ≠ 92)).takeWhile
      fun b => decide (b ≠ 42)).map lowerCase = [99, 97, 99, 104, 101] := by decide
  rw [Matches, List.isPrefixOf_iff_prefix, hstem]

theorem Matches.head {name : List UInt8} (h : Matches dirPath name = true) :
    ∃ b rest, name = b :: rest ∧ (b = 99 ∨ b = 67) := by
  obtain ⟨behind, hbehind⟩ := matches_dirPath.mp h
  cases name with
  | nil => cases hbehind
  | cons b rest => exact ⟨b, rest, rfl, eq_of_lowerCase (List.cons.inj hbehind).1.symm⟩

theorem savePath_unicName (fm : FileManager) (n : ℕ) :
    ∃ rest, HashTable.savePath (fm.getPath ++ InvertedIndex.unicName sectionType n) =
      storingPath ++ 83 :: rest :=
  ⟨_, by simp [HashTable.savePath, InvertedIndex.unicName, sectionType, getPath]; rfl⟩

theorem Platform.Documented.s2ws_name {p : Platform} (hp : p.Documented) {folder : List FindData}
    {fileData : FindData} (hfound : fileData ∈ p.findFiles dirPath folder) :
    ∃ u rest, p.s2ws fileData.name = u :: rest ∧ (u = 99 ∨ u = 67) := by
  have hmatches := (List.mem_filter.mp ((hp.finds folder).mem_iff.mp hfound)).2
  obtain ⟨b, behind, hb, hletter⟩ := Matches.head hmatches
  rcases hletter with rfl | rfl
  · obtain ⟨units, hunits⟩ := hp.ascii 99 behind (by decide)
    exact ⟨99, units, hb ▸ hunits, .inl rfl⟩
  · obtain ⟨units, hunits⟩ := hp.ascii 67 behind (by decide)
    exact ⟨67, units, hb ▸ hunits, .inr rfl⟩

/-- No path that begins with the letter of `Section` behind `storingPath` is the path of a listed
entry, for reading or for removing. -/
theorem Platform.Documented.path_ne {p : Platform} (hp : p.Documented) {folder : List FindData}
    {fileData : FindData} (hfound : fileData ∈ p.findFiles dirPath folder) {si : SectionInfo}
    (hname : si.name = p.s2ws fileData.name) (rest : WString) :
    storingPath ++ si.name ≠ storingPath ++ 83 :: rest ∧
      fullFilePath si ≠ ws2s (storingPath ++ 83 :: rest) := by
  obtain ⟨u, units, hunits, hletter⟩ := hp.s2ws_name hfound
  rw [fullFilePath, ws2s_append, ws2s_append, hname, hunits]
  constructor
  · intro heq
    have hhead := (List.cons.inj (List.append_cancel_left heq)).1
    cases hletter with
    | inl h => subst h; cases hhead
    | inr h => subst h; cases hhead
  · intro heq
    have hbytes := List.append_cancel_left heq
    cases hletter with
    | inl h => subst h; cases hbytes
    | inr h => subst h; cases hbytes

/-! ### What reads and removes files -/

theorem InvertedIndex.loadSections_congr {load load' : WString → WString → Exec (List WString)}
    {storingPath id : WString} {sections : List SectionInfo}
    (h : ∀ si ∈ sections, load (storingPath ++ si.name) id = load' (storingPath ++ si.name) id)
    (result : List WString) :
    loadSections load storingPath id sections result =
      loadSections load' storingPath id sections result := by
  induction sections generalizing result with
  | nil => rfl
  | cons si rest ih =>
      have hrest := fun result => ih (fun si hsi => h si (List.mem_cons_of_mem _ hsi)) result
      rw [loadSections, loadSections, h si List.mem_cons_self]
      split
      · exact hrest result
      · exact bind_congr fun value => hrest _

theorem InvertedIndex.get_congr {load load' : WString → WString → Exec (List WString)}
    {fm : FileManager} (s : InvertedIndex)
    (h : ∀ si ∈ fm.getSections, ∀ id, load (fm.getPath ++ si.name) id =
      load' (fm.getPath ++ si.name) id) (key : WString) :
    s.get load fm key = s.get load' fm key := by
  apply bind_congr
  intro wordIdVector
  split
  · rfl
  · apply bind_congr
    intro id
    apply bind_congr
    intro result
    exact loadSections_congr (fun si hsi => h si hsi id) result

namespace FileManager

theorem mem_of_mem_getSections {fm : FileManager} {si : SectionInfo} (h : si ∈ fm.getSections) :
    si ∈ fm.sectionsInfo := by
  rw [getSections] at h
  split at h
  · cases h
  · exact h

theorem mem_deleteLoop {removes : List UInt8 → Bool} {sections : List SectionInfo} {d : Deletion}
    {path : List UInt8} (h : path ∈ (deleteLoop removes sections d).removed) :
    path ∈ d.removed ∨ ∃ si ∈ sections, fullFilePath si = path := by
  induction sections generalizing d with
  | nil => exact .inl h
  | cons si rest ih =>
      have hstep : path ∈ d.removed ++ [fullFilePath si] ∨
          (∃ si ∈ rest, fullFilePath si = path) → path ∈ d.removed ∨
            ∃ si' ∈ si :: rest, fullFilePath si' = path := by
        rw [List.mem_append, List.mem_singleton]
        rintro ((hold | hnew) | ⟨other, hother, hpath⟩)
        · exact .inl hold
        · exact .inr ⟨si, List.mem_cons_self, hnew.symm⟩
        · exact .inr ⟨other, List.mem_cons_of_mem _ hother, hpath⟩
      rw [deleteLoop] at h
      split at h
      · simp only at h
        split at h
        · exact hstep (ih h)
        · exact hstep (.inl h)
      · cases ih h with
        | inl hold => exact .inl hold
        | inr hother => exact hstep (.inr hother)

theorem mem_deleteFileOfType {fm : FileManager} {removes : List UInt8 → Bool} {path : List UInt8}
    (h : path ∈ (fm.deleteFileOfType removes).removed) :
    ∃ si ∈ fm.sectionsInfo, fullFilePath si = path := by
  cases mem_deleteLoop h with
  | inl hnone => cases hnone
  | inr hentry => exact hentry

/-- The list of sections has an entry for the file at the path, and what `get` opens and what
`clearMemory` and `deleteFileOfType` remove for it is that file. -/
def Keeps (fm : FileManager) (path : WString) : Prop :=
  ∃ si ∈ fm.getSections, si.name = bareName path ∧
    fm.getPath ++ si.name = path ∧ fullFilePath si = ws2s path

instance (fm : FileManager) (path : WString) : Decidable (fm.Keeps path) :=
  inferInstanceAs (Decidable (∃ si ∈ fm.getSections, _))

end FileManager

/-! ### The handler -/

namespace Storage

variable {p : Platform} {fuel : ℕ} {s s' : Storage} {path : WString}

theorem saveTable_path (h : s.saveTable p fuel = .ok (s', path)) :
    ∃ rest, path = storingPath ++ 83 :: rest := by
  obtain ⟨fileName, hfileName, h⟩ := Exec.bind_eq_ok.mp h
  obtain ⟨content, _, h⟩ := Exec.bind_eq_ok.mp h
  obtain ⟨read, _, h⟩ := Exec.bind_eq_ok.mp h
  obtain ⟨index, _, h⟩ := Exec.bind_eq_ok.mp h
  cases h
  obtain ⟨n, rfl⟩ := InvertedIndex.getUnicName_eq hfileName
  exact savePath_unicName s.fm n

theorem saveTable_sections (h : s.saveTable p fuel = .ok (s', path)) {si : SectionInfo}
    (hsi : si ∈ s'.fm.sectionsInfo) :
    ∃ fileData ∈ p.findFiles dirPath s'.folder, si.name = p.s2ws fileData.name := by
  obtain ⟨fileName, _, h⟩ := Exec.bind_eq_ok.mp h
  obtain ⟨content, _, h⟩ := Exec.bind_eq_ok.mp h
  obtain ⟨⟨fm, sectionsInfo⟩, hread, h⟩ := Exec.bind_eq_ok.mp h
  obtain ⟨index, _, h⟩ := Exec.bind_eq_ok.mp h
  cases h
  obtain ⟨fileData, hfound, hinfo⟩ := mem_readSectionsInfo hread hsi
  exact ⟨fileData, hfound, createSectionInfo_name hinfo⟩

/-- No entry of the list leads to the file that the handler has written. -/
theorem saveTable_entry_ne (hp : p.Documented) (h : s.saveTable p fuel = .ok (s', path))
    {si : SectionInfo} (hsi : si ∈ s'.fm.sectionsInfo) :
    s'.fm.getPath ++ si.name ≠ path ∧ fullFilePath si ≠ ws2s path := by
  obtain ⟨fileData, hfound, hname⟩ := saveTable_sections h hsi
  obtain ⟨rest, rfl⟩ := saveTable_path h
  exact hp.path_ne hfound hname rest

/-- Whatever the folder held, the file that the handler has written is lost: its content changes no
lookup, and neither `clearMemory` nor `deleteFileOfType` removes it. -/
theorem saveTable_lost (hp : p.Documented) (h : s.saveTable p fuel = .ok (s', path)) :
    ¬ s'.fm.Keeps path ∧
      (∀ load load' : WString → WString → Exec (List WString),
        (∀ other ≠ path, load other = load' other) →
          ∀ key, s'.index.get load s'.fm key = s'.index.get load' s'.fm key) ∧
      ws2s path ∉ s'.fm.clearMemory ∧
      ∀ removes, ws2s path ∉ (s'.fm.deleteFileOfType removes).removed := by
  refine ⟨?_, ?_, ?_, ?_⟩
  · rintro ⟨si, hsi, _, hopened, _⟩
    exact (saveTable_entry_ne hp h (mem_of_mem_getSections hsi)).1 hopened
  · intro load load' hload key
    apply InvertedIndex.get_congr
    intro si hsi id
    rw [hload _ (saveTable_entry_ne hp h (mem_of_mem_getSections hsi)).1]
  · intro hmem
    obtain ⟨si, hsi, hremoved⟩ := List.mem_map.mp hmem
    exact (saveTable_entry_ne hp h hsi).2 hremoved
  · intro removes hmem
    obtain ⟨si, hsi, hremoved⟩ := mem_deleteFileOfType hmem
    exact (saveTable_entry_ne hp h hsi).2 hremoved

/-! ### A first section -/

/-- A system in which no name is taken and the search lists a folder in its own order. -/
def plainPlatform : Platform where
  s2ws name := name.map UInt8.toUInt16
  findFiles path folder := folder.filter fun f => Matches path f.name
  opens _ := false
  fileSize := List.length
  time := 0

theorem plainPlatform_documented : plainPlatform.Documented where
  finds _ := List.Perm.refl _
  ascii _ rest _ := ⟨rest.map UInt8.toUInt16, rfl⟩

def beforeSave : Storage where
  index := InvertedIndex.new
  fm := { currentStoringCapacity := 0, sectionsInfo := [], clearInProcess := false }
  folder := [⟨[99, 97, 99, 104, 101], 0, 0⟩,
    ⟨[99, 97, 99, 104, 101, 84, 101, 115, 116, 45, 49, 46, 116, 120, 116], 0, 0⟩]

/-- `L"..\\cacheSection-0.txt.txt"` -/
def firstSection : WString :=
  storingPath ++ sectionType ++ [45, 48] ++ extension ++ extension

/-- The entry of the section is listed, and leads to another file. -/
theorem firstSection_lost : ∃ s', beforeSave.saveTable plainPlatform 1 = .ok (s', firstSection) ∧
    (∃ si ∈ s'.fm.getSections, si.name = bareName firstSection) ∧
    ¬ s'.fm.Keeps firstSection ∧
    (∀ load load' : WString → WString → Exec (List WString),
      (∀ other ≠ firstSection, load other = load' other) →
        ∀ key, s'.index.get load s'.fm key = s'.index.get load' s'.fm key) ∧
    ws2s firstSection ∉ s'.fm.clearMemory ∧
    ∀ removes, ws2s firstSection ∉ (s'.fm.deleteFileOfType removes).removed := by
  have hrun : (beforeSave.saveTable plainPlatform 1).toOption.map (fun r =>
      decide (r.2 = firstSection ∧ ∃ si ∈ r.1.fm.getSections, si.name = bareName firstSection)) =
        some true := by decide
  obtain ⟨⟨s', path⟩, hsave, hlisted⟩ := Option.map_eq_some_iff.mp hrun
  obtain ⟨rfl, hlisted⟩ := of_decide_eq_true hlisted
  have hsave := Exec.toOption_eq_some.mp hsave
  exact ⟨s', hsave, hlisted, saveTable_lost plainPlatform_documented hsave⟩

theorem firstSection_not_keeps : ¬ ∀ (p : Platform) (fuel : ℕ) (s s' : Storage) (path : WString),
    p.Documented → s.saveTable p fuel = .ok (s', path) → s'.fm.Keeps path := by
  intro hclaim
  have hrun : (beforeSave.saveTable plainPlatform 1).toOption.map (fun r =>
      decide (r.1.fm.Keeps r.2)) = some false := by decide
  obtain ⟨⟨s', path⟩, hsave, hkeeps⟩ := Option.map_eq_some_iff.mp hrun
  exact of_decide_eq_false hkeeps
    (hclaim _ _ _ _ _ plainPlatform_documented (Exec.toOption_eq_some.mp hsave))

end Storage

end IndexServer
