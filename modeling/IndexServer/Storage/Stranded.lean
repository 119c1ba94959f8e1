import IndexServer.Storage.Folder

/-!
# Sections are stranded

`storingPath` ends in `cache` without a separator, and so begins every name that a search of the
folder lists. The path of an entry of the list thus ends in a name that begins with `cache` twice,
and no file has such a name if none had one at first. So over whole runs no call of `remove` finds
its file, and whoever looks up a word that has an id reads from a stream that is not open.
-/

namespace IndexServer

open FileManager

/-! ### Names that begin with `cache` twice -/

def fileName (path : List UInt8) : List UInt8 := path.rtakeWhile fun b => decide (b ≠ 92)

def Doubled (name : List UInt8) : Prop :=
  [99, 97, 99, 104, 101, 99, 97, 99, 104, 101] <+: name.map lowerCase

instance (name : List UInt8) : Decidable (Doubled name) :=
  inferInstanceAs (Decidable (_ <+: _))

/-- A system whose code page has the characters of ASCII, each in one byte. -/
structure Platform.Plain (p : Platform) : Prop extends p.Documented where
  s2ws_nil : p.s2ws [] = []
  s2ws_cons : ∀ b rest, b < 128 → p.s2ws (b :: rest) = b.toUInt16 :: p.s2ws rest

theorem ascii_of_lowerCase {b : UInt8} (h : lowerCase b < 128) : b < 128 := by
  rw [lowerCase] at h
  split at h
  · grind
  · exact h

theorem utf8_toUInt16 {b : UInt8} (hb : b < 128) : utf8 b.toUInt16 = [b] := by
  have hnat : b.toNat < 128 := hb
  rw [utf8, UInt8.toNat_toUInt16]
  simp only [hnat, if_true, UInt8.ofNat_toNat]

theorem ws2s_map_toUInt16 {name : List UInt8} (hname : ∀ b ∈ name, b < 128) :
    ws2s (name.map UInt8.toUInt16) = name := by
  induction name with
  | nil => rfl
  | cons b rest ih =>
      rw [List.map_cons, ws2s, List.flatMap_cons, utf8_toUInt16 (hname b List.mem_cons_self)]
      exact congrArg (b :: ·) (ih fun c hc => hname c (List.mem_cons_of_mem b hc))

theorem eq_of_mem_utf8 {u : WChar} {b : UInt8} (hmem : b ∈ utf8 u) (hb : b < 128) :
    u = b.toUInt16 := by
  have hrange := u.toNat_lt
  have hsmall : b.toNat < 128 := hb
  rw [utf8] at hmem
  split at hmem
  · rw [List.mem_singleton.mp hmem]
    apply UInt16.toNat_inj.mp
    rw [UInt8.toNat_toUInt16, UInt8.toNat_ofNat', Nat.mod_eq_of_lt (by omega)]
  · split at hmem
    · simp only [List.mem_cons, List.not_mem_nil, or_false] at hmem
      rcases hmem with rfl | rfl
      all_goals
        rw [UInt8.toNat_ofNat'] at hsmall
        omega
    · simp only [List.mem_cons, List.not_mem_nil, or_false] at hmem
      rcases hmem with rfl | rfl | rfl
      all_goals
        rw [UInt8.toNat_ofNat'] at hsmall
        omega

theorem separator_not_mem_ws2s {w : WString} (hw : 92 ∉ w) : 92 ∉ ws2s w := by
  intro hmem
  obtain ⟨u, hu, hbyte⟩ := List.mem_flatMap.mp hmem
  have hunit : u = 92 := eq_of_mem_utf8 hbyte (by decide)
  exact hw (hunit ▸ hu)

namespace Platform.Plain

variable {p : Platform} (hp : p.Plain)
include hp

theorem s2ws_append {front : List UInt8} (hfront : ∀ b ∈ front, b < 128) (back : List UInt8) :
    p.s2ws (front ++ back) = front.map UInt8.toUInt16 ++ p.s2ws back := by
  induction front with
  | nil => rfl
  | cons b rest ih =>
      rw [List.cons_append, hp.s2ws_cons b _ (hfront b List.mem_cons_self),
        ih fun c hc => hfront c (List.mem_cons_of_mem b hc)]
      rfl

theorem s2ws_ws2s {w : WString} (hw : ∀ u ∈ w, u.toNat < 128) : p.s2ws (ws2s w) = w := by
  induction w with
  | nil => exact hp.s2ws_nil
  | cons u rest ih =>
      have hu := hw u List.mem_cons_self
      have hbyte : (UInt8.ofNat u.toNat).toNat = u.toNat := by
        rw [UInt8.toNat_ofNat', Nat.mod_eq_of_lt (by omega)]
      have hfirst : utf8 u = [.ofNat u.toNat] := if_pos hu
      have hlt : UInt8.ofNat u.toNat < 128 := by
        rw [UInt8.lt_iff_toNat_lt, hbyte]
        exact hu
      have hsame : (UInt8.ofNat u.toNat).toUInt16 = u := by
        apply UInt16.toNat_inj.mp
        rw [UInt8.toNat_toUInt16, hbyte]
      rw [ws2s, List.flatMap_cons, hfirst, List.singleton_append, hp.s2ws_cons _ _ hlt, hsame]
      exact congrArg (u :: ·) (ih fun v hv => hw v (List.mem_cons_of_mem u hv))

/-- The path of a listed entry ends in a name that begins with `cache` twice. -/
theorem doubled_fullFilePath {si : SectionInfo} {name : List UInt8} (hname : Matches dirPath name)
    (hsi : si.name = p.s2ws name) (hseparator : 92 ∉ si.name) :
    Doubled (fileName (fullFilePath si)) := by
  have hletters : (name.take 5).map lowerCase = [99, 97, 99, 104, 101] := by
    rw [List.map_take]
    exact (List.prefix_iff_eq_take.mp (matches_dirPath.mp hname)).symm
  have hascii : ∀ b ∈ name.take 5, b < 128 := by
    intro b hb
    have hmem : lowerCase b ∈ (name.take 5).map lowerCase := List.mem_map_of_mem hb
    rw [hletters] at hmem
    have hall : ∀ c ∈ ([99, 97, 99, 104, 101] : List UInt8), c < 128 := by simp
    exact ascii_of_lowerCase (hall _ hmem)
  have hunits : si.name = (name.take 5).map UInt8.toUInt16 ++ p.s2ws (name.drop 5) := by
    rw [hsi, ← hp.s2ws_append hascii, List.take_append_drop]
  have hbytes : ws2s si.name = name.take 5 ++ ws2s (p.s2ws (name.drop 5)) := by
    rw [hunits, ws2s_append, ws2s_map_toUInt16 hascii]
  have hpath : fullFilePath si = [46, 46] ++ 92 :: ([99, 97, 99, 104, 101] ++ ws2s si.name) := by
    rw [fullFilePath, ws2s_append]
    rfl
  have hclear : ∀ b ∈ ([99, 97, 99, 104, 101] : List UInt8) ++ ws2s si.name,
      decide (b ≠ 92) = true := by
    intro b hb
    refine decide_eq_true ?_
    rintro rfl
    rcases List.mem_append.mp hb with hletter | hrest
    · exact absurd hletter (by decide)
    · exact separator_not_mem_ws2s hseparator hrest
  have hbehind : fileName (fullFilePath si) = [99, 97, 99, 104, 101] ++ ws2s si.name := by
    rw [fileName, hpath, List.rtakeWhile, List.reverse_append, List.reverse_cons,
      List.append_assoc, List.takeWhile_append_of_pos fun b hb =>
        hclear b (List.mem_reverse.mp hb)]
    exact (congrArg List.reverse (List.append_nil _)).trans (List.reverse_reverse _)
  rw [Doubled, hbehind, hbytes, List.map_append, List.map_append, hletters, ← List.append_assoc]
  exact List.prefix_append _ _

end Platform.Plain

/-! ### Opening files -/

/-- The file that a path leads to. The system does not tell letters in different cases apart. -/
def fileAt (folder : List FindData) (path : List UInt8) : Option FindData :=
  folder.find? fun f => decide (f.name.map lowerCase = (fileName path).map lowerCase)

namespace Storage

/-- `loadItemValue` on the file at a path. A stream that is not open delivers what the stream of an
empty file does. -/
def load (refill : Refill) (content : FindData → WString) (s : Storage) (path id : WString) :
    Exec (List WString) :=
  match fileAt s.folder (ws2s path) with
  | some f => InvertedIndex.loadItemValue refill (content f) id
  | none => InvertedIndex.loadItemValue refill [] id

def get (refill : Refill) (content : FindData → WString) (s : Storage) (key : WString) :
    Exec (List WString) :=
  s.index.get (s.load refill content) s.fm key

/-- The bytes of the name under which a section is written. -/
def sectionName (n : ℕ) : List UInt8 :=
  ws2s (bareName (HashTable.savePath (storingPath ++ InvertedIndex.unicName sectionType n)))

/-- No file has a name that a listed entry leads to. -/
structure Stranded (p : Platform) (s : Storage) : Prop where
  follows : s.Follows p
  names : ∀ f ∈ s.folder, ¬ Doubled f.name ∧ 92 ∉ p.s2ws f.name
  entries : ∀ si ∈ s.fm.sectionsInfo, ∃ name, Matches dirPath name ∧ si.name = p.s2ws name ∧
    92 ∉ si.name

variable {p : Platform} {s s' : Storage} {folder : List FindData}

theorem Stranded.missing (hp : p.Plain) (h : s.Stranded p) {si : SectionInfo}
    (hsi : si ∈ s.fm.sectionsInfo) {f : FindData} (hf : f ∈ s.folder) :
    f.name.map lowerCase ≠ (fileName (fullFilePath si)).map lowerCase := by
  obtain ⟨name, hmatches, hname, hseparator⟩ := h.entries si hsi
  intro hsame
  have hdoubled := hp.doubled_fullFilePath hmatches hname hseparator
  rw [Doubled, ← hsame] at hdoubled
  exact (h.names f hf).1 hdoubled

/-- `clearMemory` removes nothing. -/
theorem Stranded.removeFiles_eq (hp : p.Plain) (h : s.Stranded p) {paths : List (List UInt8)}
    (hpaths : ∀ path ∈ paths, ∃ si ∈ s.fm.sectionsInfo, path = fullFilePath si) :
    removeFiles paths s.folder = s.folder := by
  induction paths with
  | nil => rfl
  | cons path rest ih =>
      obtain ⟨si, hsi, rfl⟩ := hpaths path List.mem_cons_self
      have hkept : removeFile (fullFilePath si) s.folder = s.folder := by
        refine List.eraseP_of_forall_not fun f hf hname => ?_
        exact h.missing hp hsi hf (congrArg (List.map lowerCase) (of_decide_eq_true hname))
      rw [removeFiles, List.foldl_cons, hkept]
      exact ih fun other hother => hpaths other (List.mem_cons_of_mem _ hother)

/-! ### The handlers -/

theorem sectionName_eq (n : ℕ) : sectionName n =
    ws2s ([99, 97, 99, 104, 101] ++ (InvertedIndex.unicName sectionType n ++ extension)) := by
  rw [sectionName, HashTable.savePath, List.append_assoc]
  refine congrArg ws2s (bareName_append [46, 46] ?_)
  have hcache : (92 : WChar) ∉ ([99, 97, 99, 104, 101] : WString) := by decide
  exact fun hmem => (List.mem_append.mp hmem).elim hcache (separator_not_mem_unicName n)

theorem ascii_unicName {n : ℕ} {u : WChar}
    (hu : u ∈ InvertedIndex.unicName sectionType n ++ extension) : u.toNat < 128 := by
  have hletters : ∀ u ∈ sectionType ++ [45] ++ extension, u.toNat < 128 := by
    simp [sectionType, extension]
  simp only [InvertedIndex.unicName, List.mem_append] at hu hletters
  rcases hu with (((htype | hdash) | hnumber) | hextension) | hextension
  · exact hletters u (.inl (.inl htype))
  · exact hletters u (.inl (.inr hdash))
  · have hdigit := isDigit_of_mem_codes (List.mem_map_of_mem hnumber)
    rw [isDigit_iff] at hdigit
    omega
  · exact hletters u (.inr hextension)
  · exact hletters u (.inr hextension)

theorem not_doubled_sectionName (n : ℕ) : ¬ Doubled (sectionName n) := by
  intro hdoubled
  rw [Doubled, sectionName_eq, ws2s_append, List.map_append] at hdoubled
  have hrest := List.prefix_append_right_inj (ws2s [99, 97, 99, 104, 101] |>.map lowerCase)
    |>.mp hdoubled
  obtain ⟨behind, hbehind⟩ := hrest
  exact absurd (List.cons.inj hbehind).1 (by decide)

theorem separator_not_mem_sectionName (hp : p.Plain) (n : ℕ) : 92 ∉ p.s2ws (sectionName n) := by
  have hcache : (92 : WChar) ∉ ([99, 97, 99, 104, 101] : WString) := by decide
  have hletters : ∀ u ∈ ([99, 97, 99, 104, 101] : WString), u.toNat < 128 := by simp
  rw [sectionName_eq, hp.s2ws_ws2s fun u hu =>
    (List.mem_append.mp hu).elim (hletters u) ascii_unicName]
  exact fun hmem => (List.mem_append.mp hmem).elim hcache (separator_not_mem_unicName n)

theorem entries_of_read (hp : p.Documented) {fm fm' : FileManager} {si : List SectionInfo}
    (hread : fm.readSectionsInfo p folder = .ok (fm', si))
    (hnames : ∀ f ∈ folder, ¬ Doubled f.name ∧ 92 ∉ p.s2ws f.name) :
    ∀ info ∈ si, ∃ name, Matches dirPath name ∧ info.name = p.s2ws name ∧ 92 ∉ info.name := by
  intro info hinfo
  obtain ⟨fileData, hfound, hcreate⟩ := mem_readSectionsInfo hread hinfo
  obtain ⟨hmem, hmatches⟩ := List.mem_filter.mp ((hp.finds folder).mem_iff.mp hfound)
  have hname := createSectionInfo_name hcreate
  exact ⟨fileData.name, hmatches, hname, hname ▸ (hnames fileData hmem).2⟩

theorem stranded_start (hp : p.Plain) (h : start p folder = .ok s)
    (hnames : ∀ f ∈ folder, ¬ Doubled f.name ∧ 92 ∉ p.s2ws f.name) : s.Stranded p := by
  have hfollows := follows_start hp.toDocumented h
  obtain ⟨⟨fm, si⟩, hread, h⟩ := Exec.bind_eq_ok.mp h
  cases h
  exact ⟨hfollows, hnames, entries_of_read hp.toDocumented hread hnames⟩

/-- Every file stays, and it stays as it is unless a section is written over it. -/
def KeepsFiles (folder folder' : List FindData) : Prop :=
  ∀ f ∈ folder, ∃ f' ∈ folder', f'.name = f.name ∧ (f' = f ∨ ∃ n, f.name = sectionName n)

theorem keepsFiles_refl (folder : List FindData) : KeepsFiles folder folder :=
  fun f hf => ⟨f, hf, rfl, .inl rfl⟩

theorem KeepsFiles.trans {folder folder' folder'' : List FindData}
    (h : KeepsFiles folder folder') (h' : KeepsFiles folder' folder'') :
    KeepsFiles folder folder'' := by
  intro f hf
  obtain ⟨f', hf', hname, hsame⟩ := h f hf
  obtain ⟨f'', hf'', hname', hsame'⟩ := h' f' hf'
  refine ⟨f'', hf'', hname'.trans hname, ?_⟩
  rcases hsame with rfl | hsection
  · exact hsame'
  · exact .inr hsection

theorem Stranded.saveTable (hp : p.Plain) (h : s.Stranded p) {fuel : ℕ} {path : WString}
    (hrun : s.saveTable p fuel = .ok (s', path)) :
    s'.Stranded p ∧ KeepsFiles s.folder s'.folder := by
  have hfollows := follows_saveTable hp.toDocumented hrun
  obtain ⟨fileName, hfileName, hrun⟩ := Exec.bind_eq_ok.mp hrun
  obtain ⟨content, _, hrun⟩ := Exec.bind_eq_ok.mp hrun
  obtain ⟨⟨fm, si⟩, hread, hrun⟩ := Exec.bind_eq_ok.mp hrun
  obtain ⟨index, _, hrun⟩ := Exec.bind_eq_ok.mp hrun
  cases hrun
  obtain ⟨n, rfl⟩ := InvertedIndex.getUnicName_eq hfileName
  have hnames : ∀ f ∈ writeFile p (HashTable.savePath
      (s.fm.getPath ++ InvertedIndex.unicName sectionType n)) content s.folder,
      ¬ Doubled f.name ∧ 92 ∉ p.s2ws f.name := by
    intro f hf
    rcases List.mem_append.mp hf with hold | hnew
    · exact h.names f (List.mem_filter.mp hold).1
    · rw [List.mem_singleton.mp hnew]
      exact ⟨not_doubled_sectionName n, separator_not_mem_sectionName hp n⟩
  refine ⟨⟨hfollows, hnames, entries_of_read hp.toDocumented hread hnames⟩, fun f hf => ?_⟩
  by_cases hname : f.name = sectionName n
  · exact ⟨_, List.mem_append_right _ List.mem_cons_self, hname.symm, .inr ⟨n, hname⟩⟩
  · exact ⟨f, List.mem_append_left _ (List.mem_filter.mpr ⟨hf, decide_eq_true hname⟩), rfl,
      .inl rfl⟩

theorem Stranded.fullMemoryClear (hp : p.Plain) (h : s.Stranded p)
    (hrun : s.fullMemoryClear p = .ok s') : s'.Stranded p ∧ s'.folder = s.folder := by
  have hfollows := h.follows.fullMemoryClear hp.toDocumented hrun
  have hkept : removeFiles s.fm.clearMemory s.folder = s.folder := by
    refine h.removeFiles_eq hp fun path hpath => ?_
    obtain ⟨si, hsi, rfl⟩ := List.mem_map.mp hpath
    exact ⟨si, hsi, rfl⟩
  obtain ⟨⟨fm, si⟩, hread, hrun⟩ := Exec.bind_eq_ok.mp hrun
  obtain ⟨index, _, hrun⟩ := Exec.bind_eq_ok.mp hrun
  cases hrun
  rw [hkept] at hread
  exact ⟨⟨hfollows, hkept.symm ▸ h.names, entries_of_read hp.toDocumented hread h.names⟩, hkept⟩

/-- No entry has the type of a section, so no file is to be removed. -/
theorem Stranded.decreaseData {sort : List SectionInfo → List SectionInfo}
    (hsort : ∀ sections, (sort sections).Perm sections) (h : s.Stranded p) (removes : ℕ → Bool) :
    (s.decreaseData sort removes).Stranded p ∧
      (s.decreaseData sort removes).folder = s.folder := by
  have hfollows : (s.decreaseData sort removes).Follows p := h.follows.decreaseData hsort
  have hnone := (forall_mem_placed_sort hsort).mpr h.follows.type_ne
  have hperm := hsort s.fm.sectionsInfo
  rw [Storage.decreaseData] at hfollows ⊢
  simp only [decreaseStoredData_of_spared (.inr hnone)] at hfollows ⊢
  rw [sortedClearing, map_info_placed] at hfollows ⊢
  exact ⟨⟨hfollows, h.names, fun si hsi => h.entries si (hperm.mem_iff.mp hsi)⟩, rfl⟩

theorem Stranded.step {sort : List SectionInfo → List SectionInfo} {op : Op} (hp : p.Plain)
    (hsort : ∀ sections, (sort sections).Perm sections) (h : s.Stranded p)
    (hstep : s.step p sort op = some s') : s'.Stranded p ∧ KeepsFiles s.folder s'.folder := by
  cases op with
  | saveTable opens time fuel =>
      obtain ⟨⟨t, path⟩, hrun, rfl⟩ := Option.map_eq_some_iff.mp hstep
      have hnow : ({ p with opens, time } : Platform).Plain :=
        { finds := hp.finds, ascii := hp.ascii, s2ws_nil := hp.s2ws_nil, s2ws_cons := hp.s2ws_cons }
      have hold : s.Stranded { p with opens, time } :=
        ⟨⟨⟨h.follows.agrees.total, h.follows.agrees.exists_file⟩, h.follows.type_ne,
          h.follows.fewer⟩, h.names, h.entries⟩
      obtain ⟨ht, hkeeps⟩ := hold.saveTable hnow (Exec.toOption_eq_some.mp hrun)
      exact ⟨⟨⟨⟨ht.follows.agrees.total, ht.follows.agrees.exists_file⟩, ht.follows.type_ne,
        ht.follows.fewer⟩, ht.names, ht.entries⟩, hkeeps⟩
  | fullMemoryClear =>
      obtain ⟨ht, hsame⟩ := h.fullMemoryClear hp (Exec.toOption_eq_some.mp hstep)
      exact ⟨ht, hsame ▸ keepsFiles_refl _⟩
  | decreaseData removes =>
      cases hstep
      obtain ⟨ht, hsame⟩ := h.decreaseData hsort removes
      exact ⟨ht, hsame ▸ keepsFiles_refl _⟩
  | index index =>
      cases hstep
      exact ⟨⟨⟨⟨h.follows.agrees.total, h.follows.agrees.exists_file⟩, h.follows.type_ne,
        h.follows.fewer⟩, h.names, h.entries⟩, keepsFiles_refl _⟩

/-! ### Runs -/

section run

variable {sort : List SectionInfo → List SectionInfo} {ops : List Op} {t : Storage}
  (hp : p.Plain) (hsort : ∀ sections, (sort sections).Perm sections)
  (hnames : ∀ f ∈ folder, ¬ Doubled f.name ∧ 92 ∉ p.s2ws f.name)
  (hstart : start p folder = .ok s)
include hp hsort hnames hstart

theorem run_stranded (hrun : Machine.run (step p sort) s ops = some t) : t.Stranded p :=
  Machine.run_history (fun _ s => s.Stranded p) (stranded_start hp hstart hnames)
    (fun _ _ _ _ _ hs hu => (hs.step hp hsort hu).1) hrun

end run

/-! ### Lookups -/

section lookup

variable {refill : Refill} (hrefill : refill [] [] HashTable.cellSize = [])
include hrefill

/-- Nothing is delivered, and `stoll` throws. -/
theorem loadItemValue_nil (id : WString) :
    InvertedIndex.loadItemValue refill [] id = .error .thrown := by
  have hread : (InvertedIndex.Loading.readAt
      { stream := { file := [], pos := 0, failed := false }, buffer := [] } refill 0
        HashTable.cellSize).buffer = [] := hrefill
  rw [InvertedIndex.loadItemValue]
  dsimp only
  rw [hread]
  rfl

theorem Stranded.load_eq (hp : p.Plain) (h : s.Stranded p) (content : FindData → WString)
    {si : SectionInfo} (hsi : si ∈ s.fm.sectionsInfo) (id : WString) :
    s.load refill content (s.fm.getPath ++ si.name) id = .error .thrown := by
  have hnone : fileAt s.folder (ws2s (s.fm.getPath ++ si.name)) = none := by
    rw [fileAt, List.find?_eq_none]
    intro f hf hname
    exact h.missing hp hsi hf (of_decide_eq_true hname)
  rw [load, hnone]
  exact loadItemValue_nil hrefill id

omit hrefill in
theorem loadSections_thrown {load : WString → WString → Exec (List WString)} {path id : WString}
    {sections : List SectionInfo} {result : List WString}
    (hload : ∀ si ∈ sections, load (path ++ si.name) id = .error .thrown) :
    InvertedIndex.loadSections load path id sections result =
      if ∃ si ∈ sections, find si.name sectionType 0 ≠ none then .error .thrown
      else .ok result := by
  induction sections with
  | nil => exact (if_neg (by simp)).symm
  | cons si rest ih =>
      rw [InvertedIndex.loadSections]
      by_cases hother : find si.name sectionType 0 = none
      · rw [if_pos hother, ih fun other hmem => hload other (List.mem_cons_of_mem si hmem)]
        simp [hother]
      · rw [if_neg hother, hload si List.mem_cons_self, if_pos ⟨si, List.mem_cons_self, hother⟩]
        rfl

end lookup

/-! ### A first section -/

theorem plainPlatform_plain : plainPlatform.Plain where
  toDocumented := plainPlatform_documented
  s2ws_nil := rfl
  s2ws_cons _ _ _ := rfl

def oneWord : InvertedIndex :=
  (InvertedIndex.new.add [97] [[115]]).toOption.getD InvertedIndex.new

/-- The table is saved, and a word is added. -/
def spillAndAdd : List Op :=
  [.saveTable (fun _ => false) 7 1, .index oneWord]

end Storage

end IndexServer
