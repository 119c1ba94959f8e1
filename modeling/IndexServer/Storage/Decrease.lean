import IndexServer.Storage.Model
import Mathlib.Algebra.BigOperators.Group.List.Basic
import Mathlib.Data.List.Nodup
import Mathlib.Data.List.Sort

/-!
# Freeing space

`decreaseStoredData` with the outcomes of its calls of `remove`. `deleteFileOfType` passes over an
entry whose file it has removed and erases the first one whose file it has not, and it looks for
sections whatever type it is asked for. So nothing goes well as soon as a file is to be removed at
all. Of `std::sort` it is only taken that it permutes; for entries of one size its comparison with
`>=` is no strict order.
-/

namespace IndexServer

def dictionaryType : WString := [68, 105, 99, 116, 105, 111, 110, 97, 114, 121]

/-- An entry of the sorted vector, and its place there, by which equal entries are told apart. -/
structure Entry where
  place : ℕ
  info : SectionInfo
  deriving DecidableEq, Repr

/-- A call of `remove` for the file of an entry. -/
structure Removal where
  entry : Entry
  succeeded : Bool
  deriving DecidableEq, Repr

def Removal.path (removal : Removal) : List UInt8 := FileManager.fullFilePath removal.entry.info

/-- The vector of entries, the variable `storedSize` and the calls of `remove` so far. -/
structure Clearing where
  sectionsInfo : List Entry
  storedSize : Int
  removals : List Removal
  deriving DecidableEq, Repr

namespace Clearing

/-- The loop of `deleteFileOfType`; `removes n` is the outcome of the call of `remove` after `n`
others. -/
def deleteLoop (removes : ℕ → Bool) :
    (passed rest : List Entry) → List Removal → List Entry × List Removal × ℕ
  | passed, [], removals => (passed, removals, 0)
  | passed, entry :: rest, removals =>
      if entry.info.type = sectionType then
        let succeeded := removes removals.length
        let removals := removals ++ [⟨entry, succeeded⟩]
        if succeeded then deleteLoop removes (passed ++ [entry]) rest removals
        else (passed ++ rest, removals, entry.info.size)
      else deleteLoop removes (passed ++ [entry]) rest removals

/-- `deleteFileOfType`, which does not use its parameter. -/
def deleteFileOfType (removes : ℕ → Bool) (_type : WString) (c : Clearing) : Clearing × ℕ :=
  let (sectionsInfo, removals, fileSize) := deleteLoop removes [] c.sectionsInfo c.removals
  ({ c with sectionsInfo, removals }, fileSize)

/-- The loop of `decreaseStoredData` over the files of a type, and whether it was left because
nothing was deleted. -/
def decreaseLoop (removes : ℕ → Bool) (type : WString) : ℕ → Clearing → Clearing × Bool
  | 0, c => (c, false)
  | sectionFilesCount + 1, c =>
      if c.storedSize ≥ InvertedIndex.maxStoringCapacity then
        let (c, deletedSize) := deleteFileOfType removes type c
        if deletedSize ≠ 0 then
          decreaseLoop removes type sectionFilesCount
            { c with storedSize := wrap64 (c.storedSize - deletedSize) }
        else (c, true)
      else (c, false)

end Clearing

namespace FileManager

def placed (sections : List SectionInfo) : List Entry := sections.mapIdx Entry.mk

/-- The variables of `decreaseStoredData` before its loops. -/
def sortedClearing (sort : List SectionInfo → List SectionInfo) (fm : FileManager)
    (freeSpaceAmount : Int64) : Clearing where
  sectionsInfo := placed (sort fm.sectionsInfo)
  storedSize := wrap64 ((fm.sectionsInfo.map SectionInfo.size).sum + freeSpaceAmount.toInt)
  removals := []

def decreaseStoredData (sort : List SectionInfo → List SectionInfo) (removes : ℕ → Bool)
    (fm : FileManager) (freeSpaceAmount : Int64) : Clearing :=
  let c := sortedClearing sort fm freeSpaceAmount
  let countFilesOfType (c : Clearing) (type : WString) :=
    { fm with sectionsInfo := c.sectionsInfo.map Entry.info }.countFilesOfType type
  let (c, returned) :=
    Clearing.decreaseLoop removes sectionType (countFilesOfType c sectionType) c
  if returned then c
  else if c.storedSize ≥ InvertedIndex.maxStoringCapacity then
    (Clearing.decreaseLoop removes dictionaryType (countFilesOfType c dictionaryType) c).1
  else c

end FileManager

/-! ### What the calls leave -/

namespace Clearing

/-- The entries whose file was removed, in the order of the calls. -/
def removed (c : Clearing) : List Entry :=
  (c.removals.filter Removal.succeeded).map Removal.entry

def totalSize (entries : List Entry) : ℕ := (entries.map fun e => e.info.size).sum

/-- Space is freed as it should be: the entries dropped are those whose files were removed, files
were removed by decreasing size and only while too much was stored, and that has been put right, or
no file is left to remove, or one could not be. -/
structure Decreases (sections : List Entry) (freeSpaceAmount : Int) (c : Clearing) : Prop where
  dropped_iff : ∀ entry ∈ sections, entry ∉ c.sectionsInfo ↔ entry ∈ c.removed
  bySize : c.removed.Pairwise fun first second => second.info.size ≤ first.info.size
  needed : ∀ front entry back, c.removed = front ++ entry :: back →
    InvertedIndex.maxStoringCapacity ≤
      (totalSize sections : Int) - totalSize front + freeSpaceAmount
  enough :
    (totalSize sections : Int) - totalSize c.removed + freeSpaceAmount <
      InvertedIndex.maxStoringCapacity ∨
    (∀ entry ∈ c.sectionsInfo,
      entry.info.type ≠ sectionType ∧ entry.info.type ≠ dictionaryType) ∨
    ∃ removal ∈ c.removals, removal.succeeded = false

end Clearing

/-- No file is to be removed: little enough is stored, or there is none of a type to remove. -/
def FileManager.Spares (fm : FileManager) (freeSpaceAmount : Int) : Prop :=
  ((fm.sectionsInfo.map SectionInfo.size).sum : Int) + freeSpaceAmount <
      InvertedIndex.maxStoringCapacity ∨
    ∀ si ∈ fm.sectionsInfo, si.type ≠ sectionType ∧ si.type ≠ dictionaryType

/-! ### One call of `deleteFileOfType` -/

namespace Clearing

/-- What a call leaves of the entries, the removals it makes and the size it returns. -/
inductive Deleted (sections : List Entry) : List Entry → List Removal → ℕ → Prop
  | kept : Deleted sections sections
      ((sections.filter fun e => decide (e.info.type = sectionType)).map fun e => ⟨e, true⟩) 0
  | erased {front back : List Entry} {entry : Entry} (h : sections = front ++ entry :: back)
      (htype : entry.info.type = sectionType) :
      Deleted sections (front ++ back)
        ((front.filter fun e => decide (e.info.type = sectionType)).map (fun e => ⟨e, true⟩) ++
          [⟨entry, false⟩]) entry.info.size

theorem Deleted.cons {rest left : List Entry} {new : List Removal} {size : ℕ}
    (h : Deleted rest left new size) (entry : Entry) :
    Deleted (entry :: rest) (entry :: left)
      (if entry.info.type = sectionType then ⟨entry, true⟩ :: new else new) size := by
  cases h with
  | kept =>
      have hkept : Deleted (entry :: rest) _ _ 0 := .kept
      by_cases htype : entry.info.type = sectionType
      · simpa [htype] using hkept
      · simpa [htype] using hkept
  | @erased front back lost hrest hlost =>
      have hsplit : entry :: rest = (entry :: front) ++ lost :: back := by
        rw [hrest, List.cons_append]
      have herased := Deleted.erased hsplit hlost
      by_cases htype : entry.info.type = sectionType
      · simpa [htype] using herased
      · simpa [htype] using herased

variable {removes : ℕ → Bool} {type : WString} {c : Clearing}

theorem deleteLoop_spec (removes : ℕ → Bool) (passed rest : List Entry) (removals : List Removal) :
    ∃ left new size, Deleted rest left new size ∧
      deleteLoop removes passed rest removals = (passed ++ left, removals ++ new, size) := by
  induction rest generalizing passed removals with
  | nil => exact ⟨[], [], 0, .kept, by simp [deleteLoop]⟩
  | cons entry rest ih =>
      by_cases htype : entry.info.type = sectionType
      · by_cases hremoved : removes removals.length
        · obtain ⟨left, new, size, hdeleted, hrun⟩ :=
            ih (passed ++ [entry]) (removals ++ [⟨entry, true⟩])
          refine ⟨entry :: left, ⟨entry, true⟩ :: new, size, ?_, ?_⟩
          · have hcons := hdeleted.cons entry
            rwa [if_pos htype] at hcons
          · rw [deleteLoop, if_pos htype]
            simp only [hremoved, if_true, hrun, List.append_assoc, List.singleton_append]
        · have hfailed : removes removals.length = false := by simpa using hremoved
          have hsplit : entry :: rest = [] ++ entry :: rest := rfl
          refine ⟨rest, [⟨entry, false⟩], entry.info.size, .erased hsplit htype, ?_⟩
          rw [deleteLoop, if_pos htype]
          simp only [hfailed, Bool.false_eq_true, if_false]
      · obtain ⟨left, new, size, hdeleted, hrun⟩ := ih (passed ++ [entry]) removals
        refine ⟨entry :: left, new, size, ?_, ?_⟩
        · have hcons := hdeleted.cons entry
          rwa [if_neg htype] at hcons
        · rw [deleteLoop, if_neg htype, hrun, List.append_assoc, List.singleton_append]

theorem deleteFileOfType_spec (removes : ℕ → Bool) (type : WString) (c : Clearing) :
    ∃ left new size, Deleted c.sectionsInfo left new size ∧
      deleteFileOfType removes type c =
        ({ c with sectionsInfo := left, removals := c.removals ++ new }, size) := by
  obtain ⟨left, new, size, hdeleted, hrun⟩ := deleteLoop_spec removes []
    c.sectionsInfo c.removals
  exact ⟨left, new, size, hdeleted, by rw [deleteFileOfType, hrun]; rfl⟩

/-- Where the outcome of a call is a matter of its path, the loop is that of `FileManager`. -/
theorem deleteLoop_eq {paths : List UInt8 → Bool} (passed rest : List Entry)
    (removals : List Removal)
    (houtcome : ∀ k entry,
      (rest.filter fun e => decide (e.info.type = sectionType))[k]? = some entry →
        removes (removals.length + k) = paths (FileManager.fullFilePath entry.info)) :
    FileManager.deleteLoop paths (rest.map Entry.info)
        ⟨removals.map Removal.path, passed.map Entry.info, 0⟩ =
      let (sectionsInfo, removals, size) := deleteLoop removes passed rest removals
      ⟨removals.map Removal.path, sectionsInfo.map Entry.info, size⟩ := by
  induction rest generalizing passed removals with
  | nil => rfl
  | cons entry rest ih =>
      rw [List.map_cons, FileManager.deleteLoop, deleteLoop]
      by_cases htype : entry.info.type = sectionType
      · rw [if_pos htype, if_pos htype]
        have hfirst := houtcome 0 entry (by simp [htype])
        rw [Nat.add_zero] at hfirst
        cases hremoved : removes removals.length with
        | true =>
            have hrest := ih (passed ++ [entry]) (removals ++ [⟨entry, true⟩]) fun k e he => by
              rw [List.length_append, List.length_singleton, Nat.add_assoc, Nat.add_comm 1]
              exact houtcome (k + 1) e (by simpa [htype] using he)
            rw [List.map_append, List.map_append] at hrest
            simp only [← hfirst, hremoved, if_true]
            exact hrest
        | false =>
            simp only [← hfirst, hremoved, Bool.false_eq_true, if_false, List.map_append]
            rfl
      · rw [if_neg htype, if_neg htype]
        have hrest := ih (passed ++ [entry]) removals
          fun k e he => houtcome k e (by simpa [htype] using he)
        rw [List.map_append] at hrest
        exact hrest

/-! ### The whole run -/

/-- Nothing has been removed or dropped. -/
def Untouched (sections : List Entry) (c : Clearing) : Prop :=
  c.sectionsInfo = sections ∧ c.removals = []

/-- An entry has been dropped whose file was not removed. -/
def Lost (sections : List Entry) (c : Clearing) : Prop :=
  ∃ entry ∈ sections, entry ∉ c.sectionsInfo ∧ entry ∉ c.removed

/-- An entry is left whose file was removed. -/
def Stale (sections : List Entry) (c : Clearing) : Prop :=
  ∃ entry ∈ sections, entry ∈ c.sectionsInfo ∧ entry ∈ c.removed

theorem totalSize_nil : totalSize [] = 0 := rfl

section run

variable {sections : List Entry}

theorem mem_removed_append {left : List Entry} {storedSize : Int} {removals new : List Removal}
    {entry : Entry} :
    entry ∈ removed ⟨left, storedSize, removals ++ new⟩ ↔
      entry ∈ removed ⟨left, storedSize, removals⟩ ∨ ⟨entry, true⟩ ∈ new := by
  have hmem : ∀ calls : List Removal,
      entry ∈ (calls.filter Removal.succeeded).map Removal.entry ↔ ⟨entry, true⟩ ∈ calls := by
    intro calls
    constructor
    · intro h
      obtain ⟨⟨_, succeeded⟩, hcall, rfl⟩ := List.mem_map.mp h
      obtain ⟨hcall, hsucceeded⟩ := List.mem_filter.mp hcall
      cases succeeded with
      | true => exact hcall
      | false => cases hsucceeded
    · exact fun h => List.mem_map.mpr ⟨_, List.mem_filter.mpr ⟨h, rfl⟩, rfl⟩
  simp only [removed, hmem, List.mem_append]

theorem Deleted.subset {left : List Entry} {new : List Removal} {size : ℕ}
    (h : Deleted sections left new size) : left ⊆ sections := by
  cases h with
  | kept => exact List.Subset.refl _
  | erased hsections _ =>
      intro entry hentry
      rw [hsections]
      rcases List.mem_append.mp hentry with hfront | hback
      · exact List.mem_append_left _ hfront
      · exact List.mem_append_right _ (List.mem_cons_of_mem _ hback)

theorem Deleted.mem_of_removed {left : List Entry} {new : List Removal} {size : ℕ}
    (h : Deleted sections left new size) {entry : Entry} (hmem : ⟨entry, true⟩ ∈ new) :
    entry ∈ left ∧ entry.info.type = sectionType := by
  cases h with
  | kept =>
      obtain ⟨other, hother, heq⟩ := List.mem_map.mp hmem
      cases heq
      exact ⟨(List.mem_filter.mp hother).1, of_decide_eq_true (List.mem_filter.mp hother).2⟩
  | erased hsections _ =>
      rcases List.mem_append.mp hmem with hfront | hlast
      · obtain ⟨other, hother, heq⟩ := List.mem_map.mp hfront
        cases heq
        exact ⟨List.mem_append_left _ (List.mem_filter.mp hother).1,
          of_decide_eq_true (List.mem_filter.mp hother).2⟩
      · cases List.mem_singleton.mp hlast

theorem Lost.deleteFileOfType (h : Lost sections c) :
    Lost sections (deleteFileOfType removes type c).1 := by
  obtain ⟨left, new, size, hdeleted, hrun⟩ := deleteFileOfType_spec removes type c
  obtain ⟨entry, hentry, hdropped, hremoved⟩ := h
  rw [hrun]
  refine ⟨entry, hentry, fun hleft => hdropped (Deleted.subset hdeleted hleft), fun hmem => ?_⟩
  rcases mem_removed_append.mp hmem with hold | hnew
  · exact hremoved hold
  · exact hdropped (Deleted.subset hdeleted (Deleted.mem_of_removed hdeleted hnew).1)

/-- What a run may have come to: nothing has been removed, or it has gone wrong. -/
def Outcome (sections : List Entry) (c : Clearing) : Prop :=
  Untouched sections c ∨ Lost sections c ∨ Stale sections c

theorem deleteFileOfType_outcome (hnodup : sections.Nodup)
    (removes : ℕ → Bool) (type : WString) (h : Untouched sections c ∨ Lost sections c) :
    Outcome sections (deleteFileOfType removes type c).1 ∧
      ((deleteFileOfType removes type c).2 ≠ 0 →
        Lost sections (deleteFileOfType removes type c).1) := by
  rcases h with ⟨hsections, hnone⟩ | hlost
  · obtain ⟨left, new, size, hdeleted, hrun⟩ := deleteFileOfType_spec removes type c
    rw [hsections] at hdeleted
    rw [hrun, hnone]
    cases hdeleted with
    | kept =>
        refine ⟨?_, fun hsize => absurd rfl hsize⟩
        cases hfound : sections.filter fun e => decide (e.info.type = sectionType) with
        | nil => exact .inl ⟨rfl, rfl⟩
        | cons entry rest =>
            have hentry : entry ∈ sections :=
              (List.mem_filter.mp (hfound ▸ List.mem_cons_self (a := entry) (l := rest))).1
            exact .inr (.inr ⟨entry, hentry, hentry, mem_removed_append.mpr
              (.inr List.mem_cons_self)⟩)
    | @erased front back entry hsplit htype =>
        have hlost : Lost sections ⟨front ++ back, c.storedSize, [] ++
            ((front.filter fun e => decide (e.info.type = sectionType)).map (fun e => ⟨e, true⟩) ++
              [⟨entry, false⟩])⟩ := by
          rw [hsplit, List.nodup_middle] at hnodup
          have hgone : entry ∉ front ++ back := (List.nodup_cons.mp hnodup).1
          refine ⟨entry, hsplit ▸ List.mem_append_right _ List.mem_cons_self, hgone, fun hmem => ?_⟩
          rcases mem_removed_append.mp hmem with hold | hnew
          · cases hold
          · exact hgone (Deleted.mem_of_removed (.erased hsplit htype) hnew).1
        exact ⟨.inr (.inl hlost), fun _ => hlost⟩
  · exact ⟨.inr (.inl hlost.deleteFileOfType), fun _ => hlost.deleteFileOfType⟩

theorem decreaseLoop_outcome (hnodup : sections.Nodup) (removes : ℕ → Bool) (type : WString)
    (sectionFilesCount : ℕ)    (h : Untouched sections c ∨ Lost sections c) :
    Outcome sections (decreaseLoop removes type sectionFilesCount c).1 ∧
      ((decreaseLoop removes type sectionFilesCount c).2 = false →
        Untouched sections (decreaseLoop removes type sectionFilesCount c).1 ∨
          Lost sections (decreaseLoop removes type sectionFilesCount c).1) := by
  induction sectionFilesCount generalizing c with
  | zero => exact ⟨h.imp_right .inl, fun _ => h⟩
  | succ sectionFilesCount ih =>
      obtain ⟨hany, hsome⟩ := deleteFileOfType_outcome hnodup removes type h
      rw [decreaseLoop]
      split
      · generalize deleteFileOfType removes type c = result at hany hsome ⊢
        obtain ⟨c', deletedSize⟩ := result
        dsimp only
        by_cases hsize : deletedSize = 0
        · rw [if_neg (not_not_intro hsize)]
          exact ⟨hany, fun hflag => by cases hflag⟩
        · rw [if_pos hsize]
          have hlost : Lost sections
              { c' with storedSize := wrap64 (c'.storedSize - deletedSize) } := hsome hsize
          exact ih (.inr hlost)
      · exact ⟨h.imp_right .inl, fun _ => h⟩

theorem deleteFileOfType_of_no_section
    (h : ∀ entry ∈ c.sectionsInfo, entry.info.type ≠ sectionType) :
    deleteFileOfType removes type c = (c, 0) := by
  obtain ⟨left, new, size, hdeleted, hrun⟩ := deleteFileOfType_spec removes type c
  rw [hrun]
  cases hdeleted with
  | kept =>
      have hnone : c.sectionsInfo.filter (fun e => decide (e.info.type = sectionType)) = [] :=
        List.filter_eq_nil_iff.mpr fun entry hentry => by simpa using h entry hentry
      rw [hnone, List.map_nil, List.append_nil]
  | erased hsplit htype =>
      exact absurd htype (h _ (hsplit ▸ List.mem_append_right _ List.mem_cons_self))

theorem decreaseLoop_of_spared (removes : ℕ → Bool) (type : WString) (sectionFilesCount : ℕ)
    (h : c.storedSize < InvertedIndex.maxStoringCapacity ∨
      ∀ entry ∈ c.sectionsInfo, entry.info.type ≠ sectionType) :
    (decreaseLoop removes type sectionFilesCount c).1 = c := by
  cases sectionFilesCount with
  | zero => rfl
  | succ sectionFilesCount =>
      rw [decreaseLoop]
      split
      · rename_i hlarge
        have hnone := h.resolve_left (Int.not_lt.mpr hlarge)
        rw [deleteFileOfType_of_no_section hnone]
        rfl
      · rfl

end run

end Clearing

namespace FileManager

/-! ### The whole of `decreaseStoredData` -/

variable {sort : List SectionInfo → List SectionInfo} {removes : ℕ → Bool} {fm : FileManager}
  {freeSpaceAmount : Int64}

theorem map_info_placed (sections : List SectionInfo) :
    (placed sections).map Entry.info = sections := by
  apply List.ext_getElem
  · rw [List.length_map, placed, List.length_mapIdx]
  · intro i hi hi'
    rw [List.getElem_map]
    exact congrArg Entry.info (List.getElem_mapIdx ..)

/-- Calls of `remove` that depend on the path are among the outcomes considered here. -/
theorem deleteFileOfType_eq (fm : FileManager) (paths : List UInt8 → Bool) (type : WString)
    (storedSize : Int) : ∃ removes : ℕ → Bool, fm.deleteFileOfType paths =
      let (c, size) :=
        Clearing.deleteFileOfType removes type ⟨placed fm.sectionsInfo, storedSize, []⟩
      ⟨c.removals.map Removal.path, c.sectionsInfo.map Entry.info, size⟩ := by
  let sections := (placed fm.sectionsInfo).filter fun e => decide (e.info.type = sectionType)
  let removes (n : ℕ) : Bool := (sections[n]?).any fun e => paths (fullFilePath e.info)
  have houtcome : ∀ (k : ℕ) (entry : Entry), sections[k]? = some entry →
      removes (([] : List Removal).length + k) = paths (fullFilePath entry.info) := by
    intro k entry hentry
    rw [List.length_nil, Nat.zero_add]
    change (sections[k]?).any _ = _
    rw [hentry]
    rfl
  have hloop := Clearing.deleteLoop_eq [] (placed fm.sectionsInfo) [] houtcome
  rw [map_info_placed] at hloop
  exact ⟨removes, hloop⟩

theorem placed_nodup (sections : List SectionInfo) : (placed sections).Nodup := by
  have hplaces : (placed sections).map Entry.place = List.range sections.length := by
    apply List.ext_getElem
    · rw [List.length_map, placed, List.length_mapIdx, List.length_range]
    · intro i hi hi'
      rw [List.getElem_map, List.getElem_range]
      exact congrArg Entry.place (List.getElem_mapIdx ..)
  exact List.Nodup.of_map _ (hplaces ▸ List.nodup_range)

theorem decreaseStoredData_outcome (sort : List SectionInfo → List SectionInfo)
    (removes : ℕ → Bool) (fm : FileManager) (freeSpaceAmount : Int64) :
    Clearing.Outcome (placed (sort fm.sectionsInfo))
      (fm.decreaseStoredData sort removes freeSpaceAmount) := by
  have hnodup := placed_nodup (sort fm.sectionsInfo)
  rw [decreaseStoredData]
  dsimp only
  generalize countFilesOfType _ sectionType = sectionFilesCount
  have hstart : Clearing.Untouched (placed (sort fm.sectionsInfo))
      (sortedClearing sort fm freeSpaceAmount) := ⟨rfl, rfl⟩
  have hfirst := Clearing.decreaseLoop_outcome hnodup removes sectionType sectionFilesCount
    (.inl hstart)
  generalize Clearing.decreaseLoop removes sectionType sectionFilesCount _ = result at hfirst ⊢
  obtain ⟨c, returned⟩ := result
  obtain ⟨hany, hflag⟩ := hfirst
  cases returned with
  | true => exact hany
  | false =>
      change Clearing.Outcome _ (if c.storedSize ≥ InvertedIndex.maxStoringCapacity then _ else _)
      split
      · exact (Clearing.decreaseLoop_outcome hnodup _ _ _ (hflag rfl)).1
      · exact hany

theorem decreaseStoredData_of_spared
    (h : (sortedClearing sort fm freeSpaceAmount).storedSize < InvertedIndex.maxStoringCapacity ∨
      ∀ entry ∈ placed (sort fm.sectionsInfo), entry.info.type ≠ sectionType) :
    fm.decreaseStoredData sort removes freeSpaceAmount =
      sortedClearing sort fm freeSpaceAmount := by
  rw [decreaseStoredData]
  dsimp only
  generalize countFilesOfType _ sectionType = sectionFilesCount
  have hfirst := Clearing.decreaseLoop_of_spared removes sectionType sectionFilesCount h
  generalize Clearing.decreaseLoop removes sectionType sectionFilesCount _ = result at hfirst ⊢
  obtain ⟨c, returned⟩ := result
  obtain rfl : c = sortedClearing sort fm freeSpaceAmount := hfirst
  dsimp only
  split
  · rfl
  · split
    · exact Clearing.decreaseLoop_of_spared _ _ _ h
    · rfl

section

variable (hsort : ∀ sections, (sort sections).Perm sections)

include hsort

theorem totalSize_placed_sort :
    Clearing.totalSize (placed (sort fm.sectionsInfo)) =
      (fm.sectionsInfo.map SectionInfo.size).sum := by
  have hmap := congrArg (List.map SectionInfo.size) (map_info_placed (sort fm.sectionsInfo))
  rw [List.map_map] at hmap
  exact (congrArg List.sum hmap).trans ((hsort _).map _).sum_eq

theorem forall_mem_placed_sort {P : SectionInfo → Prop} :
    (∀ entry ∈ placed (sort fm.sectionsInfo), P entry.info) ↔ ∀ si ∈ fm.sectionsInfo, P si := by
  constructor
  · intro h si hsi
    have hmem : si ∈ (placed (sort fm.sectionsInfo)).map Entry.info := by
      rw [map_info_placed]
      exact (hsort _).mem_iff.mpr hsi
    obtain ⟨entry, hentry, rfl⟩ := List.mem_map.mp hmem
    exact h entry hentry
  · intro h entry hentry
    refine h _ ((hsort _).mem_iff.mp ?_)
    rw [← map_info_placed (sort fm.sectionsInfo)]
    exact List.mem_map_of_mem hentry

theorem Spares.decreaseStoredData_eq (h : fm.Spares freeSpaceAmount.toInt) :
    fm.decreaseStoredData sort removes freeSpaceAmount =
      sortedClearing sort fm freeSpaceAmount := by
  refine decreaseStoredData_of_spared (h.imp (fun hsmall => ?_) fun hnone => ?_)
  · have hlow := freeSpaceAmount.le_toInt
    rw [sortedClearing, wrap64_eq_self]
    · exact hsmall
    · omega
    · exact lt_trans hsmall (by decide)
  · have htypes := (forall_mem_placed_sort hsort).mpr hnone
    exact fun entry hentry => (htypes entry hentry).1

end

/-- A sort that puts the larger entry first. -/
def sortBySize : List SectionInfo → List SectionInfo :=
  List.insertionSort fun f s => f.size ≥ s.size

def smallerSection : SectionInfo where
  name := sectionType ++ [45, 48] ++ extension
  type := sectionType
  size := 2500000000
  createTime := 0

def largerSection : SectionInfo where
  name := sectionType ++ [45, 49] ++ extension
  type := sectionType
  size := 3000000000
  createTime := 1

end FileManager

end IndexServer
