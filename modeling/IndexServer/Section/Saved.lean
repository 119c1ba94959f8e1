import IndexServer.Section.Text
import IndexServer.Section.Model
import IndexServer.HashTable.Add
import Mathlib.Data.List.Forall2

/-!
# What a saved table looks like

A table whose keys are decimal numbers that fit a `long long` is always saved. Its file starts with
the four units of the size; then each cell and each collision entry has a record of four equal
units, and the values follow.
-/

namespace IndexServer

namespace HashTable

/-- The key is the text of an id, or that of a cell never used. -/
def Spelled (key : WString) : Prop := key = [] ∨ ∃ id : ℕ, id < 2 ^ 63 ∧ key = toWString id

/-- What `saveTable` takes the units of a record from. -/
def mark (item : HashItem) : Int :=
  if item.value = [] ∨ item.key = [] then zero else decimal (item.key.map UInt16.toNat)

def lowUnit (x : Int) : WChar := .ofNat (x % 2 ^ 64).toNat

def record (item : HashItem) : WString := List.replicate 4 (lowUnit (mark item))

def number (key : WString) : ℕ := decimal (key.map UInt16.toNat)

def Decimal (key : WString) : Prop := key ≠ [] ∧ ∀ c ∈ key.map UInt16.toNat, isDigit c

def Legal (key : WString) : Prop := key = [] ∨ (Decimal key ∧ number key < 2 ^ 63)

theorem Spelled.legal {key : WString} (h : Spelled key) : Legal key := by
  refine h.imp_right ?_
  rintro ⟨id, hid, rfl⟩
  refine ⟨⟨toWString_ne_nil id, fun c => isDigit_of_mem_codes⟩, ?_⟩
  rwa [number, decimal_codes]

theorem arrayKey_of_decimal {item : HashItem} (h : Decimal item.key) :
    arrayKey item =
      if number item.key < 2 ^ 63 then .ok (number item.key : Int) else .error .thrown := by
  rw [arrayKey, if_neg h.1, stoll_of_digits (codes_ne_nil h.1) h.2, number]

theorem arrayKey_of_legal {item : HashItem} (h : Legal item.key) :
    ∃ key, arrayKey item = .ok key ∧ mark item = if item.value = [] then zero else key := by
  rcases h with hnil | ⟨hdecimal, hrange⟩
  · refine ⟨zero, if_pos hnil, ?_⟩
    rw [mark, if_pos (.inr hnil), ite_self]
  · refine ⟨number item.key, by rw [arrayKey_of_decimal hdecimal, if_pos hrange], ?_⟩
    by_cases hvalue : item.value = []
    · rw [mark, if_pos (.inl hvalue), if_pos hvalue]
    · rw [mark, if_neg (not_or.mpr ⟨hvalue, hdecimal.1⟩), if_neg hvalue, number]

theorem itemToArray_eq (T : HashTable) {item : HashItem} (hkey : Legal item.key) (cellSize : ℕ)
    (valueAddress : Int) :
    ∃ dlongArray, T.itemToArray item cellSize valueAddress = .ok dlongArray ∧
      dlongArray.get 0 = mark item := by
  obtain ⟨key, hread, hmark⟩ := arrayKey_of_legal hkey
  rw [itemToArray, hread, hmark]
  by_cases hvalue : item.value = []
  · exact ⟨_, if_pos (List.length_eq_zero_iff.mpr hvalue), (if_pos hvalue).symm⟩
  · exact ⟨_, if_neg (mt List.length_eq_zero_iff.mp hvalue), (if_neg hvalue).symm⟩

theorem saveRecord_eq (T : HashTable) {item : HashItem} (hkey : Legal item.key) (s : Saving) :
    ∃ address, T.saveRecord s item = .ok ⟨s.newFile ++ record item, address⟩ := by
  obtain ⟨dlongArray, harray, hmark⟩ := T.itemToArray_eq hkey cellSize s.currentValueAddress
  refine ⟨wrap64 (s.currentValueAddress + item.byteSize), ?_⟩
  rw [saveRecord, harray, Exec.ok_bind, hmark]
  rfl

/-! ### The loops of `saveTable` -/

section loops

variable {T : HashTable} {indices : List ℕ} {items : List HashItem}

/-- Both loops over the records, for what they read. -/
def saveRecords (T : HashTable) (read : ℕ → Exec HashItem) : List ℕ → Saving → Exec Saving
  | [], s => .ok s
  | i :: rest, s => do
      let item ← read i
      let s ← T.saveRecord s item
      saveRecords T read rest s

theorem saveItems_eq_saveRecords (s : Saving) :
    T.saveItems indices s = T.saveRecords (fun i => T.readCell i) indices s := by
  induction indices generalizing s with
  | nil => rfl
  | cons i rest ih => simp only [saveItems, saveRecords, ih]

theorem saveColisions_eq_saveRecords (s : Saving) :
    T.saveColisions indices s = T.saveRecords (fun i => vectorGet T.colisions i) indices s := by
  induction indices generalizing s with
  | nil => rfl
  | cons i rest ih => simp only [saveColisions, saveRecords, ih]

theorem saveRecords_eq {read : ℕ → Exec HashItem}
    (h : List.Forall₂ (fun i item => read i = .ok item) indices items)
    (hkeys : ∀ item ∈ items, Legal item.key) (s : Saving) :
    ∃ address, T.saveRecords read indices s =
      .ok ⟨s.newFile ++ items.flatMap record, address⟩ := by
  induction h generalizing s with
  | nil => exact ⟨s.currentValueAddress, by rw [saveRecords, List.flatMap_nil, List.append_nil]⟩
  | @cons i item _ _ hread _ ih =>
      obtain ⟨address, hrecord⟩ := T.saveRecord_eq (hkeys item List.mem_cons_self) s
      obtain ⟨address', hrest⟩ := ih (fun x hx => hkeys x (List.mem_cons_of_mem _ hx))
        ⟨s.newFile ++ record item, address⟩
      refine ⟨address', ?_⟩
      rw [saveRecords, hread, Exec.ok_bind, hrecord, Exec.ok_bind, hrest, List.flatMap_cons,
        List.append_assoc]

theorem exists_arrayKey {read : ℕ → Exec HashItem} {s s' : Saving}
    (h : List.Forall₂ (fun i item => read i = .ok item) indices items)
    (hrun : T.saveRecords read indices s = .ok s') :
    ∀ item ∈ items, ∃ key, arrayKey item = .ok key := by
  induction h generalizing s with
  | nil => exact List.forall_mem_nil _
  | cons hread _ ih =>
      rw [saveRecords, hread, Exec.ok_bind] at hrun
      obtain ⟨s₁, hrecord, hrest⟩ := Exec.bind_eq_ok.mp hrun
      obtain ⟨_, harray, _⟩ := Exec.bind_eq_ok.mp hrecord
      obtain ⟨key, hkey, _⟩ := Exec.bind_eq_ok.mp harray
      exact List.forall_mem_cons.mpr ⟨⟨key, hkey⟩, ih hrest⟩

abbrev text (item : HashItem) : WString := writeVectorToString item.value

theorem saveItemValues_eq
    (h : List.Forall₂ (fun (i : ℕ) item => T.readCell i = .ok item) indices items)
    (newFile : WString) :
    T.saveItemValues indices newFile = .ok (newFile ++ items.flatMap text) := by
  induction h generalizing newFile with
  | nil => rw [saveItemValues, List.flatMap_nil, List.append_nil]
  | @cons i item _ _ hcell _ ih =>
      rw [saveItemValues, hcell, Exec.ok_bind, List.flatMap_cons]
      split
      · have hvalue : item.value = [] := List.length_eq_zero_iff.mp (by assumption)
        rw [ih, text, hvalue]
        rfl
      · rw [ih, List.append_assoc]

theorem saveColisionValues_eq
    (h : List.Forall₂ (fun (i : ℕ) item => vectorGet T.colisions i = .ok item) indices items)
    (newFile : WString) :
    T.saveColisionValues indices newFile = .ok (newFile ++ items.flatMap text) := by
  induction h generalizing newFile with
  | nil => rw [saveColisionValues, List.flatMap_nil, List.append_nil]
  | @cons i item _ _ hentry _ ih =>
      rw [saveColisionValues, hentry, Exec.ok_bind, ih, List.flatMap_cons, List.append_assoc]

end loops

theorem forall₂_range {α : Type} (v : List α) :
    List.Forall₂ (fun i a => v[i]? = some a) (List.range v.length) v := by
  rw [List.forall₂_iff_get]
  refine ⟨List.length_range, fun i h₁ h₂ => ?_⟩
  simp

theorem Sound.cells_read {T : HashTable} (hT : T.Sound) :
    List.Forall₂ (fun (i : ℕ) item => T.readCell i = .ok item) (List.range T.size) T.items := by
  have hcells := forall₂_range T.items
  rw [hT.items_length] at hcells
  exact hcells.imp fun i item hcell => hT.locks.readCell_eq hcell

theorem entries_read (T : HashTable) :
    List.Forall₂ (fun (i : ℕ) item => vectorGet T.colisions i = .ok item)
      (List.range T.colisions.length) T.colisions :=
  (forall₂_range T.colisions).imp fun _ _ hentry => vectorGet_natCast hentry

/-- The cells and the collision entries, in the order of their records. -/
def stored (T : HashTable) : List HashItem := T.items ++ T.colisions

def saved (T : HashTable) : WString :=
  longUnits T.size ++ T.stored.flatMap record ++ T.stored.flatMap text

theorem Sound.saveTable_eq {T : HashTable} (hT : T.Sound)
    (hkeys : ∀ item ∈ T.stored, Legal item.key) : T.saveTable = .ok T.saved := by
  have hcell : ∀ item ∈ T.items, Legal item.key := fun item h =>
    hkeys item (List.mem_append_left _ h)
  have hentry : ∀ item ∈ T.colisions, Legal item.key := fun item h =>
    hkeys item (List.mem_append_right _ h)
  obtain ⟨address, hitems⟩ := saveRecords_eq (T := T) hT.cells_read hcell
    ⟨longUnits T.size, wrap64 ((T.size + T.colisions.length) * cellSize * 4 + 1)⟩
  obtain ⟨address', hcolisions⟩ := saveRecords_eq (T := T) T.entries_read hentry
    ⟨longUnits T.size ++ T.items.flatMap record, address⟩
  rw [saveTable, saveItems_eq_saveRecords, hitems, Exec.ok_bind, saveColisions_eq_saveRecords,
    hcolisions, Exec.ok_bind, saveItemValues_eq hT.cells_read, Exec.ok_bind,
    saveColisionValues_eq T.entries_read, saved, stored]
  simp only [List.flatMap_append, List.append_assoc]

theorem Sound.exists_arrayKey_of_saveTable {T : HashTable} (hT : T.Sound) {file : WString}
    (hrun : T.saveTable = .ok file) : ∀ item ∈ T.stored, ∃ key, arrayKey item = .ok key := by
  obtain ⟨s₁, hitems, hrun⟩ := Exec.bind_eq_ok.mp hrun
  obtain ⟨s₂, hcolisions, _⟩ := Exec.bind_eq_ok.mp hrun
  rw [saveItems_eq_saveRecords] at hitems
  rw [saveColisions_eq_saveRecords] at hcolisions
  intro item hitem
  rcases List.mem_append.mp hitem with hcell | hentry
  · exact exists_arrayKey hT.cells_read hitems item hcell
  · exact exists_arrayKey T.entries_read hcolisions item hentry

/-! ### The file as a list of `long long` values -/

/-- The `long long` at position `i`: the size, and then the records. -/
def word (T : HashTable) : ℕ → Int
  | 0 => T.size
  | i + 1 =>
      match T.stored[i]? with
      | some item =>
          let u := lowUnit (mark item)
          longOf u u u u
      | none => 0

theorem length_record (item : HashItem) : (record item).length = 4 := List.length_replicate

theorem drop_flatMap_append {α β : Type} {f : α → List β} {w : ℕ} (hw : ∀ a, (f a).length = w)
    (rest : List β) {l : List α} {i : ℕ} {a : α} (hi : l[i]? = some a) :
    ∃ more, (l.flatMap f ++ rest).drop (w * i) = f a ++ more := by
  induction l generalizing i with
  | nil => cases hi
  | cons b l ih =>
      cases i with
      | zero =>
          cases hi
          exact ⟨l.flatMap f ++ rest, by simp [List.flatMap_cons]⟩
      | succ i =>
          obtain ⟨more, hmore⟩ := ih hi
          refine ⟨more, ?_⟩
          have hnext : w * (i + 1) = (f b).length + w * i := by
            rw [hw, Nat.mul_succ, Nat.add_comm]
          rw [List.flatMap_cons, List.append_assoc, hnext, List.drop_length_add_append, hmore]

theorem longOf_longUnits {n : ℕ} (hn : n < 2 ^ 63) :
    ∃ u₀ u₁ u₂ u₃, longUnits n = [u₀, u₁, u₂, u₃] ∧ longOf u₀ u₁ u₂ u₃ = n := by
  refine ⟨_, _, _, _, rfl, ?_⟩
  have hmod : ((n : Int) % 2 ^ 64).toNat = n := by omega
  rw [longOf, hmod]
  simp only [UInt16.toNat_ofNat']
  rw [wrap64_eq_self] <;> omega

theorem saved_drop {T : HashTable} (hsize : T.size < 2 ^ 63) {i : ℕ} (hi : i ≤ T.stored.length) :
    ∃ u₀ u₁ u₂ u₃ rest, T.saved.drop (4 * i) = u₀ :: u₁ :: u₂ :: u₃ :: rest ∧
      longOf u₀ u₁ u₂ u₃ = T.word i := by
  obtain ⟨v₀, v₁, v₂, v₃, hunits, hsum⟩ := longOf_longUnits hsize
  cases i with
  | zero =>
      refine ⟨v₀, v₁, v₂, v₃, T.stored.flatMap record ++ T.stored.flatMap text, ?_, hsum⟩
      rw [saved, hunits, List.append_assoc]
      rfl
  | succ i =>
      have hitem := List.getElem?_eq_getElem (show i < T.stored.length from hi)
      generalize T.stored[i] = item at hitem
      obtain ⟨more, hmore⟩ := drop_flatMap_append length_record (T.stored.flatMap text) hitem
      refine ⟨lowUnit (mark item), lowUnit (mark item), lowUnit (mark item), lowUnit (mark item),
        more, ?_, ?_⟩
      · rw [saved, hunits, List.append_assoc, show 4 * (i + 1) = 4 * i + 1 + 1 + 1 + 1 by omega]
        exact hmore
      · rw [word, hitem]

theorem longAt_eq {buffer rest : WString} {i : ℕ} {u₀ u₁ u₂ u₃ : WChar}
    (h : buffer.drop (4 * i) = u₀ :: u₁ :: u₂ :: u₃ :: rest) :
    longAt buffer i = .ok (longOf u₀ u₁ u₂ u₃) := by
  rw [longAt, h]

theorem longAt_window {T : HashTable} (hsize : T.size < 2 ^ 63) {a i : ℕ} (hi : i < 4)
    (ha : a + i ≤ T.stored.length) :
    longAt ((T.saved.drop (4 * a)).take 16) i = .ok (T.word (a + i)) := by
  obtain ⟨u₀, u₁, u₂, u₃, rest, hdrop, hsum⟩ := saved_drop hsize ha
  have hwindow : ((T.saved.drop (4 * a)).take 16).drop (4 * i) =
      u₀ :: u₁ :: u₂ :: u₃ :: rest.take (12 - 4 * i) := by
    have hlength : 16 - 4 * i = 12 - 4 * i + 1 + 1 + 1 + 1 := by omega
    rw [List.drop_take, List.drop_drop, ← Nat.mul_add, hdrop, hlength]
    simp only [List.take_succ_cons]
  rw [longAt_eq hwindow, hsum]

theorem length_flatMap_record (items : List HashItem) :
    (items.flatMap record).length = 4 * items.length := by
  simp [List.length_flatMap, length_record, Nat.mul_comm]

theorem length_saved (T : HashTable) :
    T.saved.length = 4 + 4 * T.stored.length + (T.stored.flatMap text).length := by
  rw [saved, List.length_append, List.length_append, length_flatMap_record]
  rfl

end HashTable

end IndexServer
