import IndexServer.Section.Records
import IndexServer.Section.Values
import IndexServer.HashTable.Lookup

/-!
# Reading a saved table back

The number that `loadItemValue` reads in the header is spelled by the units of the size, so it is
small, and the walk starts at one of the first cells. A table is read back for an id exactly if it
is legible for it: every other walk throws, leaves the file, goes round for ever, or finds what is
not under the id.
-/

namespace IndexServer

open InvertedIndex

namespace HashTable

/-! ### The header -/

theorem ofUnits_longUnits {n : ℕ} (hn : n < 2 ^ 63) : ofUnits (longUnits n) = n := by
  have hmod : ((n : Int) % 2 ^ 64).toNat = n := by omega
  rw [longUnits, hmod]
  simp only [ofUnits, UInt16.toNat_ofNat']
  omega

theorem natAbs_hashFunction_lt (key : WString) {s : Int} (hs : s ≠ 0) :
    (hashFunction key s).natAbs < s.natAbs := by
  rw [hashFunction, Int.natAbs_tmod]
  exact Nat.mod_lt _ (Int.natAbs_pos.mpr hs)

def afterHeader (T : HashTable) : Loading where
  stream := { file := T.saved, pos := 4, failed := false }
  buffer := longUnits T.size

theorem loadItemValue_eq (T : HashTable) (wordId : WString) :
    loadItemValue holdsDelivered T.saved wordId =
      stoll (narrowCodes (longUnits T.size)) >>= fun sectionSize =>
        if sectionSize = 0 then .error .divisionByZero
        else
          loadItem holdsDelivered wordId (T.saved.length + 2)
            (T.afterHeader.readAt holdsDelivered
              (wrap64 ((hashFunction wordId sectionSize + 1) * 4)) 16) := rfl

section header

variable {T : HashTable} (hT : T.Sound) (hsize : T.size < 2 ^ 63) {s : Int}
  (hs : stoll (narrowCodes (longUnits T.size)) = .ok s) (hne : s ≠ 0)
include hT hsize hs hne

theorem hash_bound (key : WString) :
    (hashFunction key s).natAbs < s.natAbs ∧ 4 * (s.natAbs + 1) ≤ T.size ∧
      T.size ≤ T.stored.length := by
  have hheader := stoll_narrowCodes_lt hs
  rw [ofUnits_longUnits hsize] at hheader
  refine ⟨natAbs_hashFunction_lt key hne, hheader, ?_⟩
  rw [stored, List.length_append, hT.items_length]
  exact Nat.le_add_right _ _

theorem loadItemValue_start {key : WString} {a : ℕ} (ha : (a : Int) = hashFunction key s + 1) :
    loadItemValue holdsDelivered T.saved key =
      loadItem holdsDelivered key (T.saved.length + 2) (T.window a) := by
  obtain ⟨hhash, hquarter, hcells⟩ := hash_bound hT hsize hs hne key
  have haddress : wrap64 ((hashFunction key s + 1) * 4) = ((4 * a : ℕ) : Int) := by
    rw [← ha, wrap64_eq_self] <;> omega
  rw [loadItemValue_eq, hs, Exec.ok_bind, if_neg hne, haddress,
    readAt_window (by omega) rfl rfl]

theorem loadItemValue_before {key : WString} (hneg : hashFunction key s + 1 < 0) :
    loadItemValue holdsDelivered T.saved key = .error .outOfRange := by
  obtain ⟨hhash, hquarter, hcells⟩ := hash_bound hT hsize hs hne key
  have haddress : wrap64 ((hashFunction key s + 1) * 4) < 0 := by
    rw [wrap64_eq_self] <;> omega
  rw [loadItemValue_eq, hs, Exec.ok_bind, if_neg hne, loadItem, readAt_outside (.inl haddress)]
  rfl

end header

/-! ### What is read back -/

/-- Reading the saved table for `k` returns what `get` returns, and nothing if `k` is not stored. -/
def LoadsBack (T : HashTable) (k : ℕ) : Prop :=
  ∃ file, T.saveTable = .ok file ∧
    (∀ value, T.get (toWString k) = .ok value →
      loadItemValue holdsDelivered file (toWString k) = .ok value) ∧
    ((∀ item ∈ T.stored, item.key ≠ toWString k) →
      loadItemValue holdsDelivered file (toWString k) = .ok [])

/-- The units of the size spell a number other than zero, the walk for `k` ends, and either it finds
nothing and there is nothing under `k`, or it finds a record without text and under `k` there is one
empty string. -/
def Legible (T : HashTable) (k : ℕ) : Prop :=
  ∃ (s : Int) (a j : ℕ), stoll (narrowCodes (longUnits T.size)) = .ok s ∧ s ≠ 0 ∧
    (a : Int) = hashFunction (toWString k) s + 1 ∧ T.Visits k a j ∧
    ((T.Ends k a j ∧ ∀ value, T.get (toWString k) = .ok value → value = []) ∨
      (T.word j = k ∧ T.Mute j ∧ T.get (toWString k) = .ok [[]]))

theorem Legible.value_cases {T : HashTable} {k : ℕ} (h : T.Legible k) {value : List WString}
    (hget : T.get (toWString k) = .ok value) : value = [] ∨ value = [[]] := by
  obtain ⟨_, _, _, _, _, _, _, ⟨_, hunheld⟩ | ⟨_, _, hone⟩⟩ := h
  · exact .inl (hunheld value hget)
  · rw [hone, Except.ok.injEq] at hget
    exact .inr hget.symm

theorem joinedLength_le {T : HashTable} {item : HashItem} (hitem : item ∈ T.stored) :
    joinedLength delimiter item.value + 4 ≤ T.saved.length := by
  obtain ⟨before, after, hsplit⟩ := List.append_of_mem hitem
  rw [length_saved, hsplit, List.flatMap_append, List.flatMap_cons, List.length_append,
    List.length_append, List.length_append, length_writeVectorToString]
  omega

namespace Sound

variable {T : HashTable} (hT : T.Sound)
include hT

theorem lookup_stored (key : WString) :
    T.lookup key = [] ∨ ∃ item ∈ T.stored, item.key = key ∧ item.value = T.lookup key := by
  rw [lookup]
  cases hslot : T.slot (home T.size key) with
  | vacant => exact .inl rfl
  | single head =>
      obtain ⟨hcell, _⟩ := hT.of_slot_single hslot
      rw [Slot.find]
      split
      · have hkey : key = head.key := by assumption
        exact .inr ⟨head, List.mem_append_left _ (List.mem_of_getElem? hcell), hkey.symm, rfl⟩
      · exact .inl rfl
  | linked head entry =>
      obtain ⟨hcell, _, hentry, _⟩ := hT.of_slot_linked hslot
      rw [Slot.find]
      split
      · have hkey : key = head.key := by assumption
        exact .inr ⟨head, List.mem_append_left _ (List.mem_of_getElem? hcell), hkey.symm, rfl⟩
      · split
        · have hkey : key = entry.key := by assumption
          exact .inr ⟨entry, List.mem_append_right _ hentry, hkey.symm, rfl⟩
        · exact .inl rfl

theorem stored_usable {item : HashItem} (hitem : item ∈ T.stored) : Usable T.size item.key := by
  rcases List.mem_append.mp hitem with hcell | hentry
  · obtain ⟨i, hi⟩ := List.mem_iff_getElem?.mp hcell
    exact hT.cell_usable i item hi
  · exact hT.entry_usable item hentry

theorem lookup_of_unstored {key : WString} (hkey : ∀ item ∈ T.stored, item.key ≠ key) :
    T.lookup key = [] := by
  apply (hT.lookup_stored key).resolve_right
  rintro ⟨item, hitem, hsame, _⟩
  exact hkey item hitem hsame

theorem get_cases (key : WString) :
    T.get key = .ok (T.lookup key) ∨
      (T.get key = .error .outOfRange ∧ ∀ item ∈ T.stored, item.key ≠ key) := by
  by_cases husable : Usable T.size key
  · exact .inl (hT.get_eq husable)
  · refine .inr ⟨get_of_not_usable husable, ?_⟩
    rintro item hitem rfl
    exact husable (hT.stored_usable hitem)

theorem unheld_iff (key : WString) :
    (∀ value, T.get key = .ok value → value = []) ↔ T.lookup key = [] := by
  rcases hT.get_cases key with hfound | ⟨hfault, hunstored⟩
  · simp [hfound]
  · simp [hfault, hT.lookup_of_unstored hunstored]

theorem get_eq_iff {key : WString} {value : List WString} (hvalue : value ≠ []) :
    T.get key = .ok value ↔ T.lookup key = value := by
  rcases hT.get_cases key with hfound | ⟨hfault, hunstored⟩
  · simp [hfound]
  · simp [hfault, hT.lookup_of_unstored hunstored, hvalue.symm]

theorem loadsBack_iff (hkeys : ∀ item ∈ T.stored, Spelled item.key) {k : ℕ} :
    T.LoadsBack k ↔
      loadItemValue holdsDelivered T.saved (toWString k) = .ok (T.lookup (toWString k)) := by
  have hsave := hT.saveTable_eq fun item hitem => (hkeys item hitem).legal
  constructor
  · rintro ⟨file, hfile, hget, hunstored⟩
    rw [hsave, Except.ok.injEq] at hfile
    subst hfile
    rcases hT.get_cases (toWString k) with hfound | ⟨_, hunstored'⟩
    · exact hget _ hfound
    · rw [hT.lookup_of_unstored hunstored', hunstored hunstored']
  · intro hload
    refine ⟨T.saved, hsave, fun value hvalue => ?_, fun hunstored => ?_⟩
    · rcases hT.get_cases (toWString k) with hfound | ⟨hfault, _⟩
      · rw [hfound, Except.ok.injEq] at hvalue
        rw [hload, hvalue]
      · rw [hfault] at hvalue
        cases hvalue
    · rw [hload, hT.lookup_of_unstored hunstored]

/-- The file of a table as a whole does not split into the values of one entry. -/
theorem split_saved_ne {key : WString} : split T.saved delimiter ≠ .ok (T.lookup key) := by
  intro hsplit
  have hlength := split_length hsplit
  rcases hT.lookup_stored key with hempty | ⟨item, hitem, _, hvalue⟩
  · rw [hempty] at hlength
    have hzero : joinedLength delimiter [] = 0 := rfl
    have htwelve : delimiter.length = 12 := rfl
    omega
  · have hle := joinedLength_le hitem
    rw [hvalue] at hle
    omega

variable (hsize : T.size < 2 ^ 63) {k : ℕ}
include hsize

theorem loadItemValue_of_legible (hpos : 0 < k) (h : T.Legible k) :
    loadItemValue holdsDelivered T.saved (toWString k) = .ok (T.lookup (toWString k)) := by
  obtain ⟨s, a, j, hs, hne, ha, hvisits, hend⟩ := h
  obtain ⟨hhash, hquarter, hcells⟩ := hash_bound hT hsize hs hne (toWString k)
  have hfour : 4 ≤ T.stored.length := by omega
  have ha' : a + 3 ≤ T.stored.length := by omega
  have hj : j + 3 ≤ T.stored.length := hvisits.bound hfour ha'
  rw [loadItemValue_start hT hsize hs hne ha]
  rcases hend with ⟨hends, hunheld⟩ | ⟨hfound, hmute, hget⟩
  · rw [loadItem_ends hsize hfour ha' hvisits hends, (hT.unheld_iff _).mp hunheld]
  · rw [loadItem_finds hsize hfour ha' hpos hvisits hfound, loadValue_mute hsize hj hmute,
      (hT.get_eq_iff (List.cons_ne_nil _ _)).mp hget]

theorem legible_of_loadItemValue (hfile : T.saved.length < 2 ^ 48)
    (h : loadItemValue holdsDelivered T.saved (toWString k) = .ok (T.lookup (toWString k))) :
    T.Legible k := by
  obtain ⟨s, hs, hload⟩ := Exec.bind_eq_ok.mp ((loadItemValue_eq T _).symm.trans h)
  by_cases hne : s = 0
  · rw [if_pos hne] at hload
    cases hload
  obtain ⟨hhash, hquarter, hcells⟩ := hash_bound hT hsize hs hne (toWString k)
  by_cases hneg : hashFunction (toWString k) s + 1 < 0
  · rw [loadItemValue_before hT hsize hs hne hneg] at h
    cases h
  obtain ⟨a, ha⟩ := Int.eq_ofNat_of_zero_le (Int.not_lt.mp hneg)
  have hfour : 4 ≤ T.stored.length := by omega
  have ha' : a + 3 ≤ T.stored.length := by omega
  rw [loadItemValue_start hT hsize hs hne ha.symm] at h
  obtain ⟨j, hvisits, hend⟩ := loadItem_cases hsize hfour ha' hfile h
  refine ⟨s, a, j, hs, hne, ha.symm, hvisits, ?_⟩
  rcases hend with ⟨hends, hempty⟩ | ⟨hfound, hvalue⟩
  · exact .inl ⟨hends, (hT.unheld_iff _).mpr hempty⟩
  · have hj : j + 3 ≤ T.stored.length := hvisits.bound hfour ha'
    by_cases hmute : T.Mute j
    · rw [loadValue_mute hsize hj hmute, Except.ok.injEq] at hvalue
      exact .inr ⟨hfound, hmute, (hT.get_eq_iff (List.cons_ne_nil _ _)).mpr hvalue.symm⟩
    · rw [loadValue_whole hsize hj hfile hmute] at hvalue
      exact absurd hvalue hT.split_saved_ne

end Sound

/-! ### Tables reached by insertions -/

def Op.AddsId : Op → Prop
  | .add key _ => ∃ id : ℕ, 0 < id ∧ id < 2 ^ 63 ∧ key = toWString id
  | .increaseTable => False

def Op.FreeOfDelimiter : Op → Prop
  | .add _ value => ∀ v ∈ value, ¬ delimiter <:+: v
  | .increaseTable => True

structure Written (n : ℕ) (T : HashTable) : Prop where
  sound : T.Sound
  size_eq : T.size = n
  keys : ∀ item ∈ T.stored, Spelled item.key

theorem eq_of_mem_stored_new {n : ℕ} {item : HashItem} (hitem : item ∈ (new n).stored) :
    item = ⟨[], [], -1, -1⟩ := by
  rw [stored, show (new n).colisions = [] from rfl, List.append_nil] at hitem
  exact List.eq_of_mem_replicate hitem

theorem new_written {n : ℕ} (hn : 1 ≤ n) : Written n (new n) where
  sound := new_sound hn
  size_eq := rfl
  keys item hitem := .inl (by rw [eq_of_mem_stored_new hitem])

/-- A property of entries that a head in use keeps under its key holds of every entry after an
insertion, if it holds of the inserted one. -/
theorem AddResult.stored_items {T T' : HashTable} {key : WString} {value : List WString} {code : ℕ}
    (h : AddResult T key value T' code) {p : HashItem → Prop} (hT : ∀ item ∈ T.stored, p item)
    (hnew : p (newItem key value))
    (hhead : ∀ head cell, p head → head.value ≠ [] → cell.key = head.key → p cell) :
    ∀ item ∈ T'.stored, p item := by
  intro item hitem
  rcases List.mem_append.mp hitem with hmem | hmem
  · obtain ⟨m, hcell⟩ := List.mem_iff_getElem?.mp hmem
    rcases h.cell_cases hcell with hold | ⟨_, rfl⟩ | ⟨head, hold, hvalue, hsame, _⟩
    · exact hT item (List.mem_append_left _ (List.mem_of_getElem? hold))
    · exact hnew
    · exact hhead head item (hT head (List.mem_append_left _ (List.mem_of_getElem? hold))) hvalue
        hsame
  · rcases h.entry_cases hmem with hold | rfl
    · exact hT item (List.mem_append_right _ hold)
    · exact hnew

theorem Written.step {n : ℕ} {T T' : HashTable} (h : Written n T) {op : Op} (hop : op.AddsId)
    (hstep : T.step op = some T') : Written n T' := by
  cases op with
  | add key value =>
      obtain ⟨id, _, hid, hkey⟩ := hop
      obtain ⟨husable, code, hresult⟩ := h.sound.step_add hstep
      exact ⟨hresult.sound h.sound husable, hresult.size_eq.trans h.size_eq,
        hresult.stored_items h.keys (.inr ⟨id, hid, hkey⟩) fun _ _ hhead _ hsame =>
          hsame ▸ hhead⟩
  | increaseTable => exact hop.elim

/-- A table reached by insertions under ids is read back for `k` if it is legible, and, unless its
file has `2 ^ 48` units, only if it is. -/
theorem run_loadsBack {n : ℕ} (hn : 1 ≤ n) (hmax : n < 2 ^ 63) {ops : List Op}
    (hops : ∀ op ∈ ops, op.AddsId) {T : HashTable}
    (hrun : Machine.run step (new n) ops = some T) {k : ℕ} (hk : 0 < k) :
    (T.Legible k → T.LoadsBack k) ∧
      (T.saved.length < 2 ^ 48 → T.LoadsBack k → T.Legible k) := by
  have hstep : ∀ T op T', Written n T → op.AddsId → step T op = some T' → Written n T' :=
    fun _ _ _ h hop hstep => h.step hop hstep
  have hT : Written n T := Machine.run_invariant_of_meets (Written n) hstep (new_written hn)
    (Machine.meets_label hops) hrun
  have hsize : T.size < 2 ^ 63 := hT.size_eq ▸ hmax
  rw [hT.sound.loadsBack_iff hT.keys]
  exact ⟨hT.sound.loadItemValue_of_legible hsize hk,
    fun hfile => hT.sound.legible_of_loadItemValue hsize hfile⟩

/-- The units of 49 spell the number one. -/
theorem oneId_loadsBack : ∃ T, Machine.run step (new 49) [.add [49] [[97]]] = some T ∧
    (T.Legible 2 → T.LoadsBack 2) ∧
      (T.saved.length < 2 ^ 48 → T.LoadsBack 2 → T.Legible 2) := by
  obtain ⟨T, hrun⟩ : ∃ T, Machine.run step (new 49) [.add [49] [[97]]] = some T :=
    Option.isSome_iff_exists.mp (by decide)
  have hops : ∀ op ∈ [Op.add [49] [[97]]], op.AddsId := by
    intro op hop
    rw [List.mem_singleton.mp hop]
    exact ⟨1, by decide, by decide, by decide⟩
  exact ⟨T, hrun, run_loadsBack (by decide) (by decide) hops hrun (by decide)⟩

def threeIds : List Op := [.add [49] [[49]], .add [50] [[50]], .add [51] [[51]]]

/-- The units of 5 spell no number. -/
theorem threeIds_not_loadsBack : ¬ ∀ (n : ℕ) (ops : List Op) (T : HashTable), 1 ≤ n → n < 2 ^ 63 →
    (∀ op ∈ ops, op.AddsId) → (∀ op ∈ ops, op.FreeOfDelimiter) →
    Machine.run step (new n) ops = some T → ∀ k, 0 < k → k < 2 ^ 63 → T.LoadsBack k := by
  intro h
  obtain ⟨T, hrun⟩ : ∃ T, Machine.run step (new 5) threeIds = some T :=
    Option.isSome_iff_exists.mp (by decide)
  have hread : (Machine.run step (new 5) threeIds).map (fun T => (T.get [50],
      T.saveTable.toOption.map fun file => loadItemValue holdsDelivered file [50])) =
        some (.ok [[50]], some (.error .thrown)) := by decide
  rw [hrun, Option.map_some, Option.some.injEq, Prod.mk.injEq] at hread
  have hops : ∀ op ∈ threeIds, op.AddsId := by
    simp only [threeIds, List.forall_mem_cons]
    exact ⟨⟨1, by decide⟩, ⟨2, by decide⟩, ⟨3, by decide⟩, List.forall_mem_nil _⟩
  have hfree : ∀ op ∈ threeIds, op.FreeOfDelimiter := by
    simp only [threeIds, List.forall_mem_cons]
    exact ⟨by unfold Op.FreeOfDelimiter; decide, by unfold Op.FreeOfDelimiter; decide,
      by unfold Op.FreeOfDelimiter; decide, List.forall_mem_nil _⟩
  obtain ⟨file, hfile, hget, _⟩ :=
    h 5 threeIds T (by decide) (by decide) hops hfree hrun 2 (by decide) (by decide)
  have hload : loadItemValue holdsDelivered file [50] = .ok [[50]] := hget _ hread.1
  rw [hfile] at hread
  rw [Except.toOption, Option.map_some, hload] at hread
  exact absurd hread.2 (by decide)

end HashTable

end IndexServer
