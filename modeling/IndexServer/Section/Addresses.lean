import IndexServer.Section.ReadBack

/-!
# The addresses in a saved table

Each of the four cells of a record is written as one unit, and all four units are the low one of the
key. So a record holds the address and the size of the text of its entry only where the key happens
to agree with both, and then the text is as long as the file in front of it.
-/

namespace IndexServer

namespace HashTable

/-! ### Records and texts -/

/-- The units that the record holds for the address and the size. -/
def recorded (file : WString) (k : ℕ) : Option (ℕ × ℕ) :=
  match file.drop (4 * (k + 1)) with
  | _ :: address :: size :: _ => some (address.toNat, size.toNat)
  | _ => none

/-- The number of units that `saveTable` has written when it comes to the values of the entry. -/
def textOffset (T : HashTable) (k : ℕ) : ℕ :=
  (longUnits T.size ++ T.stored.flatMap record ++ (T.stored.take k).flatMap text).length

/-- The length of the texts of entries. -/
def textLength (items : List HashItem) : ℕ :=
  (items.map fun item => joinedLength delimiter item.value).sum

section offsets

variable {T : HashTable} {j k : ℕ} {item : HashItem}

theorem length_flatMap_text (items : List HashItem) :
    (items.flatMap text).length = textLength items := by
  simp only [List.length_flatMap, text, length_writeVectorToString, textLength]

theorem textOffset_eq (T : HashTable) (k : ℕ) :
    T.textOffset k = 4 + 4 * T.stored.length + textLength (T.stored.take k) := by
  rw [textOffset, List.length_append, List.length_append, length_flatMap_record,
    length_flatMap_text]
  rfl

theorem saved_drop_textOffset (hk : T.stored[k]? = some item) :
    ∃ rest, T.saved.drop (T.textOffset k) = text item ++ rest := by
  obtain ⟨hlt, hitem⟩ := List.getElem?_eq_some_iff.mp hk
  refine ⟨(T.stored.drop (k + 1)).flatMap text, ?_⟩
  have htexts : T.stored.flatMap text =
      (T.stored.take k).flatMap text ++ (T.stored.drop k).flatMap text := by
    rw [← List.flatMap_append, List.take_append_drop]
  rw [saved, htexts, ← List.append_assoc, textOffset, List.drop_left,
    List.drop_eq_getElem_cons hlt, hitem, List.flatMap_cons]

theorem textOffset_zero (T : HashTable) : T.textOffset 0 = 4 * (T.stored.length + 1) := by
  rw [textOffset_eq, List.take_zero, textLength, List.map_nil, List.sum_nil]
  omega

theorem textOffset_succ (hk : T.stored[k]? = some item) :
    T.textOffset (k + 1) = T.textOffset k + joinedLength delimiter item.value := by
  rw [textOffset_eq, textOffset_eq, List.take_add_one, hk]
  simp [textLength, Nat.add_assoc]

theorem textOffset_mono (hjk : j ≤ k) : T.textOffset j ≤ T.textOffset k := by
  obtain ⟨more, hmore⟩ : T.stored.take j <+: T.stored.take k := List.take_prefix_take_left hjk
  rw [textOffset_eq, textOffset_eq, ← hmore]
  simp only [textLength, List.map_append, List.sum_append]
  omega

theorem textOffset_le (hjk : j < k) (hj : T.stored[j]? = some item) :
    T.textOffset j + (text item).length ≤ T.textOffset k := by
  rw [text, length_writeVectorToString, ← textOffset_succ hj]
  exact textOffset_mono hjk

theorem recorded_saved (hk : T.stored[k]? = some item) :
    recorded T.saved k = some ((lowUnit (mark item)).toNat, (lowUnit (mark item)).toNat) := by
  obtain ⟨more, hmore⟩ := drop_flatMap_append length_record (T.stored.flatMap text) hk
  have hdrop : T.saved.drop (4 * (k + 1)) = record item ++ more := by
    rw [saved, List.append_assoc, Nat.mul_succ, Nat.add_comm, ← List.drop_drop]
    exact hmore
  rw [recorded, hdrop]
  rfl

theorem textOffset_le_saved (hk : k ≤ T.stored.length) : T.textOffset k ≤ T.saved.length := by
  have hle := textOffset_mono (T := T) hk
  rw [T.textOffset_eq T.stored.length, List.take_length, ← length_flatMap_text] at hle
  rw [length_saved]
  exact hle

/-- The reader takes four units for the address, and in a file of fewer than `2 ^ 48` units finds
the offset of the text in no record. -/
theorem longAt_ne_textOffset (hsize : T.size < 2 ^ 63) (hfile : T.saved.length < 2 ^ 48)
    (hk : k + 1 + 3 ≤ T.stored.length) :
    longAt (T.window (k + 1)).buffer 1 ≠ .ok (T.textOffset k) := by
  have hle : T.textOffset k ≤ T.saved.length := textOffset_le_saved (by omega)
  have hoffset := T.textOffset_eq k
  have hread : longAt (T.window (k + 1)).buffer (1 : ℕ) = .ok (T.word (k + 1 + 1)) :=
    longAt_buffer hsize (by decide) hk
  have hword : T.word (k + 1 + 1) ≠ T.textOffset k := by
    rcases T.word_succ (k + 1) with hzero | hones | ⟨hfar, _⟩
    · omega
    · omega
    · rw [Far] at hfar
      omega
  rw [hread, Ne, Except.ok.injEq]
  exact hword

end offsets

/-! ### Texts as long as all in front of them -/

def filledBefore (T : HashTable) (k : ℕ) : ℕ :=
  (T.stored.take k).countP fun item => !item.value.isEmpty

/-- The units of the size and the records, doubled for each entry with values in front. -/
def doubled (T : HashTable) (k : ℕ) : ℕ := 4 * (T.stored.length + 1) * 2 ^ T.filledBefore k

section doubled

variable {T : HashTable} {k : ℕ} {item : HashItem}

theorem filledBefore_succ (hk : T.stored[k]? = some item) :
    T.filledBefore (k + 1) = T.filledBefore k + if item.value = [] then 0 else 1 := by
  rw [filledBefore, filledBefore, List.take_add_one, hk, List.countP_append]
  simp [List.countP_singleton]

theorem textOffset_eq_doubled
    (hlength : ∀ k item, T.stored[k]? = some item → item.value ≠ [] →
      T.textOffset k = T.doubled k → joinedLength delimiter item.value = T.doubled k)
    (hk : k ≤ T.stored.length) : T.textOffset k = T.doubled k := by
  induction k with
  | zero =>
      rw [textOffset_zero, doubled]
      simp [filledBefore]
  | succ k ih =>
      have hoffset := ih (by omega)
      have hitem := List.getElem?_eq_getElem (show k < T.stored.length from hk)
      rw [textOffset_succ hitem, doubled, filledBefore_succ hitem]
      split
      · have hvalue : T.stored[k].value = [] := by assumption
        rw [hvalue, hoffset, doubled]
        rfl
      · have hvalue : T.stored[k].value ≠ [] := by assumption
        rw [hlength k _ hitem hvalue hoffset, hoffset, doubled, pow_succ, ← Nat.mul_assoc,
          Nat.mul_two]

end doubled

/-! ### Tables with decimal keys -/

def Op.AddsNumber : Op → Prop
  | .add key _ => Decimal key
  | .increaseTable => False

structure Numbered (T : HashTable) : Prop where
  sound : T.Sound
  keys : ∀ item ∈ T.stored, (item.key = [] ∧ item.value = []) ∨ Decimal item.key

/-- The records hold the offsets and the lengths of the texts, and the regions they hold do not
overlap. -/
structure Addressed (T : HashTable) (file : WString) : Prop where
  exact : ∀ k item, T.stored[k]? = some item → item.value ≠ [] →
    recorded file k = some (T.textOffset k, (writeVectorToString item.value).length)
  disjoint : ∀ j k item item', j < k → T.stored[j]? = some item → T.stored[k]? = some item' →
    item.value ≠ [] → item'.value ≠ [] → ∀ address size address' size',
      recorded file j = some (address, size) → recorded file k = some (address', size') →
      address + size ≤ address'

/-- Every key has a `long long`; and the texts of the entries with values, in their order, are as
long as the size and the records, twice as long, four times as long, and so on, and the low unit of
each of their keys is that length. -/
structure Coincides (T : HashTable) : Prop where
  range : ∀ item ∈ T.stored, number item.key < 2 ^ 63
  length : ∀ k item, T.stored[k]? = some item → item.value ≠ [] →
    joinedLength delimiter item.value = T.doubled k
  key : ∀ k item, T.stored[k]? = some item → item.value ≠ [] →
    number item.key % 2 ^ 16 = T.doubled k

section numbered

variable {T T' : HashTable}

theorem new_numbered {n : ℕ} (hn : 1 ≤ n) : (new n).Numbered where
  sound := new_sound hn
  keys item hitem := by
    rw [eq_of_mem_stored_new hitem]
    exact .inl ⟨rfl, rfl⟩

theorem Numbered.step (hT : T.Numbered) {op : Op} (hop : op.AddsNumber)
    (hstep : T.step op = some T') : T'.Numbered := by
  cases op with
  | add key value =>
      obtain ⟨husable, code, hresult⟩ := hT.sound.step_add hstep
      refine ⟨hresult.sound hT.sound husable, hresult.stored_items hT.keys (.inr hop) ?_⟩
      intro head cell hhead hvalue hsame
      rw [hsame]
      exact .inr (hhead.resolve_left fun hempty => hvalue hempty.2)
  | increaseTable => exact hop.elim

variable (hT : T.Numbered)
include hT

theorem Numbered.legal_iff {item : HashItem} (hitem : item ∈ T.stored) :
    Legal item.key ↔ number item.key < 2 ^ 63 := by
  rcases hT.keys item hitem with ⟨hnil, _⟩ | hdecimal
  · rw [hnil]
    exact iff_of_true (.inl rfl) (by decide)
  · exact ⟨fun h => (h.resolve_left hdecimal.1).2, fun h => .inr ⟨hdecimal, h⟩⟩

theorem Numbered.range_of_saveTable {file : WString} (hrun : T.saveTable = .ok file) :
    ∀ item ∈ T.stored, number item.key < 2 ^ 63 := by
  intro item hitem
  obtain ⟨key, hread⟩ := hT.sound.exists_arrayKey_of_saveTable hrun item hitem
  rcases hT.keys item hitem with ⟨hnil, _⟩ | hdecimal
  · rw [hnil]
    decide
  · rw [arrayKey_of_decimal hdecimal] at hread
    by_contra hlarge
    rw [if_neg hlarge] at hread
    cases hread

theorem Numbered.lowUnit_mark {item : HashItem} (hitem : item ∈ T.stored)
    (hvalue : item.value ≠ []) (hrange : number item.key < 2 ^ 63) :
    (lowUnit (mark item)).toNat = number item.key % 2 ^ 16 := by
  have hdecimal : Decimal item.key :=
    (hT.keys item hitem).resolve_left fun hempty => hvalue hempty.2
  have hmod : ((number item.key : Int) % 2 ^ 64).toNat = number item.key := by omega
  rw [mark, if_neg (not_or.mpr ⟨hvalue, hdecimal.1⟩), lowUnit, ← number, hmod]
  exact UInt16.toNat_ofNat'

/-- The table is saved with its addresses exactly if its keys coincide with them. -/
theorem Numbered.addressed_iff :
    (∃ file, T.saveTable = .ok file ∧ T.Addressed file) ↔ T.Coincides := by
  have hsave : (∀ item ∈ T.stored, number item.key < 2 ^ 63) → T.saveTable = .ok T.saved :=
    fun hrange => hT.sound.saveTable_eq fun item hitem =>
      (hT.legal_iff hitem).mpr (hrange item hitem)
  have hrecorded : ∀ k item, (∀ item ∈ T.stored, number item.key < 2 ^ 63) →
      T.stored[k]? = some item → item.value ≠ [] →
      recorded T.saved k = some (number item.key % 2 ^ 16, number item.key % 2 ^ 16) := by
    intro k item hrange hk hvalue
    have hitem := List.mem_of_getElem? hk
    rw [recorded_saved hk, hT.lowUnit_mark hitem hvalue (hrange item hitem)]
  constructor
  · rintro ⟨file, hfile, haddressed⟩
    have hrange := hT.range_of_saveTable hfile
    rw [hsave hrange, Except.ok.injEq] at hfile
    subst hfile
    have hboth : ∀ k item, T.stored[k]? = some item → item.value ≠ [] →
        number item.key % 2 ^ 16 = T.textOffset k ∧
          number item.key % 2 ^ 16 = joinedLength delimiter item.value := by
      intro k item hk hvalue
      have hexact := haddressed.exact k item hk hvalue
      rwa [hrecorded k item hrange hk hvalue, length_writeVectorToString, Option.some.injEq,
        Prod.mk.injEq] at hexact
    have hlength : ∀ k item, T.stored[k]? = some item → item.value ≠ [] →
        joinedLength delimiter item.value = T.textOffset k := by
      intro k item hk hvalue
      obtain ⟨hoffset, hlength⟩ := hboth k item hk hvalue
      exact hlength.symm.trans hoffset
    have hdoubled : ∀ k item, T.stored[k]? = some item → T.textOffset k = T.doubled k := by
      intro k item hk
      apply textOffset_eq_doubled
      · exact fun k item hk hvalue hoffset => (hlength k item hk hvalue).trans hoffset
      · exact (List.getElem?_eq_some_iff.mp hk).1.le
    refine ⟨hrange, fun k item hk hvalue => ?_, fun k item hk hvalue => ?_⟩
    · rw [hlength k item hk hvalue, hdoubled k item hk]
    · rw [(hboth k item hk hvalue).1, hdoubled k item hk]
  · intro h
    have hexact : ∀ k item, T.stored[k]? = some item → item.value ≠ [] →
        recorded T.saved k = some (T.textOffset k, (writeVectorToString item.value).length) := by
      intro k item hk hvalue
      have hoffset : T.textOffset k = T.doubled k :=
        textOffset_eq_doubled (fun k item hk hvalue _ => h.length k item hk hvalue)
          (List.getElem?_eq_some_iff.mp hk).1.le
      rw [hrecorded k item h.range hk hvalue, h.key k item hk hvalue, hoffset,
        length_writeVectorToString, h.length k item hk hvalue]
    refine ⟨T.saved, hsave h.range, hexact, ?_⟩
    intro j k item item' hjk hj hk hvalue hvalue' address size address' size' hregion hregion'
    rw [hexact j item hj hvalue] at hregion
    rw [hexact k item' hk hvalue'] at hregion'
    cases hregion
    cases hregion'
    exact textOffset_le hjk hj

end numbered

/-! ### Runs -/

/-- A table without cells takes no insertion. -/
theorem add_new_zero (key : WString) (value : List WString) :
    (new 0).add key value = .error .outOfRange := by
  have hread : ∀ index, (new 0).readCell index = .error .outOfRange := by
    intro index
    rw [readCell, lockMutex]
    split
    · cases index <;> rfl
    · rfl
  rw [add, hread]
  rfl

theorem run_new_zero {ops : List Op} (hops : ∀ op ∈ ops, op.AddsNumber) {T : HashTable}
    (hrun : Machine.run step (new 0) ops = some T) : T = new 0 := by
  cases ops with
  | nil =>
      cases hrun
      rfl
  | cons op rest =>
      obtain ⟨T₁, hstep, _⟩ := Machine.run_cons_eq_some.mp hrun
      have hop := hops op List.mem_cons_self
      cases op with
      | add key value =>
          rw [step, add_new_zero] at hstep
          cases hstep
      | increaseTable => exact hop.elim

theorem new_zero_addressed_iff :
    (∃ file, (new 0).saveTable = .ok file ∧ (new 0).Addressed file) ↔ (new 0).Coincides := by
  have hnone : ∀ (k : ℕ) (item : HashItem), (new 0).stored[k]? ≠ some item := by
    intro k item hk
    cases hk
  apply iff_of_true
  · exact ⟨longUnits 0, by decide, fun k item hk => absurd hk (hnone k item),
      fun j _ item _ _ hj => absurd hj (hnone j item)⟩
  · exact ⟨List.forall_mem_nil _, fun k item hk => absurd hk (hnone k item),
      fun k item hk => absurd hk (hnone k item)⟩

theorem run_addressed_iff {n : ℕ} {ops : List Op} (hops : ∀ op ∈ ops, op.AddsNumber)
    {T : HashTable} (hrun : Machine.run step (new n) ops = some T) :
    (∃ file, T.saveTable = .ok file ∧ T.Addressed file) ↔ T.Coincides := by
  rcases Nat.eq_zero_or_pos n with rfl | hn
  · rw [run_new_zero hops hrun]
    exact new_zero_addressed_iff
  · have hstep : ∀ T op T', Numbered T → op.AddsNumber → step T op = some T' → Numbered T' :=
      fun _ _ _ h hop hstep => h.step hop hstep
    have hT : T.Numbered := Machine.run_invariant_of_meets Numbered hstep (new_numbered hn)
      (Machine.meets_label hops) hrun
    exact hT.addressed_iff

/-- The key 12 coincides with the place of its empty string in a table of two cells. -/
theorem twelve_addressed : ∃ T, Machine.run step (new 2) [.add [49, 50] [[]]] = some T ∧
    ((∃ file, T.saveTable = .ok file ∧ T.Addressed file) ↔ T.Coincides) := by
  obtain ⟨T, hrun⟩ : ∃ T, Machine.run step (new 2) [.add [49, 50] [[]]] = some T :=
    Option.isSome_iff_exists.mp (by decide)
  have hops : ∀ op ∈ [Op.add [49, 50] [[]]], op.AddsNumber :=
    List.forall_mem_singleton.mpr ⟨by decide, by decide⟩
  exact ⟨T, hrun, run_addressed_iff hops hrun⟩

theorem oneId_misplaced : ¬ ∀ (n : ℕ) (ops : List Op) (T : HashTable),
    (∀ op ∈ ops, op.AddsNumber) → (∀ op ∈ ops, op.FreeOfDelimiter) →
    Machine.run step (new n) ops = some T → ∃ file, T.saveTable = .ok file ∧ T.Addressed file := by
  intro h
  obtain ⟨T, hrun⟩ : ∃ T, Machine.run step (new 2) [.add [49] [[97]]] = some T :=
    Option.isSome_iff_exists.mp (by decide)
  have hops : ∀ op ∈ [Op.add [49] [[97]]], op.AddsNumber :=
    List.forall_mem_singleton.mpr ⟨by decide, by decide⟩
  have hfree : ∀ op ∈ [Op.add [49] [[97]]], op.FreeOfDelimiter :=
    List.forall_mem_singleton.mpr (by unfold Op.FreeOfDelimiter; decide)
  obtain ⟨file, hfile, haddressed⟩ := h 2 _ T hops hfree hrun
  have hread : (Machine.run step (new 2) [.add [49] [[97]]]).map (fun T => (T.stored[0]?,
      T.saveTable.toOption.map fun file => recorded file 0, T.textOffset 0)) =
        some (some ⟨[49], [[97]], 1, -1⟩, some (some (1, 1)), 12) := by decide
  rw [hrun, Option.map_some, Option.some.injEq, Prod.mk.injEq, Prod.mk.injEq, hfile] at hread
  obtain ⟨hitem, hregion, hoffset⟩ := hread
  have hexact := haddressed.exact 0 _ hitem (List.cons_ne_nil _ _)
  rw [Except.toOption, Option.map_some, hexact, hoffset] at hregion
  exact absurd hregion (by decide)

end HashTable

end IndexServer
