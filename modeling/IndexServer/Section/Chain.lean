import IndexServer.Lib.Walk
import IndexServer.Section.Values

/-!
# The chain of records that is followed

The loop of `loadItemValue` over any file. What it reads is the record that the last one links to,
as long as that record lies in the file; a read that fails leaves the last record where it is, and
every later one fails too. So the loop ends exactly if the links neither leave the file nor come
back to a record, before they reach one of the word or one with the link -1.
-/

namespace IndexServer

open Walk

namespace InvertedIndex

/-- The string is filled if the file has the units, and is left as it is otherwise. -/
def fillsOrLeaves : Refill := fun buffer delivered count =>
  if (delivered.length : Int) = count then delivered else buffer

/-! ### Records of a file -/

/-- The `long long` at a position of the file. -/
def longIn (file : WString) (b : ℕ) : Int :=
  longOf (file.getD b 0) (file.getD (b + 1) 0) (file.getD (b + 2) 0) (file.getD (b + 3) 0)

/-- The position that the record at `b` links to. -/
def linkFrom (file : WString) (b : ℕ) : Int :=
  wrap64 ((longIn file (b + 12) + 1) * HashTable.cellSize)

def Inside (file : WString) (address : Int) : Prop := 0 ≤ address ∧ address + 16 ≤ file.length

/-- The loop goes no further than the record at `b`: it is that of the word, or the last one. -/
def Halts (file wordId : WString) (b : ℕ) : Prop :=
  wordId = toWString (longIn file b) ∨ longIn file (b + 12) = -1

instance (file : WString) (address : Int) : Decidable (Inside file address) :=
  inferInstanceAs (Decidable (_ ∧ _))

instance (file wordId : WString) (b : ℕ) : Decidable (Halts file wordId b) :=
  inferInstanceAs (Decidable (_ ∨ _))

/-- The record behind the one at `b`, if the loop goes on to one in the file. -/
def nextRecord (file wordId : WString) (b : ℕ) : Option ℕ :=
  if ¬ Halts file wordId b ∧ Inside file (linkFrom file b) then some (linkFrom file b).toNat
  else none

/-- The reader when it has read the record at `b`. -/
def recordAt (file : WString) (b : ℕ) : Loading where
  stream := { file, pos := b + 16, failed := false }
  buffer := (file.drop b).take 16

/-- The reader when it has failed to read the record behind the one at `b`. -/
def stuckAt (file : WString) (b pos : ℕ) : Loading where
  stream := { file, pos, failed := true }
  buffer := (file.drop b).take 16

section read

variable {file : WString} {b : ℕ}

theorem drop_four (hb : b + 4 ≤ file.length) :
    file.drop b = file.getD b 0 :: file.getD (b + 1) 0 :: file.getD (b + 2) 0 ::
      file.getD (b + 3) 0 :: file.drop (b + 4) := by
  have hcons : ∀ n, n < file.length → file.drop n = file.getD n 0 :: file.drop (n + 1) := by
    intro n hn
    rw [List.drop_eq_getElem_cons hn, List.getD_eq_getElem?_getD, List.getElem?_eq_getElem hn]
    rfl
  rw [hcons b (by omega), hcons (b + 1) (by omega), hcons (b + 2) (by omega),
    hcons (b + 3) (by omega)]

theorem longAt_record {i : ℕ} (hi : i < 4) (hb : b + 16 ≤ file.length) :
    longAt ((file.drop b).take 16) i = .ok (longIn file (b + 4 * i)) := by
  have hlength : 16 - 4 * i = 12 - 4 * i + 1 + 1 + 1 + 1 := by omega
  rw [longAt, List.drop_take, List.drop_drop, drop_four (by omega), hlength]
  simp only [List.take_succ_cons, longIn]

theorem readAt_inside {s : Loading} {c : ℕ} (hfile : s.stream.file = file)
    (hfailed : s.stream.failed = false) (hc : c + 16 ≤ file.length) :
    s.readAt fillsOrLeaves c 16 = recordAt file c := by
  have hlength : ((file.drop c).take 16).length = 16 := by
    rw [List.length_take, List.length_drop]
    omega
  have hseek : s.stream.seekg c = { file, pos := c, failed := false } := by
    rw [WIfStream.seekg, hfailed, if_neg Bool.false_ne_true, if_neg (by omega), hfile]
    rfl
  rw [Loading.readAt, hseek, WIfStream.read, if_neg Bool.false_ne_true, recordAt,
    show (16 : Int).toNat = 16 from rfl]
  simp only [hlength, fillsOrLeaves]
  rfl

theorem readAt_failed {s : Loading} {address : Int} (hfailed : s.stream.failed = true) :
    s.readAt fillsOrLeaves address 16 = s := by
  have hseek : s.stream.seekg address = s.stream := by
    rw [WIfStream.seekg, if_pos hfailed]
  rw [Loading.readAt, hseek, WIfStream.read, if_pos hfailed]
  rfl

theorem readAt_outside {address : Int} (houtside : ¬ Inside file address) :
    ∃ pos, (recordAt file b).readAt fillsOrLeaves address 16 = stuckAt file b pos := by
  rw [Inside] at houtside
  by_cases hneg : address < 0
  · have hseek : (recordAt file b).stream.seekg address =
        { file, pos := b + 16, failed := true } := by
      rw [WIfStream.seekg, if_neg (show ¬ (recordAt file b).stream.failed from Bool.false_ne_true),
        if_pos hneg]
      rfl
    refine ⟨b + 16, ?_⟩
    rw [Loading.readAt, hseek, WIfStream.read, if_pos rfl]
    rfl
  · have hseek : (recordAt file b).stream.seekg address =
        { file, pos := address.toNat, failed := false } := by
      rw [WIfStream.seekg, if_neg (show ¬ (recordAt file b).stream.failed from Bool.false_ne_true),
        if_neg hneg]
      rfl
    have hshort : (((file.drop address.toNat).take 16).length : Int) ≠ 16 := by
      rw [List.length_take, List.length_drop]
      omega
    refine ⟨address.toNat + ((file.drop address.toNat).take 16).length, ?_⟩
    rw [Loading.readAt, hseek, WIfStream.read, if_neg Bool.false_ne_true,
      show (16 : Int).toNat = 16 from rfl]
    simp only [fillsOrLeaves, if_neg hshort, decide_eq_true hshort]
    rfl

end read

/-! ### The loop -/

section loop

variable {file wordId : WString} {b fuel : ℕ}

def loopAt (file wordId : WString) (fuel b : ℕ) : Exec (Option Loading) :=
  loadLoop fillsOrLeaves wordId fuel (recordAt file b) (longIn file b)

theorem loadValue_returns (hb : b + 16 ≤ file.length) :
    ∃ value, loadValue fillsOrLeaves (recordAt file b) = .ok value := by
  rw [loadValue]
  change ∃ value, longAt ((file.drop b).take 16) 1 >>= _ = _
  rw [longAt_record (by decide) hb, Exec.ok_bind]
  change ∃ value, longAt ((file.drop b).take 16) 2 >>= _ = _
  rw [longAt_record (by decide) hb, Exec.ok_bind]
  obtain ⟨value, hsplit, _⟩ := exists_split
    ((recordAt file b).readAt fillsOrLeaves (longIn file (b + 4 * 1))
      (longIn file (b + 4 * 2))).buffer HashTable.delimiter_ne_nil
  exact ⟨value, hsplit⟩

theorem loopAt_halts (hb : b + 16 ≤ file.length) (hhalts : Halts file wordId b) :
    ∃ found value, loopAt file wordId (fuel + 1) b = .ok found ∧
      loadFound fillsOrLeaves found = .ok value := by
  by_cases hword : wordId = toWString (longIn file b)
  · obtain ⟨value, hvalue⟩ := loadValue_returns hb
    exact ⟨_, value, if_neg (not_not_intro hword), hvalue⟩
  · have hlast : longIn file (b + 4 * 3) = -1 := hhalts.resolve_left hword
    refine ⟨none, [], ?_, rfl⟩
    rw [loopAt, loadLoop, if_pos hword]
    change longAt ((file.drop b).take 16) 3 >>= _ = _
    rw [longAt_record (by decide) hb, Exec.ok_bind, if_pos hlast]
    rfl

/-- A round that goes on reads the record that is linked to. -/
theorem loadLoop_goes_on {s : Loading} (hbuffer : s.buffer = (file.drop b).take 16)
    (hb : b + 16 ≤ file.length) (hhalts : ¬ Halts file wordId b) :
    loadLoop fillsOrLeaves wordId (fuel + 1) s (longIn file b) =
      longAt (s.readAt fillsOrLeaves (linkFrom file b) 16).buffer 0 >>=
        loadLoop fillsOrLeaves wordId fuel (s.readAt fillsOrLeaves (linkFrom file b) 16) := by
  obtain ⟨hword, hlink⟩ := not_or.mp hhalts
  have hlink' : longIn file (b + 4 * 3) ≠ -1 := hlink
  rw [loadLoop, if_pos hword, hbuffer]
  change longAt ((file.drop b).take 16) 3 >>= _ = _
  rw [longAt_record (by decide) hb, Exec.ok_bind, if_neg hlink']
  rfl

theorem nextRecord_eq_some {c : ℕ} :
    nextRecord file wordId b = some c ↔
      ¬ Halts file wordId b ∧ Inside file (linkFrom file b) ∧ (linkFrom file b).toNat = c := by
  rw [nextRecord]
  split
  · obtain ⟨hhalts, hinside⟩ := ‹¬ Halts file wordId b ∧ _›
    rw [Option.some.injEq]
    exact ⟨fun hc => ⟨hhalts, hinside, hc⟩, fun h => h.2.2⟩
  · have hnot : ¬ (¬ Halts file wordId b ∧ Inside file (linkFrom file b)) := by assumption
    exact iff_of_false (by simp) fun h => hnot ⟨h.1, h.2.1⟩

theorem next_inside {c : ℕ} (hnext : nextRecord file wordId b = some c) :
    c + 16 ≤ file.length := by
  obtain ⟨_, ⟨hlow, hhigh⟩, rfl⟩ := nextRecord_eq_some.mp hnext
  omega

theorem loopAt_next (fuel : ℕ) {c : ℕ} (hb : b + 16 ≤ file.length)
    (hnext : nextRecord file wordId b = some c) :
    loopAt file wordId (fuel + 1) b = loopAt file wordId fuel c := by
  have hlength := next_inside hnext
  obtain ⟨hhalts, ⟨hlow, _⟩, hc⟩ := nextRecord_eq_some.mp hnext
  have hlink : linkFrom file b = c := by rw [← hc, Int.toNat_of_nonneg hlow]
  rw [loopAt, loadLoop_goes_on rfl hb hhalts, hlink, readAt_inside rfl rfl hlength]
  change longAt ((file.drop c).take 16) 0 >>= _ = _
  rw [longAt_record (by decide) hlength]
  rfl

/-- A loop whose stream has failed goes round with the same record for ever. -/
theorem loadLoop_stuck {pos : ℕ} (hb : b + 16 ≤ file.length) (hhalts : ¬ Halts file wordId b)
    (fuel : ℕ) :
    loadLoop fillsOrLeaves wordId fuel (stuckAt file b pos) (longIn file b) =
      .error .noReturn := by
  induction fuel with
  | zero => rfl
  | succ fuel ih =>
      rw [loadLoop_goes_on rfl hb hhalts, readAt_failed rfl]
      change longAt ((file.drop b).take 16) 0 >>= _ = _
      rw [longAt_record (by decide) hb, Exec.ok_bind]
      exact ih

theorem loopAt_leaves (hb : b + 16 ≤ file.length) (hhalts : ¬ Halts file wordId b)
    (houtside : ¬ Inside file (linkFrom file b)) :
    loopAt file wordId fuel b = .error .noReturn := by
  cases fuel with
  | zero => rfl
  | succ fuel =>
      obtain ⟨pos, hstuck⟩ := readAt_outside (b := b) houtside
      rw [loopAt, loadLoop_goes_on rfl hb hhalts, hstuck]
      change longAt ((file.drop b).take 16) 0 >>= _ = _
      rw [longAt_record (by decide) hb, Exec.ok_bind]
      exact loadLoop_stuck hb hhalts fuel

/-- The links from the record at `b` stay in the file and never come back to a record. -/
def Straight (file wordId : WString) (b : ℕ) : Prop :=
  ∀ c, Leads (nextRecord file wordId) b c →
    (Halts file wordId c ∨ Inside file (linkFrom file c)) ∧ ¬ Returns (nextRecord file wordId) c

theorem leads_inside {c : ℕ} (hb : b + 16 ≤ file.length)
    (hleads : Leads (nextRecord file wordId) b c) : c + 16 ≤ file.length := by
  induction hleads with
  | refl => exact hb
  | tail _ hgoes ih => exact next_inside hgoes

theorem finite_leads (hb : b + 16 ≤ file.length) :
    {c | Leads (nextRecord file wordId) b c}.Finite :=
  (Set.finite_le_nat file.length).subset fun _ hleads =>
    Nat.le_of_add_right_le (leads_inside hb hleads)

/-- The walk from the record at `b` goes no further than the file. -/
def StaysInside (file wordId : WString) (b : ℕ) : Prop :=
  ∀ c, Leads (nextRecord file wordId) b c → Halts file wordId c ∨ Inside file (linkFrom file c)

theorem ends_of_returns {found : Option Loading} (hb : b + 16 ≤ file.length)
    (h : loopAt file wordId fuel b = .ok found) :
    Ends (nextRecord file wordId) b ∧ StaysInside file wordId b := by
  induction fuel generalizing b with
  | zero => cases h
  | succ fuel ih =>
      by_cases hhalts : Halts file wordId b
      · have hnone : nextRecord file wordId b = none := if_neg fun hgo => hgo.1 hhalts
        refine ⟨.stop hnone, fun c hleads => ?_⟩
        rw [leads_of_none hnone hleads]
        exact .inl hhalts
      by_cases hinside : Inside file (linkFrom file b)
      · have hnext : nextRecord file wordId b = some (linkFrom file b).toNat :=
          if_pos ⟨hhalts, hinside⟩
        obtain ⟨hends, hstays⟩ := ih (next_inside hnext) (loopAt_next fuel hb hnext ▸ h)
        refine ⟨.go hnext hends, fun c hleads => ?_⟩
        cases leads_of_some hnext hleads with
        | inl heq =>
            rw [heq]
            exact .inr hinside
        | inr hrest => exact hstays c hrest
      · rw [loopAt_leaves hb hhalts hinside] at h
        cases h

/-- A loop over straight links has no more rounds than there are places for records. -/
theorem returns_of_ends (hends : Ends (nextRecord file wordId) b) (hb : b + 16 ≤ file.length)
    (hstays : StaysInside file wordId b) {places : Finset ℕ}
    (hplaces : ∀ c, Leads (nextRecord file wordId) b c → c ∈ places) :
    ∃ found value, loopAt file wordId places.card b = .ok found ∧
      loadFound fillsOrLeaves found = .ok value := by
  induction hends generalizing places with
  | @stop b hnone =>
      have hhalts : Halts file wordId b := by
        by_contra hgo
        have hinside := (hstays b .refl).resolve_left hgo
        exact absurd (hnone.symm.trans (if_pos ⟨hgo, hinside⟩)) (by simp)
      rw [← Finset.card_erase_add_one (hplaces b .refl)]
      exact loopAt_halts hb hhalts
  | @go b c hnext hrest ih =>
      rw [← Finset.card_erase_add_one (hplaces b .refl), loopAt_next _ hb hnext]
      refine ih (next_inside hnext) (fun d hleads => hstays d (.head hnext hleads))
        fun d hleads => ?_
      refine Finset.mem_erase.mpr ⟨?_, hplaces d (.head hnext hleads)⟩
      rintro rfl
      exact (Ends.go hnext hrest).not_returns (.head' hnext hleads)

theorem straight_of_returns {found : Option Loading} (hb : b + 16 ≤ file.length)
    (h : loopAt file wordId fuel b = .ok found) : Straight file wordId b := by
  intro c hleads
  obtain ⟨hends, hstays⟩ := ends_of_returns hb h
  exact ⟨hstays c hleads, (hends.leads hleads).not_returns⟩

theorem returns_of_straight (hb : b + 16 ≤ file.length) (h : Straight file wordId b) :
    ∃ found value, loopAt file wordId (file.length + 2) b = .ok found ∧
      loadFound fillsOrLeaves found = .ok value := by
  have hends := (ends_iff (finite_leads hb)).mpr fun c hleads => (h c hleads).2
  have hplaces : ∀ c, Leads (nextRecord file wordId) b c → c ∈ Finset.range (file.length + 2) :=
    fun c hleads => Finset.mem_range.mpr (by have hc := leads_inside hb hleads; omega)
  have hreturns := returns_of_ends hends hb (fun c hleads => (h c hleads).1) hplaces
  rwa [Finset.card_range] at hreturns

end loop

/-! ### `loadItemValue` -/

/-- The header gives a section size of at least 1, and the first record lies at `first`. -/
structure Begins (file wordId : WString) (first : ℕ) : Prop where
  header : 4 ≤ file.length
  size : ∃ sectionSize : Int, stoll ((ws2s (file.take 4)).map UInt8.toNat) = .ok sectionSize ∧
    1 ≤ sectionSize ∧
    wrap64 ((HashTable.hashFunction wordId sectionSize + 1) * HashTable.cellSize) = first
  inside : first + 16 ≤ file.length

section begins

variable {file wordId : WString} {first : ℕ} (h : Begins file wordId first)
include h

theorem Begins.loadItemValue_eq :
    loadItemValue fillsOrLeaves file wordId =
      loadItem fillsOrLeaves wordId (file.length + 2) (recordAt file first) := by
  obtain ⟨sectionSize, hsize, hpos, haddress⟩ := h.size
  have hlength : (file.take 4).length = 4 := List.length_take_of_le h.header
  have hheader : Loading.readAt ⟨⟨file, 0, false⟩, []⟩ fillsOrLeaves 0 HashTable.cellSize =
      ⟨⟨file, 4, false⟩, file.take 4⟩ := by
    change Loading.mk ⟨file, 0 + (file.take 4).length,
      decide (((file.take 4).length : Int) ≠ 4)⟩ (fillsOrLeaves [] (file.take 4) 4) = _
    rw [fillsOrLeaves, hlength]
    rfl
  rw [loadItemValue]
  dsimp only
  rw [hheader, hsize, Exec.ok_bind, if_neg (by omega), haddress]
  change loadItem fillsOrLeaves wordId (file.length + 2)
    (Loading.readAt _ fillsOrLeaves first 16) = _
  rw [readAt_inside rfl rfl h.inside]

theorem Begins.loadItem_eq (fuel : ℕ) :
    loadItem fillsOrLeaves wordId fuel (recordAt file first) =
      if longIn file first = 0 then .ok []
      else loopAt file wordId fuel first >>= loadFound fillsOrLeaves := by
  have hfirst : longAt (recordAt file first).buffer 0 = .ok (longIn file first) :=
    longAt_record (i := 0) (by decide) h.inside
  rw [loadItem, hfirst, Exec.ok_bind]
  rfl

/-- `loadItemValue` returns, within any number of rounds, exactly if the first record is not used or
the links from it neither leave the file nor come back to a record. -/
theorem Begins.returns_iff :
    ((∃ fuel value, loadItem fillsOrLeaves wordId fuel (recordAt file first) = .ok value) ↔
      longIn file first = 0 ∨ Straight file wordId first) ∧
    ((∃ value, loadItemValue fillsOrLeaves file wordId = .ok value) ↔
      longIn file first = 0 ∨ Straight file wordId first) := by
  have honly : ∀ fuel value,
      loadItem fillsOrLeaves wordId fuel (recordAt file first) = .ok value →
        longIn file first = 0 ∨ Straight file wordId first := by
    intro fuel value hrun
    by_cases hunused : longIn file first = 0
    · exact .inl hunused
    · rw [h.loadItem_eq, if_neg hunused] at hrun
      obtain ⟨found, hloop, _⟩ := Exec.bind_eq_ok.mp hrun
      exact .inr (straight_of_returns h.inside hloop)
  have hreturns : longIn file first = 0 ∨ Straight file wordId first →
      ∃ value, loadItem fillsOrLeaves wordId (file.length + 2) (recordAt file first) =
        .ok value := by
    intro hcondition
    by_cases hunused : longIn file first = 0
    · exact ⟨[], by rw [h.loadItem_eq, if_pos hunused]⟩
    · obtain ⟨found, value, hloop, hvalue⟩ :=
        returns_of_straight h.inside (hcondition.resolve_left hunused)
      rw [h.loadItem_eq, if_neg hunused]
      exact ⟨value, Exec.bind_eq_ok.mpr ⟨found, hloop, hvalue⟩⟩
  rw [h.loadItemValue_eq]
  exact ⟨⟨fun ⟨fuel, value, hrun⟩ => honly fuel value hrun, fun hc => ⟨_, hreturns hc⟩⟩,
    fun ⟨value, hrun⟩ => honly _ value hrun, hreturns⟩

end begins

/-! ### A record that links to itself -/

/-- A section of one cell: its record has the id 5, and its link is 0, which leads to itself. -/
def selfLinked : WString :=
  [49, 32, 32, 32] ++ [5, 0, 0, 0] ++ [20, 0, 0, 0] ++ [0, 0, 0, 0] ++ [0, 0, 0, 0]

theorem selfLinked_begins {wordId : WString} (hhash : HashTable.hashFunction wordId 1 = 0) :
    Begins selfLinked wordId 4 where
  header := by decide
  size := ⟨1, by decide, le_refl 1, by rw [hhash]; decide⟩
  inside := by decide

theorem selfLinked_found : Begins selfLinked [53] 4 ∧
    ((∃ fuel value, loadItem fillsOrLeaves [53] fuel (recordAt selfLinked 4) = .ok value) ↔
      longIn selfLinked 4 = 0 ∨ Straight selfLinked [53] 4) ∧
    ((∃ value, loadItemValue fillsOrLeaves selfLinked [53] = .ok value) ↔
      longIn selfLinked 4 = 0 ∨ Straight selfLinked [53] 4) :=
  ⟨selfLinked_begins (by decide), (selfLinked_begins (by decide)).returns_iff⟩

theorem selfLinked_endless : ¬ ∀ (file wordId : WString) (first : ℕ), Begins file wordId first →
    ∃ fuel value, loadItem fillsOrLeaves wordId fuel (recordAt file first) = .ok value := by
  intro hclaim
  have hbegins : Begins selfLinked [55] 4 := selfLinked_begins (by decide)
  obtain ⟨fuel, value, hrun⟩ := hclaim selfLinked [55] 4 hbegins
  rw [hbegins.loadItem_eq, if_neg (by decide)] at hrun
  obtain ⟨found, hloop, _⟩ := Exec.bind_eq_ok.mp hrun
  have hself : nextRecord selfLinked [55] 4 = some 4 := by decide
  exact (straight_of_returns hbegins.inside hloop 4 .refl).2 (.single hself)

end InvertedIndex

end IndexServer
