import IndexServer.Section.Saved

/-!
# The records of a saved table as they are read

`loadItemValue` takes four `long long` values in a row for a record, where `saveTable` has written
one. What it finds as an id, an address, a size and a link are the marks of four successive records.
In a file of fewer than `2 ^ 48` units a mark that is neither zero nor all ones leads out of the
file.
-/

namespace IndexServer

open InvertedIndex

namespace HashTable

/-! ### Four equal units -/

/-- A position that no file of fewer than `2 ^ 48` units has. -/
def Far (x : Int) : Prop := x < 0 ∨ 2 ^ 48 ≤ x

theorem far_wrap64 {x : Int} (hx : 2 ^ 48 ≤ x % 2 ^ 64) : Far (wrap64 x) := by
  rw [Far, wrap64, Int.bmod_def]
  split <;> omega

/-- A number with four equal units is zero, or all ones, or far from zero, and so is the address of
the record that it links to. -/
theorem longOf_repeated (u : WChar) :
    longOf u u u u = 0 ∨ longOf u u u u = -1 ∨
      Far (longOf u u u u) ∧ Far (wrap64 ((longOf u u u u + 1) * 4)) := by
  have hlt : u.toNat < 2 ^ 16 := u.toNat_lt
  rw [longOf]
  generalize u.toNat = n at hlt
  by_cases hzero : n = 0
  · left
    rw [hzero]
    rfl
  by_cases hones : n = 65535
  · right; left
    rw [hones]
    rfl
  right; right
  generalize hx : (n + n * 2 ^ 16 + n * 2 ^ 32 + n * 2 ^ 48 : Int) = x
  obtain ⟨c, hc⟩ := exists_wrap64 x
  refine ⟨far_wrap64 ?_, far_wrap64 ?_⟩
  · rw [Int.emod_eq_of_lt (by omega) (by omega)]
    omega
  · -- the units of four times the number are sums of the quotient and the remainder of `4 * n`
    obtain ⟨q, t, hn, ht⟩ : ∃ q t : ℕ, 4 * n = 65536 * q + t ∧ t < 65536 :=
      ⟨4 * n / 65536, 4 * n % 65536, by omega, by omega⟩
    have hunits : (wrap64 x + 1) * 4 =
        (t + q) * (2 ^ 48 + 2 ^ 32 + 2 ^ 16) + t + 4 + 2 ^ 64 * (q + 4 * c) := by
      omega
    rw [hunits, Int.add_mul_emod_self_left, Int.emod_eq_of_lt (by omega) (by omega)]
    omega

/-! ### Records -/

section records

variable {T : HashTable} (hsize : T.size < 2 ^ 63)

theorem word_succ (T : HashTable) (i : ℕ) :
    T.word (i + 1) = 0 ∨ T.word (i + 1) = -1 ∨
      Far (T.word (i + 1)) ∧ Far (wrap64 ((T.word (i + 1) + 1) * 4)) := by
  rw [word]
  split
  · exact longOf_repeated _
  · exact .inl rfl

/-- The reader after it has read the record at `a`. -/
def window (T : HashTable) (a : ℕ) : Loading where
  stream := { file := T.saved, pos := 4 * a + 16, failed := false }
  buffer := (T.saved.drop (4 * a)).take 16

theorem readAt_window {a : ℕ} (ha : a + 3 ≤ T.stored.length) {s : Loading}
    (hfile : s.stream.file = T.saved) (hfailed : s.stream.failed = false) :
    s.readAt holdsDelivered ((4 * a : ℕ) : Int) 16 = T.window a := by
  have hlength : ((T.saved.drop (4 * a)).take 16).length = 16 := by
    rw [List.length_take, List.length_drop, length_saved]
    omega
  have hseek : s.stream.seekg ((4 * a : ℕ) : Int) =
      { file := T.saved, pos := 4 * a, failed := false } := by
    rw [WIfStream.seekg, hfailed, if_neg Bool.false_ne_true, if_neg (by omega), hfile]
    rfl
  rw [Loading.readAt, hseek, WIfStream.read, if_neg Bool.false_ne_true, window,
    show (16 : Int).toNat = 16 from rfl]
  simp only [hlength, holdsDelivered]
  rfl

theorem readAt_outside {s : Loading} {address count : Int}
    (haddress : address < 0 ∨ (s.stream.file.length : Int) ≤ address) :
    (s.readAt holdsDelivered address count).buffer = [] := by
  change ((s.stream.seekg address).read count).1 = []
  by_cases hfailed : s.stream.failed
  · rw [WIfStream.seekg, if_pos hfailed, WIfStream.read, if_pos hfailed]
  by_cases hneg : address < 0
  · rw [WIfStream.seekg, if_neg hfailed, if_pos hneg, WIfStream.read, if_pos rfl]
  have hend : s.stream.file.length ≤ address.toNat := by omega
  rw [WIfStream.seekg, if_neg hfailed, if_neg hneg, WIfStream.read, if_neg hfailed]
  dsimp only
  rw [List.drop_eq_nil_of_le hend, List.take_nil]

theorem loadLoop_found {k fuel a : ℕ} (hk : T.word a = k) :
    loadLoop holdsDelivered (toWString k) (fuel + 1) (T.window a) (T.word a) =
      .ok (some (T.window a)) := by
  rw [loadLoop, if_neg (not_not_intro (toWString_eq_iff.mpr hk.symm))]
  rfl

theorem readAt_nonpos {s : Loading} {address count : Int} (hcount : count ≤ 0) :
    (s.readAt holdsDelivered address count).buffer = [] := by
  change ((s.stream.seekg address).read count).1 = []
  rw [WIfStream.read]
  split
  · rfl
  · change List.take count.toNat _ = []
    rw [Int.toNat_of_nonpos hcount, List.take_zero]

def follow (T : HashTable) (a : ℕ) : Loading :=
  (T.window a).readAt holdsDelivered (wrap64 ((T.word (a + 3) + 1) * 4)) 16

include hsize

theorem longAt_buffer {a i : ℕ} (hi : i < 4) (ha : a + 3 ≤ T.stored.length) :
    longAt (T.window a).buffer i = .ok (T.word (a + i)) := longAt_window hsize hi (by omega)

theorem longAt_savedId {a : ℕ} (ha : a + 3 ≤ T.stored.length) :
    longAt (T.window a).buffer 0 = .ok (T.word a) := longAt_buffer hsize (by decide) ha

/-! ### The loop -/

variable {k : ℕ} {fuel a : ℕ} (ha : a + 3 ≤ T.stored.length)
include ha

theorem loadLoop_last (hk : T.word a ≠ k) (hlink : T.word (a + 3) = -1) :
    loadLoop holdsDelivered (toWString k) (fuel + 1) (T.window a) (T.word a) = .ok none := by
  rw [loadLoop, if_pos (mt toWString_eq_iff.mp (Ne.symm hk)),
    longAt_buffer hsize (by decide) ha, Exec.ok_bind, if_pos hlink]
  rfl

theorem loadLoop_link (hk : T.word a ≠ k) (hlink : T.word (a + 3) ≠ -1) :
    loadLoop holdsDelivered (toWString k) (fuel + 1) (T.window a) (T.word a) =
      longAt (T.follow a).buffer 0 >>=
        loadLoop holdsDelivered (toWString k) fuel (T.follow a) := by
  rw [loadLoop, if_pos (mt toWString_eq_iff.mp (Ne.symm hk)),
    longAt_buffer hsize (by decide) ha, Exec.ok_bind, if_neg hlink]
  rfl

theorem loadLoop_zero (hfour : 4 ≤ T.stored.length) (hk : T.word a ≠ k)
    (hlink : T.word (a + 3) = 0) :
    loadLoop holdsDelivered (toWString k) (fuel + 1) (T.window a) (T.word a) =
      loadLoop holdsDelivered (toWString k) fuel (T.window 1) (T.word 1) := by
  have hfirst : T.follow a = T.window 1 := by
    rw [follow, hlink]
    exact readAt_window (s := T.window a) hfour rfl rfl
  rw [loadLoop_link hsize ha hk (by omega), hfirst, longAt_savedId hsize hfour]
  rfl

theorem loadLoop_far (hfile : T.saved.length < 2 ^ 48) (hk : T.word a ≠ k)
    (hlink : T.word (a + 3) ≠ -1) (hzero : T.word (a + 3) ≠ 0) :
    loadLoop holdsDelivered (toWString k) (fuel + 1) (T.window a) (T.word a) =
      .error .outOfRange := by
  have hfar : Far (wrap64 ((T.word (a + 3) + 1) * 4)) :=
    (((T.word_succ (a + 2)).resolve_left hzero).resolve_left hlink).2
  have hempty : (T.follow a).buffer = [] := by
    refine readAt_outside (hfar.imp_right fun hle => ?_)
    change (T.saved.length : Int) ≤ _
    omega
  rw [loadLoop_link hsize ha hk hlink, hempty]
  rfl

end records

/-! ### The walk and its end -/

/-- The records that the walk for `k` from the one at `a` looks at: behind a link of zero stands the
first record. -/
inductive Visits (T : HashTable) (k a : ℕ) : ℕ → Prop
  | start : Visits T k a a
  | first (hused : T.word a ≠ 0) (hk : T.word a ≠ k) (hlink : T.word (a + 3) = 0) : Visits T k a 1

theorem Visits.bound {T : HashTable} {k a j : ℕ} (h : T.Visits k a j)
    (hfour : 4 ≤ T.stored.length) (ha : a + 3 ≤ T.stored.length) : j + 3 ≤ T.stored.length := by
  cases h with
  | start => exact ha
  | first => exact hfour

/-- The walk ends at the record at `j` with nothing found. -/
def Ends (T : HashTable) (k a j : ℕ) : Prop :=
  (j = a ∧ T.word a = 0) ∨ (T.word j ≠ k ∧ T.word (j + 3) = -1)

/-- The record at `j` delivers no text. -/
def Mute (T : HashTable) (j : ℕ) : Prop :=
  T.word (j + 1) < 0 ∨ T.word (j + 2) ≤ 0 ∨ (T.saved.length : Int) ≤ T.word (j + 1)

section walk

variable {T : HashTable} (hsize : T.size < 2 ^ 63) {k a j fuel : ℕ}

section item

variable (ha : a + 3 ≤ T.stored.length)
include hsize ha

theorem loadItem_unused (hused : T.word a = 0) :
    loadItem holdsDelivered (toWString k) fuel (T.window a) = .ok [] := by
  rw [loadItem, longAt_savedId hsize ha, Exec.ok_bind, if_pos hused]
  rfl

theorem loadItem_used (hused : T.word a ≠ 0) :
    loadItem holdsDelivered (toWString k) fuel (T.window a) =
      loadLoop holdsDelivered (toWString k) fuel (T.window a) (T.word a) >>=
        loadFound holdsDelivered := by
  rw [loadItem, longAt_savedId hsize ha, Exec.ok_bind, if_neg hused]

end item

variable (hfour : 4 ≤ T.stored.length)
include hsize hfour

/-- How the loop can end at a record, in a file of fewer than `2 ^ 48` units. -/
theorem loadLoop_cases (ha : a + 3 ≤ T.stored.length) (hfile : T.saved.length < 2 ^ 48)
    {found : Option Loading}
    (h : loadLoop holdsDelivered (toWString k) (fuel + 1) (T.window a) (T.word a) = .ok found) :
    (T.word a = k ∧ found = some (T.window a)) ∨
      (T.word a ≠ k ∧ T.word (a + 3) = -1 ∧ found = none) ∨
      (T.word a ≠ k ∧ T.word (a + 3) = 0 ∧
        loadLoop holdsDelivered (toWString k) fuel (T.window 1) (T.word 1) = .ok found) := by
  by_cases hk : T.word a = k
  · rw [loadLoop_found hk, Except.ok.injEq] at h
    exact .inl ⟨hk, h.symm⟩
  by_cases hlast : T.word (a + 3) = -1
  · rw [loadLoop_last hsize ha hk hlast, Except.ok.injEq] at h
    exact .inr (.inl ⟨hk, hlast, h.symm⟩)
  by_cases hzero : T.word (a + 3) = 0
  · rw [loadLoop_zero hsize ha hfour hk hzero] at h
    exact .inr (.inr ⟨hk, hzero, h⟩)
  · rw [loadLoop_far hsize ha hfile hk hlast hzero] at h
    cases h

theorem loadLoop_first_cases (hfile : T.saved.length < 2 ^ 48) {found : Option Loading}
    (h : loadLoop holdsDelivered (toWString k) fuel (T.window 1) (T.word 1) = .ok found) :
    (T.word 1 = k ∧ found = some (T.window 1)) ∨
      (T.word 1 ≠ k ∧ T.word 4 = -1 ∧ found = none) := by
  induction fuel with
  | zero => cases h
  | succ fuel ih =>
      rcases loadLoop_cases hsize hfour hfour hfile h with hfound | hlast | ⟨_, _, hloop⟩
      · exact .inl hfound
      · exact .inr hlast
      · exact ih hloop

variable (ha : a + 3 ≤ T.stored.length)
include ha

theorem loadItem_ends (hvisits : T.Visits k a j) (hends : T.Ends k a j) :
    loadItem holdsDelivered (toWString k) (fuel + 2) (T.window a) = .ok [] := by
  by_cases hused : T.word a = 0
  · exact loadItem_unused hsize ha hused
  · have hend : T.word j ≠ k ∧ T.word (j + 3) = -1 := hends.resolve_left fun h => hused h.2
    rw [loadItem_used hsize ha hused]
    cases hvisits with
    | start => rw [loadLoop_last hsize ha hend.1 hend.2, Exec.ok_bind, loadFound]
    | first _ hk hlink =>
        rw [loadLoop_zero hsize ha hfour hk hlink, loadLoop_last hsize hfour hend.1 hend.2,
          Exec.ok_bind, loadFound]

theorem loadItem_finds (hpos : 0 < k) (hvisits : T.Visits k a j) (hfound : T.word j = k) :
    loadItem holdsDelivered (toWString k) (fuel + 2) (T.window a) =
      loadValue holdsDelivered (T.window j) := by
  cases hvisits with
  | start =>
      rw [loadItem_used hsize ha (by omega), loadLoop_found hfound, Exec.ok_bind, loadFound]
  | first hused hk hlink =>
      rw [loadItem_used hsize ha hused, loadLoop_zero hsize ha hfour hk hlink,
        loadLoop_found hfound, Exec.ok_bind, loadFound]

/-- In a file of fewer than `2 ^ 48` units the walk returns in no other way. -/
theorem loadItem_cases (hfile : T.saved.length < 2 ^ 48) {value : List WString}
    (h : loadItem holdsDelivered (toWString k) (fuel + 1) (T.window a) = .ok value) :
    ∃ j, T.Visits k a j ∧ ((T.Ends k a j ∧ value = []) ∨
      (T.word j = k ∧ loadValue holdsDelivered (T.window j) = .ok value)) := by
  by_cases hused : T.word a = 0
  · rw [loadItem_unused hsize ha hused, Except.ok.injEq] at h
    exact ⟨a, .start, .inl ⟨.inl ⟨rfl, hused⟩, h.symm⟩⟩
  rw [loadItem_used hsize ha hused, Exec.bind_eq_ok] at h
  obtain ⟨found, hloop, hvalue⟩ := h
  rcases loadLoop_cases hsize hfour ha hfile hloop with
    ⟨hk, rfl⟩ | ⟨hk, hlast, rfl⟩ | ⟨hk, hzero, hloop⟩
  · exact ⟨a, .start, .inr ⟨hk, hvalue⟩⟩
  · cases hvalue
    exact ⟨a, .start, .inl ⟨.inr ⟨hk, hlast⟩, rfl⟩⟩
  · rcases loadLoop_first_cases hsize hfour hfile hloop with ⟨hk', rfl⟩ | ⟨hk', hlast, rfl⟩
    · exact ⟨1, .first hused hk hzero, .inr ⟨hk', hvalue⟩⟩
    · cases hvalue
      exact ⟨1, .first hused hk hzero, .inl ⟨.inr ⟨hk', hlast⟩, rfl⟩⟩

end walk

/-! ### The text of a record -/

section text

variable {T : HashTable} (hsize : T.size < 2 ^ 63) {j : ℕ} (hj : j + 3 ≤ T.stored.length)
include hsize hj

theorem loadValue_window :
    loadValue holdsDelivered (T.window j) =
      split ((T.window j).readAt holdsDelivered (T.word (j + 1)) (T.word (j + 2))).buffer
        delimiter := by
  rw [loadValue, longAt_buffer hsize (by decide) hj, Exec.ok_bind,
    longAt_buffer hsize (by decide) hj, Exec.ok_bind]

theorem loadValue_mute (hmute : T.Mute j) : loadValue holdsDelivered (T.window j) = .ok [[]] := by
  have hempty : ((T.window j).readAt holdsDelivered (T.word (j + 1)) (T.word (j + 2))).buffer =
      [] := by
    rcases hmute with hneg | hcount | hend
    · exact readAt_outside (.inl hneg)
    · exact readAt_nonpos hcount
    · exact readAt_outside (.inr hend)
  rw [loadValue_window hsize hj, hempty]
  rfl

/-- In a file of fewer than `2 ^ 48` units a record that is not mute delivers the whole file. -/
theorem loadValue_whole (hfile : T.saved.length < 2 ^ 48) (hmute : ¬ T.Mute j) :
    loadValue holdsDelivered (T.window j) = split T.saved delimiter := by
  rw [Mute, not_or, not_or, not_lt, not_le, not_le] at hmute
  obtain ⟨haddress, hcount, hend⟩ := hmute
  have hzero : T.word (j + 1) = 0 := by
    rcases T.word_succ j with h | h | ⟨h, _⟩
    · exact h
    · omega
    · rw [Far] at h
      omega
  have hlong : T.saved.length ≤ (T.word (j + 2)).toNat := by
    have hcases : T.word (j + 2) = 0 ∨ T.word (j + 2) = -1 ∨ Far (T.word (j + 2)) ∧ _ :=
      T.word_succ (j + 1)
    rcases hcases with h | h | ⟨h, _⟩
    · omega
    · omega
    · rw [Far] at h
      omega
  rw [loadValue_window hsize hj, hzero]
  change split ((T.saved.drop 0).take (T.word (j + 2)).toNat) delimiter = _
  rw [List.drop_zero, List.take_of_length_le hlong]

end text

end HashTable

end IndexServer
