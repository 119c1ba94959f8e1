import IndexServer.HashTable.Runs

/-!
# What a growth costs the count

A growth leaves `count` as it is and adds the deferred entries again, each of which may raise it. So
a growth can raise the count by as many as there were collision entries, and while it doubles the
limit of the load, the count need not stay below the new one. What bounds the growths is that the
collision entries do not become more by them: over a number of insertions the count rises linearly
with the growths, and the limit exponentially.
-/

namespace IndexServer

namespace HashTable

variable {T T' : HashTable}

/-! ### Entries that are deferred -/

theorem place_length {g g' : Growth} {newSize : ℕ} {item : HashItem}
    (hplace : g.place newSize item = .ok g') :
    g'.tmpColisions.length ≤ g.tmpColisions.length + 1 := by
  obtain ⟨currentItem, _, hplace⟩ := Exec.bind_eq_ok.mp hplace
  split at hplace
  · split at hplace
    · cases hplace
      exact (List.length_append).le
    · obtain ⟨newItemsVector, _, hplace⟩ := Exec.bind_eq_ok.mp hplace
      cases hplace
      exact Nat.le_succ _
  · obtain ⟨newItemsVector, _, hplace⟩ := Exec.bind_eq_ok.mp hplace
    cases hplace
    exact Nat.le_succ _

theorem growColisions_length {newSize : ℕ} {indices : List ℕ} {g g' : Growth}
    (hrun : T.growColisions newSize indices g = .ok g') :
    g'.tmpColisions.length ≤ g.tmpColisions.length + indices.length := by
  induction indices generalizing g with
  | nil =>
      cases hrun
      exact Nat.le_add_right _ _
  | cons i rest ih =>
      obtain ⟨item, _, hrun⟩ := Exec.bind_eq_ok.mp hrun
      obtain ⟨g₁, hplace, hrun⟩ := Exec.bind_eq_ok.mp hrun
      have hfirst := place_length hplace
      have hrest := ih hrun
      rw [List.length_cons]
      omega

theorem Sound.rehash_length (hT : T.Sound) (hsmall : 2 * T.size < maxCapacity)
    {T₁ : HashTable} {tmpColisions : List HashItem} (hrun : T.rehash = .ok (T₁, tmpColisions)) :
    tmpColisions.length ≤ T.colisions.length := by
  have hpos : 0 < 2 * T.size := Nat.mul_pos Nat.two_pos hT.size_pos
  have husable : ∀ key, Usable T.size key → Usable (2 * T.size) key :=
    fun key hkey => hkey.double hsmall
  have hindices : ∀ i ∈ List.range T.size, i < T.items.length := by
    intro i hi
    rw [hT.items_length]
    exact List.mem_range.mp hi
  -- the first loop places cells without values, and defers none of them
  obtain ⟨g, hgrow, _, hblank⟩ := growItems_rule hT hpos husable
    (P := Blank (2 * T.size) False)
    (fun g item g' hg hkey _ hvalue hresult => hresult.blank hg hkey hvalue fun h => h.elim)
    hindices (List.length_replicate : (createNewVector (2 * T.size)).length = 2 * T.size)
    (blank_createNewVector _ _)
  simp only [rehash, hgrow, Exec.ok_bind] at hrun
  obtain ⟨g', hcolisions, hrun⟩ := Exec.bind_eq_ok.mp hrun
  rw [if_neg (not_not_intro hT.idle)] at hrun
  cases hrun
  have hlength := growColisions_length hcolisions
  rwa [hblank.tmpColisions, List.length_nil, Nat.zero_add, List.length_range] at hlength

/-! ### Counts -/

theorem AddResult.raises {key : WString} {value : List WString} {code : ℕ}
    (h : AddResult T key value T' code) :
    T'.count ≤ T.count + 1 ∧ T'.colisions.length ≤ T.colisions.length + 1 := by
  cases h <;> simp [write]

theorem Sound.readd_raises {tmpColisions : List HashItem} (hT : T.Sound)
    (hrun : T.readd tmpColisions = .ok T') :
    T'.count ≤ T.count + tmpColisions.length ∧
      T'.colisions.length ≤ T.colisions.length + tmpColisions.length := by
  induction tmpColisions generalizing T with
  | nil =>
      cases hrun
      exact ⟨le_rfl, le_rfl⟩
  | cons hi rest ih =>
      obtain ⟨⟨T₁, code⟩, hadd, hrun⟩ := Exec.bind_eq_ok.mp hrun
      obtain ⟨husable, hresult⟩ := hT.add_eq_ok hadd
      have hfirst := hresult.raises
      have hrest := ih (hresult.sound hT husable) hrun
      rw [List.length_cons]
      omega

/-- A growth doubles the size, adds to the count the collision entries at most, and does not make
these more. -/
theorem Sound.increaseTable_raises (hT : T.Sound) (hgrow : T.increaseTable = .ok (T', 0)) :
    T'.size = 2 * T.size ∧ T'.count ≤ T.count + T.colisions.length ∧
      T'.colisions.length ≤ T.colisions.length := by
  rcases hT.increaseTable_cases with
    ⟨_, hsame⟩ | ⟨T₁, tmpColisions, T₂, hsmall, hrun, hreadd, _, hsize, hnew⟩
  · rw [hsame] at hgrow
    cases hgrow
  · rw [hnew] at hgrow
    cases hgrow
    have hspec := hT.rehashed hsmall hrun joins_true fun _ _ => trivial
    have hdeferred := hT.rehash_length hsmall hrun
    have hraised := hspec.sound.readd_raises hreadd
    rw [hspec.count, hspec.colisions, List.length_nil] at hraised
    exact ⟨hsize, by omega, by omega⟩

/-! ### Growths that are paid for -/

/-- A table of 20 cells at first that has grown `k` times over `adds` insertions, each time at the
limit of its load. -/
structure Paid (adds k : ℕ) (T : HashTable) : Prop where
  sound : T.Sound
  size_eq : T.size = 20 * 2 ^ k
  colisions : T.colisions.length ≤ adds
  count : T.count ≤ (k + 1) * adds
  growths : ∀ j < k, 15 * 2 ^ j ≤ (j + 1) * adds

namespace Paid

variable {adds k : ℕ}

theorem new : (HashTable.new 20).Paid 0 0 where
  sound := new_sound (by decide)
  size_eq := rfl
  colisions := le_rfl
  count := le_rfl
  growths j hj := absurd hj (Nat.not_lt_zero j)

theorem mono (h : T.Paid adds k) {more : ℕ} (hle : adds ≤ more) : T.Paid more k where
  sound := h.sound
  size_eq := h.size_eq
  colisions := h.colisions.trans hle
  count := h.count.trans (Nat.mul_le_mul_left _ hle)
  growths j hj := (h.growths j hj).trans (Nat.mul_le_mul_left _ hle)

theorem loadLimit_eq (h : T.Paid adds k) : T.loadLimit = 15 * 2 ^ k := by
  rw [loadLimit, h.size_eq]
  omega

theorem add (h : T.Paid adds k) {key : WString} {value : List WString} {code : ℕ}
    (husable : Usable T.size key) (hresult : AddResult T key value T' code) :
    T'.Paid (adds + 1) k := by
  obtain ⟨hcount, hcolisions⟩ := hresult.raises
  have hmore := h.mono (Nat.le_succ adds)
  refine ⟨hresult.sound h.sound husable, hresult.size_eq.trans h.size_eq, ?_, ?_, hmore.growths⟩
  · exact hcolisions.trans (Nat.succ_le_succ h.colisions)
  · calc T'.count ≤ T.count + 1 := hcount
      _ ≤ (k + 1) * adds + 1 := Nat.succ_le_succ h.count
      _ ≤ (k + 1) * (adds + 1) := by
          rw [Nat.mul_succ]
          omega

/-- At the limit of the load the count pays for the growth. -/
theorem increaseTable (h : T.Paid adds k) (hload : T.loadLimit ≤ T.count)
    (hgrow : T.increaseTable = .ok (T', 0)) : T'.Paid adds (k + 1) := by
  obtain ⟨hsize, hcount, hcolisions⟩ := h.sound.increaseTable_raises hgrow
  have hsound := (h.sound.increaseTable_entries joins_true (fun _ _ => trivial) hgrow).1
  have hold := h.colisions
  refine ⟨hsound, ?_, hcolisions.trans hold, ?_, ?_⟩
  · rw [hsize, h.size_eq, pow_succ]
    omega
  · calc T'.count ≤ T.count + T.colisions.length := hcount
      _ ≤ (k + 1) * adds + adds := Nat.add_le_add h.count hold
      _ = (k + 1 + 1) * adds := (Nat.succ_mul _ _).symm
  · intro j hj
    rcases Nat.lt_succ_iff_lt_or_eq.mp hj with hlt | rfl
    · exact h.growths j hlt
    · rw [← h.loadLimit_eq]
      exact hload.trans h.count

end Paid

end HashTable

end IndexServer
