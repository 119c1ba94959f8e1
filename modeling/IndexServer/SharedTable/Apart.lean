import IndexServer.HashTable.Add
import IndexServer.SharedTable.WaitFree

/-!
# Insertions into different cells

Calls that run at once on a table that does not grow, where no two calls of `add` have keys of one
cell. What a call has read of its cell then still holds when it writes, and it writes the cell in
one section. So the steps of a call follow what `add` does alone from the table as it was at first,
up to where its entry lies in `colisions` and to the counters.
-/

namespace IndexServer

open HashTable (itemsSizeOnItemsMutexRatio maxCapacity getItemCapacity hashFunction newItem home
  hashFunction_eq_home Usable charge AddResult)

namespace HashTable

variable {T T' S : HashTable} {key : WString} {value : List WString}

/-! ### What one insertion makes of its cell -/

theorem AddResult.unique {T₁ T₂ : HashTable} {code₁ code₂ : ℕ}
    (h₁ : AddResult T key value T₁ code₁) (h₂ : AddResult T key value T₂ code₂) :
    T₁ = T₂ ∧ code₁ = code₂ := by
  cases h₁ <;> cases h₂ <;> grind

theorem Sound.add_eq (hT : T.Sound) (hkey : Usable T.size key) {code : ℕ}
    (h : AddResult T key value T' code) : T.add key value = .ok (T', code) := by
  obtain ⟨T₁, code₁, hadd, hresult⟩ := hT.add_result hkey value
  obtain ⟨rfl, rfl⟩ := h.unique hresult
  exact hadd

/-- The insertion replaces its cell and stores no entry. -/
def Rewrites (T : HashTable) (key : WString) (value : List WString) (cell : HashItem) : Prop :=
  ∃ count currentCapacity,
    T.add key value = .ok (T.write (home T.size key) cell [] count currentCapacity, 0)

/-- The insertion stores an entry and links it behind the head. -/
def Appends (T : HashTable) (key : WString) (value : List WString) (head : HashItem) : Prop :=
  head.value ≠ [] ∧ ∃ count currentCapacity, T.add key value =
    .ok (T.write (home T.size key) { head with next := T.colisions.length } [newItem key value]
      count currentCapacity, 0)

structure Collides (T : HashTable) (key : WString) (value : List WString) (head : HashItem) :
    Prop where
  fits : T.Fits key value
  cell : T.items[home T.size key]? = some head
  value : head.value ≠ []
  key : head.key ≠ key

/-- A lookup in the cell of the key finds what it finds behind the insertion alone. -/
def Shows (T : HashTable) (key : WString) (value : List WString) (S : HashTable) : Prop :=
  ∃ T', T.add key value = .ok (T', 0) ∧
    ∀ k, (S.slot (home T.size key)).find k = (T'.slot (home T.size key)).find k

theorem Sound.slot_eq (hT : T.Sound) {i : ℕ} (hcell : S.items[i]? = T.items[i]?)
    (hcolisions : T.colisions <+: S.colisions) : S.slot i = T.slot i := by
  cases hitem : T.items[i]? with
  | none => rw [slot, slot, hcell, hitem]
  | some cell =>
      rw [hitem] at hcell
      rcases hT.cell_cases hitem with ⟨hvalue, hslot⟩ | ⟨hvalue, hnext, hslot⟩ |
        ⟨j, entry, hvalue, hnext, hentry, hslot⟩
      · rw [hslot, slot_eq_vacant hcell hvalue]
      · rw [hslot, slot_eq_single hcell hvalue hnext]
      · rw [hslot, slot_eq_linked hcell hvalue hnext (getElem?_longer hcolisions hentry)]

theorem Rewrites.shows (hT : T.Sound) {cell : HashItem} (h : T.Rewrites key value cell)
    (hcell : S.items[home T.size key]? = some cell) (hcolisions : T.colisions <+: S.colisions) :
    T.Shows key value S := by
  obtain ⟨count, currentCapacity, hadd⟩ := h
  obtain ⟨husable, hresult⟩ := hT.add_eq_ok hadd
  have hsound := hresult.sound hT husable
  refine ⟨_, hadd, fun k => congrArg (Slot.find k) (hsound.slot_eq ?_ ?_)⟩
  · rw [hcell, write_getElem?_self (hT.home_lt key)]
  · rw [write, List.append_nil]
    exact hcolisions

theorem Appends.shows (hT : T.Sound) {head : HashItem} (h : T.Appends key value head) {n : ℕ}
    (hcell : S.items[home T.size key]? = some { head with next := n })
    (hentry : S.colisions[n]? = some (newItem key value)) : T.Shows key value S := by
  obtain ⟨hvalue, count, currentCapacity, hadd⟩ := h
  have hlast : (T.colisions ++ [newItem key value])[T.colisions.length]? =
      some (newItem key value) := List.getElem?_concat_length
  have hslot : (T.write (home T.size key) { head with next := T.colisions.length }
      [newItem key value] count currentCapacity).slot (home T.size key) =
        .linked { head with next := T.colisions.length } (newItem key value) :=
    slot_eq_linked (write_getElem?_self (hT.home_lt key)) hvalue rfl hlast
  refine ⟨_, hadd, fun k => ?_⟩
  rw [slot_eq_linked hcell hvalue rfl hentry, hslot]
  rfl

/-! ### Sound tables between the sections -/

theorem Sound.charge (hT : T.Sound) (count currentCapacity : ℕ) :
    HashTable.Sound { T with count, currentCapacity } :=
  ⟨hT.size_pos, hT.items_length, hT.locks, hT.idle, hT.cell_usable, hT.cell_home, hT.cell_next,
    hT.entry_usable, hT.entry_next⟩

theorem Sound.set (hT : T.Sound) {i : ℕ} {cell : HashItem} (husable : Usable T.size cell.key)
    (hhome : cell.value ≠ [] → home T.size cell.key = i)
    (hnext : cell.value ≠ [] → cell.next = -1 ∨ ∃ (j : ℕ) (entry : HashItem),
      cell.next = (j : Int) ∧ T.colisions[j]? = some entry ∧ home T.size entry.key = i ∧
        entry.key ≠ cell.key) :
    HashTable.Sound { T with items := T.items.set i cell } := by
  rw [← List.append_nil T.colisions] at hnext
  have hwritten : (T.write i cell [] T.count T.currentCapacity).Sound :=
    hT.write husable hhome hnext fun _ h => absurd h List.not_mem_nil
  rw [write_nil] at hwritten
  exact hwritten

theorem Sound.set_value (hT : T.Sound) {i : ℕ} {head : HashItem} (hcell : T.items[i]? = some head)
    (hvalue : head.value ≠ []) (v : List WString) :
    HashTable.Sound { T with items := T.items.set i { head with value := v } } :=
  hT.set (hT.cell_usable i head hcell) (fun _ => hT.cell_home i head hcell hvalue)
    fun _ => hT.cell_next i head hcell hvalue

theorem Sound.push (hT : T.Sound) (hkey : Usable T.size key) :
    HashTable.Sound { T with colisions := T.colisions ++ [newItem key value] } where
  size_pos := hT.size_pos
  items_length := hT.items_length
  locks := hT.locks
  idle := hT.idle
  cell_usable := hT.cell_usable
  cell_home := hT.cell_home
  cell_next i cell hcell hvalue := by
    rcases hT.cell_next i cell hcell hvalue with hend | ⟨j, entry, hj, hentry, hhome⟩
    · exact .inl hend
    · exact .inr ⟨j, entry, hj, getElem?_longer (List.prefix_append _ _) hentry, hhome⟩
  entry_usable entry hentry := by
    rcases List.mem_append.mp hentry with hold | hnew
    · exact hT.entry_usable entry hold
    · rw [List.mem_singleton.mp hnew]
      exact hkey
  entry_next entry hentry := by
    rcases List.mem_append.mp hentry with hold | hnew
    · exact hT.entry_next entry hold
    · rw [List.mem_singleton.mp hnew]
      rfl

end HashTable

/-! ### What a call has read -/

/-- What a call of `add` is about to do at the section is what it does alone. -/
def Access.Traces (T S : HashTable) (key : WString) (value : List WString) : Access → Prop
  | .find item => item = newItem key value
  | .place item => item = newItem key value ∧ T.Rewrites key value item
  | .extend item currentItem =>
      item = newItem key value ∧ T.items[home T.size key]? = some currentItem ∧
        currentItem.value ≠ [] ∧
        T.Rewrites key value { currentItem with value := currentItem.value ++ value }
  | .collide item => item = newItem key value ∧ ∃ head, T.Collides key value head
  | .merge item currentItem =>
      item = newItem key value ∧ ∃ head, T.Collides key value head ∧
        T.Rewrites key value { head with value := currentItem.value ++ value }
  | .link item colisionSize =>
      item = newItem key value ∧ (∃ head, T.Collides key value head ∧ T.Appends key value head) ∧
        ∃ n, colisionSize = n + 1 ∧ S.colisions[n]? = some item
  | .look _ => False

/-- A call of `add` has read what the cell of its key held at first, and what it has written is what
it writes alone. -/
def Caller.Traces (T S : HashTable) (key : WString) (value : List WString) : Caller → Prop
  | .sizing access => access = .find (newItem key value)
  | .locating access index | .capping access index | .accessing access index _ =>
      index = home T.size key ∧ access.Traces T S key value
  | .testing item index _ currentItem =>
      item = newItem key value ∧ index = home T.size key ∧
        T.items[home T.size key]? = some currentItem
  | .weighing item index _ =>
      item = newItem key value ∧ index = home T.size key ∧ T.Fits key value ∧
        ∃ cell, T.items[home T.size key]? = some cell ∧ cell.value = []
  | .limiting item index _ count =>
      item = newItem key value ∧ index = home T.size key ∧ T.Fits key value ∧
        (∃ cell, T.items[home T.size key]? = some cell ∧ cell.value = []) ∧ T.count ≤ count
  | .following item index next =>
      item = newItem key value ∧ index = home T.size key ∧ ∃ head, T.Collides key value head ∧
        head.next = next ∧ next ≠ -1
  | .counting item index currentItem | .paying item index currentItem =>
      item = newItem key value ∧ index = home T.size key ∧ ∃ head, T.Collides key value head ∧
        ∃ j : ℕ, head.next = j ∧ T.colisions[j]? = some currentItem
  | .pushing item index =>
      item = newItem key value ∧ index = home T.size key ∧
        ∃ head, T.Collides key value head ∧ T.Appends key value head
  | .tallying item | .charging item =>
      item = newItem key value ∧ T.Shows key value S
  | .tallied item count => item = newItem key value ∧ T.Shows key value S ∧ T.count ≤ count
  | .charged item currentCapacity =>
      item = newItem key value ∧ T.Shows key value S ∧ T.currentCapacity ≤ currentCapacity
  | .crediting item => item = newItem key value ∧ T.Shows key value S
  | .returned code => code = 0 → T.Shows key value S
  | .idle | .looking _ _ | .got _ => False

/-- A lookup finds what the table offers at first, or behind one of the insertions alone. -/
def Seen {ι : Type} (T : HashTable) (requests : ι → Request) (key : WString)
    (found : List WString) : Prop :=
  T.get key = .ok found ∨ ∃ c k value T', requests c = .add k value ∧
    home T.size k = home T.size key ∧ T.add k value = .ok (T', 0) ∧ T'.get key = .ok found

/-- What a call of `get` has read is part of such a lookup. -/
def Caller.Sees {ι : Type} (T S : HashTable) (requests : ι → Request) (key : WString) :
    Caller → Prop
  | .sizing access => access = .look key
  | .locating access index | .capping access index | .accessing access index _ =>
      access = .look key ∧ index = home T.size key
  | .looking k next =>
      k = key ∧ ∃ entry, vectorGet S.colisions next = .ok entry ∧ entry.next = -1 ∧
        Seen T requests key (if key = entry.key then entry.value else [])
  | .got found => Seen T requests key found
  | _ => False

/-! ### The steps of an insertion -/

/-- What the steps of all calls keep of the first table. -/
structure Follows (T S : HashTable) : Prop where
  sound : S.Sound
  size : S.size = T.size
  colisions : T.colisions <+: S.colisions
  count : T.count ≤ S.count
  currentCapacity : T.currentCapacity ≤ S.currentCapacity

variable {T S S' : HashTable} {key : WString} {value : List WString} {p q : Caller}

/-- What a step of an insertion does: the other cells stay, and its own one as long as the insertion
has not happened. -/
structure Advances (T S S' : HashTable) (key : WString) (value : List WString) (q : Caller) :
    Prop where
  follows : Follows T S'
  more : S.colisions <+: S'.colisions
  others : ∀ m, m ≠ home T.size key → S'.items[m]? = S.items[m]?
  traces : q.Traces T S' key value
  own : q.stored = false → S'.items[home T.size key]? = T.items[home T.size key]?

theorem Follows.reads (hS : Follows T S) (hq : q.Traces T S key value)
    (hown : S.items[home T.size key]? = T.items[home T.size key]?) :
    Advances T S S key value q :=
  ⟨hS, List.prefix_refl _, fun _ _ => rfl, hq, fun _ => hown⟩

theorem Follows.counts (hS : Follows T S) {count currentCapacity : ℕ} (hcount : T.count ≤ count)
    (hcapacity : T.currentCapacity ≤ currentCapacity)
    (hq : q.Traces T { S with count, currentCapacity } key value)
    (hown : q.stored = false → S.items[home T.size key]? = T.items[home T.size key]?) :
    Advances T S { S with count, currentCapacity } key value q :=
  ⟨⟨hS.sound.charge _ _, hS.size, hS.colisions, hcount, hcapacity⟩, List.prefix_refl _,
    fun _ _ => rfl, hq, hown⟩

theorem Follows.writes (hS : Follows T S) {cell : HashItem}
    (hsound : HashTable.Sound { S with items := S.items.set (home T.size key) cell })
    (hq : q.Traces T { S with items := S.items.set (home T.size key) cell } key value)
    (hstored : q.stored = true) :
    Advances T S { S with items := S.items.set (home T.size key) cell } key value q :=
  ⟨⟨hsound, hS.size, hS.colisions, hS.count, hS.currentCapacity⟩, List.prefix_refl _,
    fun _ hm => List.getElem?_set_ne (Ne.symm hm), hq,
    fun h => absurd (h.symm.trans hstored) Bool.false_ne_true⟩

section moves

variable (hT : T.Sound) (hkey : Usable T.size key) (hS : Follows T S)
include hT hkey hS

theorem walk_traces {head currentItem : HashItem} (hhead : T.Collides key value head)
    (hown : S.items[home T.size key]? = T.items[home T.size key]?)
    (hcurrent : currentItem = head ∨
      ∃ j : ℕ, head.next = j ∧ T.colisions[j]? = some currentItem) :
    Advances T S S key value (.walk (newItem key value) (home T.size key) currentItem) := by
  refine hS.reads ?_ hown
  rw [Caller.walk]
  split
  case isTrue hsame =>
    rcases hcurrent with rfl | ⟨j, hnext, hentry⟩
    · exact absurd hsame hhead.key
    · have hresult :=
        AddResult.merged hhead.fits hhead.cell hhead.value hhead.key hnext hentry hsame
      exact ⟨rfl, rfl, head, hhead, _, _, hT.add_eq hkey hresult⟩
  case isFalse hother =>
    split
    case isTrue hlast =>
      refine ⟨rfl, rfl, head, hhead, hhead.value, ?_⟩
      rcases hcurrent with rfl | ⟨j, hnext, hentry⟩
      · have hresult := AddResult.pushed hhead.fits hhead.cell hhead.value hhead.key hlast
        exact ⟨_, _, hT.add_eq hkey hresult⟩
      · have hresult := AddResult.relinked hhead.fits hhead.cell hhead.value hhead.key hnext hentry
          hother
        exact ⟨_, _, hT.add_eq hkey hresult⟩
    case isFalse hmore =>
      rcases hcurrent with rfl | ⟨j, _, hentry⟩
      · exact ⟨rfl, rfl, currentItem, hhead, rfl, hmore⟩
      · exact absurd (hT.entry_next currentItem (List.mem_of_getElem? hentry)) hmore

theorem Access.Traces.perform {access : Access} {mutexIndex : Int}
    (h : access.Traces T S key value)
    (hown : S.items[home T.size key]? = T.items[home T.size key]?)
    (hrun : access.perform S (home T.size key) mutexIndex = .ok (S', q)) :
    Advances T S S' key value q := by
  have hlt : home T.size key < S.items.length := by
    have hlt := hT.home_lt key
    rw [hT.items_length] at hlt
    rw [hS.sound.items_length, hS.size]
    exact hlt
  have hself : ∀ cell : HashItem,
      (S.items.set (home T.size key) cell)[home T.size key]? = some cell :=
    fun cell => List.getElem?_set_self hlt
  have husable : Usable S.size key := hS.size ▸ hkey
  cases access with
  | find item =>
      subst h
      obtain ⟨cell, hread, hrun⟩ := Exec.bind_eq_ok.mp hrun
      cases hrun
      have hcell := vectorGet_natCast_eq_ok.mp (HashTable.readCellAt_eq_ok.mp hread).2
      exact hS.reads ⟨rfl, rfl, hown ▸ hcell⟩ hown
  | place item =>
      obtain ⟨rfl, hrewrites⟩ := h
      obtain ⟨S₁, hmodify, hrun⟩ := Exec.bind_eq_ok.mp hrun
      cases hrun
      obtain ⟨_, n, cell, hn, _, rfl⟩ := HashTable.modifyCellAt_eq_ok hmodify
      cases Int.ofNat_inj.mp hn
      have hsound : HashTable.Sound { S with
          items := S.items.set (home T.size key) (newItem key value) } :=
        hS.sound.set husable (fun _ => congrArg (home · key) hS.size) fun _ => .inl rfl
      exact hS.writes hsound ⟨rfl, hrewrites.shows hT (hself _) hS.colisions⟩ rfl
  | extend item currentItem =>
      obtain ⟨rfl, hcell, hvalue, hrewrites⟩ := h
      obtain ⟨S₁, hmodify, hrun⟩ := Exec.bind_eq_ok.mp hrun
      cases hrun
      obtain ⟨_, n, cell, hn, hfound, rfl⟩ := HashTable.modifyCellAt_eq_ok hmodify
      cases Int.ofNat_inj.mp hn
      cases hfound.symm.trans (hown.trans hcell)
      have hsound := hS.sound.set_value hfound hvalue (currentItem.value ++ value)
      exact hS.writes hsound ⟨rfl, hrewrites.shows hT (hself _) hS.colisions⟩ rfl
  | collide item =>
      obtain ⟨rfl, head, hhead⟩ := h
      obtain ⟨cell, hread, hrun⟩ := Exec.bind_eq_ok.mp hrun
      cases hrun
      have hcell := vectorGet_natCast_eq_ok.mp (HashTable.readCellAt_eq_ok.mp hread).2
      cases hcell.symm.trans (hown.trans hhead.cell)
      exact walk_traces hT hkey hS hhead hown (.inl rfl)
  | merge item currentItem =>
      obtain ⟨rfl, head, hhead, hrewrites⟩ := h
      obtain ⟨S₁, hmodify, hrun⟩ := Exec.bind_eq_ok.mp hrun
      cases hrun
      obtain ⟨_, n, cell, hn, hfound, rfl⟩ := HashTable.modifyCellAt_eq_ok hmodify
      cases Int.ofNat_inj.mp hn
      cases hfound.symm.trans (hown.trans hhead.cell)
      have hsound := hS.sound.set_value hfound hhead.value (currentItem.value ++ value)
      exact hS.writes hsound ⟨rfl, hrewrites.shows hT (hself _) hS.colisions⟩ rfl
  | link item colisionSize =>
      obtain ⟨rfl, ⟨head, hhead, happends⟩, n, rfl, hentry⟩ := h
      obtain ⟨S₁, hmodify, hrun⟩ := Exec.bind_eq_ok.mp hrun
      cases hrun
      obtain ⟨_, m, cell, hm, hfound, rfl⟩ := HashTable.modifyCellAt_eq_ok hmodify
      cases Int.ofNat_inj.mp hm
      cases hfound.symm.trans (hown.trans hhead.cell)
      have hlast : ((n + 1 : ℕ) : Int) - 1 = n := by omega
      rw [hlast]
      have hlink : ∃ (j : ℕ) (entry : HashItem), (n : Int) = j ∧ S.colisions[j]? = some entry ∧
          home S.size entry.key = home T.size key ∧ entry.key ≠ head.key :=
        ⟨n, newItem key value, rfl, hentry, congrArg (home · key) hS.size, hhead.key.symm⟩
      have hsound : HashTable.Sound { S with
          items := S.items.set (home T.size key) { head with next := n } } :=
        hS.sound.set (hS.sound.cell_usable _ head hfound)
          (fun _ => hS.sound.cell_home _ head hfound hhead.value) fun _ => .inr hlink
      exact hS.writes hsound (fun _ => happends.shows hT (hself _) hentry) rfl
  | look => exact h.elim

theorem Caller.Traces.move (h : p.Traces T S key value)
    (hown : p.stored = false → S.items[home T.size key]? = T.items[home T.size key]?)
    (hmove : p.move S = some (S', q)) : Advances T S S' key value q := by
  have husable : Usable S.size key := hS.size ▸ hkey
  cases p with
  | idle | looking | got => exact h.elim
  | returned => cases hmove
  | sizing access =>
      cases h
      cases hmove
      refine hS.reads ⟨?_, rfl⟩ (hown rfl)
      rw [← hS.size]
      exact hashFunction_eq_home husable
  | locating access index =>
      cases hmove
      refine hS.reads ?_ (hown rfl)
      split
      · exact h
      · exact h
  | capping access index =>
      cases hmove
      exact hS.reads h (hown rfl)
  | accessing access index mutexIndex =>
      obtain ⟨rfl, haccess⟩ := h
      exact haccess.perform hT hkey hS (hown rfl) (Exec.toOption_eq_some.mp hmove)
  | testing item index mutexIndex currentItem =>
      obtain ⟨rfl, rfl, hcell⟩ := h
      cases hmove
      refine hS.reads ?_ (hown rfl)
      split
      · exact fun hcode => absurd hcode (by decide)
      · rename_i hroom
        have hfits : T.Fits key value :=
          (Nat.add_le_add_right hS.currentCapacity _).trans_lt (Nat.not_le.mp hroom)
        split
        · rename_i hvacant
          exact ⟨rfl, rfl, hfits, currentItem, hcell, List.length_eq_zero_iff.mp hvacant⟩
        · rename_i hvalue
          have hvalue : currentItem.value ≠ [] := mt List.length_eq_zero_iff.mpr hvalue
          split
          · rename_i hsame
            have hresult := AddResult.extended hfits hcell hvalue hsame.symm
            exact ⟨rfl, rfl, hcell, hvalue, _, _, hT.add_eq hkey hresult⟩
          · rename_i hother
            exact ⟨rfl, rfl, currentItem, hfits, hcell, hvalue, Ne.symm hother⟩
  | weighing item index mutexIndex =>
      obtain ⟨rfl, rfl, hfits, hvacant⟩ := h
      cases hmove
      exact hS.reads ⟨rfl, rfl, hfits, hvacant, hS.count⟩ (hown rfl)
  | limiting item index mutexIndex count =>
      obtain ⟨rfl, rfl, hfits, ⟨cell, hcell, hvacant⟩, hcount⟩ := h
      cases hmove
      refine hS.reads ?_ (hown rfl)
      split
      · exact fun hcode => absurd hcode (by decide)
      · rename_i hbelow
        have hlimit : S.loadLimit = T.loadLimit := by
          rw [HashTable.loadLimit, HashTable.loadLimit, hS.size]
        have hload : T.count < T.loadLimit :=
          hcount.trans_lt (hlimit ▸ Nat.not_le.mp hbelow)
        exact ⟨rfl, rfl, _, _, hT.add_eq hkey (.placed hfits hcell hvacant hload)⟩
  | tallying item =>
      cases hmove
      exact hS.counts hS.count hS.currentCapacity ⟨h.1, h.2, hS.count⟩ fun h => nomatch h
  | tallied item count =>
      cases hmove
      exact hS.counts (h.2.2.trans (Nat.le_succ _)) hS.currentCapacity ⟨h.1, h.2.1⟩
        fun h => nomatch h
  | charging item =>
      cases hmove
      exact hS.counts hS.count hS.currentCapacity ⟨h.1, h.2, hS.currentCapacity⟩
        fun h => nomatch h
  | charged item currentCapacity =>
      cases hmove
      exact hS.counts hS.count (h.2.2.trans (Nat.le_add_right _ _)) (fun _ => h.2.1)
        fun h => nomatch h
  | following item index next =>
      obtain ⟨rfl, rfl, head, hhead, hnext, hmore⟩ := h
      obtain ⟨currentItem, hfound, hresult⟩ := Option.map_eq_some_iff.mp hmove
      cases hresult
      refine hS.reads ⟨rfl, rfl, head, hhead, ?_⟩ (hown rfl)
      rcases hT.cell_next _ head hhead.cell hhead.value with hlast | ⟨j, entry, hj, hentry, _⟩
      · exact absurd (hnext.symm.trans hlast) hmore
      · -- the entries of the first table are still there
        rw [← hnext, hj] at hfound
        have hread := vectorGet_natCast_eq_ok.mp (Exec.toOption_eq_some.mp hfound)
        cases hread.symm.trans (getElem?_longer hS.colisions hentry)
        exact ⟨j, hj, hentry⟩
  | counting item index currentItem =>
      cases hmove
      exact hS.counts (hS.count.trans (Nat.le_succ _)) hS.currentCapacity h fun _ => hown rfl
  | paying item index currentItem =>
      obtain ⟨rfl, rfl, head, hhead, hentry⟩ := h
      cases hmove
      have hcapacity : T.currentCapacity ≤
          S.currentCapacity + getItemCapacity (newItem key value) :=
        hS.currentCapacity.trans (Nat.le_add_right _ _)
      have hnow : Follows T { S with
          currentCapacity := S.currentCapacity + getItemCapacity (newItem key value) } :=
        ⟨hS.sound.charge _ _, hS.size, hS.colisions, hS.count, hcapacity⟩
      have hwalk := walk_traces hT hkey hnow hhead (hown rfl) (.inr hentry)
      exact hS.counts hS.count hcapacity hwalk.traces fun _ => hown rfl
  | pushing item index =>
      obtain ⟨rfl, rfl, hhead⟩ := h
      cases hmove
      have hfirst := hS.colisions.trans (List.prefix_append S.colisions [newItem key value])
      refine ⟨⟨hS.sound.push husable, hS.size, hfirst, hS.count, hS.currentCapacity⟩,
        List.prefix_append _ _, fun _ _ => rfl, ⟨rfl, rfl, hhead, S.colisions.length, rfl, ?_⟩,
        fun _ => hown rfl⟩
      exact List.getElem?_concat_length
  | crediting item =>
      cases hmove
      exact hS.counts hS.count (hS.currentCapacity.trans (Nat.le_add_right _ _)) (fun _ => h.2)
        fun h => nomatch h

end moves

theorem Caller.Traces.shows (h : p.Traces T S key value) (hstored : p.stored = true) :
    T.Shows key value S := by
  cases p with
  | tallying | charging | crediting => exact h.2
  | tallied | charged => exact h.2.1
  | returned code => exact h (beq_iff_eq.mp hstored)
  | _ => cases hstored

/-- What a call has read and written is not touched by a step that leaves its cell. -/
theorem Caller.Traces.mono (h : p.Traces T S key value) (hmore : S.colisions <+: S'.colisions)
    (hshows : T.Shows key value S → T.Shows key value S') : p.Traces T S' key value := by
  have haccess : ∀ access : Access, access.Traces T S key value →
      access.Traces T S' key value := by
    intro access h
    cases access with
    | link =>
        obtain ⟨hitem, hhead, n, hn, hentry⟩ := h
        exact ⟨hitem, hhead, n, hn, getElem?_longer hmore hentry⟩
    | find | place | extend | collide | merge | look => exact h
  cases p with
  | locating access | capping access | accessing access => exact ⟨h.1, haccess access h.2⟩
  | tallying | charging | crediting => exact ⟨h.1, hshows h.2⟩
  | tallied | charged => exact ⟨h.1, hshows h.2.1, h.2.2⟩
  | returned => exact fun hcode => hshows (h hcode)
  | idle | sizing | testing | weighing | limiting | following | counting | paying | pushing
  | looking | got => exact h

theorem Follows.shows (hS : Follows T S) (h : T.Shows key value S)
    (hcell : S'.items[home T.size key]? = S.items[home T.size key]?)
    (hmore : S.colisions <+: S'.colisions) : T.Shows key value S' := by
  obtain ⟨T', hadd, hfind⟩ := h
  refine ⟨T', hadd, fun k => ?_⟩
  rw [hS.sound.slot_eq hcell hmore]
  exact hfind k

theorem Follows.get_eq (hS : Follows T S) (hkey : Usable T.size key) :
    S.get key = .ok ((S.slot (home T.size key)).find key) := by
  have hget := hS.sound.get_eq (hS.size.symm ▸ hkey)
  rw [hS.size] at hget
  exact hget

/-! ### The steps of a lookup -/

section lookup

variable {ι : Type} {requests : ι → Request}

theorem Caller.Sees.mono (h : p.Sees T S requests key) (hmore : S.colisions <+: S'.colisions) :
    p.Sees T S' requests key := by
  cases p with
  | looking k next =>
      obtain ⟨hk, entry, hentry, hrest⟩ := h
      exact ⟨hk, entry, vectorGet_longer hmore hentry, hrest⟩
  | _ => exact h

/-- A lookup that goes on with the head of its cell sees what the cell offers. -/
theorem search_sees (hS : Follows T S) {cell : HashItem}
    (hcell : S.items[home T.size key]? = some cell)
    (hseen : Seen T requests key ((S.slot (home T.size key)).find key)) :
    (if cell.value.length > 0 then Caller.search key cell else .got []).Sees T S requests key := by
  rcases hS.sound.cell_cases hcell with ⟨hvalue, hslot⟩ | ⟨hvalue, hnext, hslot⟩ |
    ⟨j, entry, hvalue, hnext, hentry, hslot⟩
  · rw [hslot] at hseen
    rw [if_neg (by simp [hvalue])]
    exact hseen
  · rw [hslot, HashTable.Slot.find] at hseen
    rw [if_pos (List.length_pos_iff.mpr hvalue), Caller.search]
    split
    · rename_i hsame
      rw [if_pos hsame] at hseen
      exact hseen
    · rename_i hother
      rw [if_neg hother] at hseen
      exact hseen
  · rw [hslot, HashTable.Slot.find] at hseen
    rw [if_pos (List.length_pos_iff.mpr hvalue), Caller.search]
    split
    · rename_i hsame
      rw [if_pos hsame] at hseen
      exact hseen
    · rename_i hother
      rw [if_neg hother] at hseen
      rw [if_neg (by omega)]
      exact ⟨rfl, entry, hnext ▸ vectorGet_natCast hentry,
        hS.sound.entry_next entry (List.mem_of_getElem? hentry), hseen⟩

theorem Caller.Sees.move (hS : Follows T S) (hkey : Usable T.size key)
    (hseen : Seen T requests key ((S.slot (home T.size key)).find key))
    (h : p.Sees T S requests key) (hmove : p.move S = some (S', q)) :
    S' = S ∧ q.Sees T S requests key := by
  cases p with
  | got => cases hmove
  | sizing access =>
      cases h
      cases hmove
      refine ⟨rfl, rfl, ?_⟩
      rw [← hS.size]
      exact hashFunction_eq_home (hS.size.symm ▸ hkey)
  | locating access index =>
      cases hmove
      refine ⟨rfl, ?_⟩
      split
      · exact h
      · exact h
  | capping access index =>
      cases hmove
      exact ⟨rfl, h⟩
  | accessing access index mutexIndex =>
      obtain ⟨rfl, rfl⟩ := h
      obtain ⟨cell, hread, hrun⟩ := Exec.bind_eq_ok.mp (Exec.toOption_eq_some.mp hmove)
      cases hrun
      have hcell := vectorGet_natCast_eq_ok.mp (HashTable.readCellAt_eq_ok.mp hread).2
      exact ⟨rfl, search_sees hS hcell hseen⟩
  | looking k next =>
      obtain ⟨rfl, entry, hentry, hlast, hrest⟩ := h
      obtain ⟨item, hfound, hresult⟩ := Option.map_eq_some_iff.mp hmove
      cases hresult
      cases hentry.symm.trans (Exec.toOption_eq_some.mp hfound)
      refine ⟨rfl, ?_⟩
      rw [Caller.search]
      split
      · rename_i hsame
        rw [if_pos hsame] at hrest
        exact hrest
      · rename_i hother
        rw [if_neg hother] at hrest
        exact hrest
  | _ => exact h.elim

end lookup

end IndexServer
