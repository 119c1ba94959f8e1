import IndexServer.HashTable.Sound
import IndexServer.SharedTable.Alone
import IndexServer.SharedTable.Races
import IndexServer.SharedTable.Steps

/-!
# Calls that wait for nobody

Calls of `add` and `get` that run at once on a table that does not grow. A cell that has a value
links to an entry of `colisions` or to nothing, and an entry links to nothing, so a call walks over
one entry at most, whatever the other calls write in between. Every access is then inside the
vectors, and every call has a bounded number of steps of its own. All of this is said of runs in
which no lookup reads `colisions` while an insertion pushes an entry.
-/

namespace IndexServer

open HashTable (itemsSizeOnItemsMutexRatio maxCapacity getItemCapacity hashFunction newItem home
  hashFunction_eq_home Usable)

/-- A call of `add` or of `get`. -/
inductive Request where
  | add (key : WString) (value : List WString)
  | get (key : WString)
  deriving DecidableEq, Repr

namespace Request

def key : Request → WString
  | .add key _ | .get key => key

def access : Request → Access
  | .add key value => .find (newItem key value)
  | .get key => .look key

def isGet (request : Request) : Bool := request.access.isGet

/-- The next access of another call races with one that such a call may come to. -/
def crosses : Request → Caller → Bool
  | .add _ _, p => p.looks
  | .get _, p => p.pushes

end Request

def SharedTable.calling {ι : Type} (T : HashTable) (requests : ι → Request) : SharedTable ι :=
  { new T with
    caller := fun
      | some c => .sizing (requests c).access
      | none => .idle }

/-! ### What keeps a call inside the vectors -/

theorem getElem?_longer {α : Type} {v w : List α} (h : v <+: w) {n : ℕ} {a : α}
    (hn : v[n]? = some a) : w[n]? = some a := by
  obtain ⟨hlt, rfl⟩ := List.getElem?_eq_some_iff.mp hn
  exact List.prefix_iff_getElem?.mp h n hlt

theorem vectorGet_longer {α : Type} {v w : List α} (h : v <+: w) {i : Int} {a : α}
    (hi : vectorGet v i = .ok a) : vectorGet w i = .ok a := by
  obtain ⟨n, rfl, hn⟩ := vectorGet_eq_ok.mp hi
  exact vectorGet_natCast (getElem?_longer h hn)

namespace HashTable

def Links (colisions : List HashItem) (next : Int) : Prop :=
  next = -1 ∨ ∃ entry, vectorGet colisions next = .ok entry

def Inside (T : HashTable) (index : Int) : Prop := ∃ cell, vectorGet T.items index = .ok cell

/-- There is a cell at the index, and a walk from it stays inside `colisions`. -/
def Linked (T : HashTable) (index : Int) : Prop :=
  ∃ cell, vectorGet T.items index = .ok cell ∧ Links T.colisions cell.next

structure Walkable (T : HashTable) : Prop where
  size_pos : 0 < T.size
  items_length : T.items.length = T.size
  locks : T.Locks
  linked : ∀ index cell, vectorGet T.items index = .ok cell → cell.value ≠ [] →
    Links T.colisions cell.next
  entry_next : ∀ entry ∈ T.colisions, entry.next = -1

variable {T T' : HashTable} {index mutexIndex : Int} {cell : HashItem}

theorem Linked.inside (h : T.Linked index) : T.Inside index := by
  obtain ⟨cell, hcell, _⟩ := h
  exact ⟨cell, hcell⟩

theorem Sound.walkable (hT : T.Sound) : T.Walkable where
  size_pos := hT.size_pos
  items_length := hT.items_length
  locks := hT.locks
  linked index cell hcell hvalue := by
    obtain ⟨n, rfl, hn⟩ := vectorGet_eq_ok.mp hcell
    rcases hT.cell_next n cell hn hvalue with hnext | ⟨j, entry, hnext, hentry, _⟩
    · exact .inl hnext
    · exact .inr ⟨entry, hnext ▸ vectorGet_natCast hentry⟩
  entry_next := hT.entry_next

namespace Walkable

variable (h : T.Walkable)
include h

theorem inside (key : WString) : T.Inside (home T.size key) := by
  have hlt : home T.size key < T.items.length := by
    rw [h.items_length]
    exact Bucket.bucket_lt magnitude h.size_pos key
  exact ⟨_, vectorGet_natCast (List.getElem?_eq_getElem hlt)⟩

theorem lockMutex (hinside : T.Inside index) : T.lockMutex (T.getMutexIndex index) = .ok () := by
  obtain ⟨cell, hcell⟩ := hinside
  obtain ⟨n, rfl, _⟩ := vectorGet_eq_ok.mp hcell
  exact if_pos (h.locks.getMutexIndex_range n)

theorem next_eq {next : Int} {entry : HashItem} (hentry : vectorGet T.colisions next = .ok entry) :
    entry.next = -1 := by
  obtain ⟨n, _, hn⟩ := vectorGet_eq_ok.mp hentry
  exact h.entry_next entry (List.mem_of_getElem? hn)

end Walkable

structure Extends (T T' : HashTable) : Prop where
  size : T'.size = T.size
  itemsMutexes : T'.itemsMutexes = T.itemsMutexes
  itemsMutexesSize : T'.itemsMutexesSize = T.itemsMutexesSize
  inside : ∀ index, T.Inside index → T'.Inside index
  linked : ∀ index, T.Linked index → T'.Linked index
  colisions : T.colisions <+: T'.colisions

theorem Links.mono {colisions more : List HashItem} {next : Int} (h : Links colisions next)
    (hmore : colisions <+: more) : Links more next := by
  rcases h with hnext | ⟨entry, hentry⟩
  · exact .inl hnext
  · exact .inr ⟨entry, vectorGet_longer hmore hentry⟩

theorem extends_of_items (hsize : T'.size = T.size) (hmutexes : T'.itemsMutexes = T.itemsMutexes)
    (hmutexesSize : T'.itemsMutexesSize = T.itemsMutexesSize) (hitems : T'.items = T.items)
    (hcolisions : T.colisions <+: T'.colisions) : T.Extends T' where
  size := hsize
  itemsMutexes := hmutexes
  itemsMutexesSize := hmutexesSize
  inside index h := by
    rw [Inside, hitems]
    exact h
  linked index := by
    rintro ⟨cell, hcell, hlinks⟩
    exact ⟨cell, hitems ▸ hcell, hlinks.mono hcolisions⟩
  colisions := hcolisions

theorem extends_refl (T : HashTable) : T.Extends T :=
  extends_of_items rfl rfl rfl rfl (List.prefix_refl _)

theorem Walkable.count (h : T.Walkable) (count currentCapacity : ℕ) :
    HashTable.Walkable { T with count, currentCapacity } :=
  ⟨h.size_pos, h.items_length, h.locks, h.linked, h.entry_next⟩

theorem Walkable.push (h : T.Walkable) {item : HashItem} (hnext : item.next = -1) :
    HashTable.Walkable { T with colisions := T.colisions ++ [item] } where
  size_pos := h.size_pos
  items_length := h.items_length
  locks := h.locks
  linked index cell hcell hvalue :=
    (h.linked index cell hcell hvalue).mono (List.prefix_append _ _)
  entry_next entry hentry := by
    rcases List.mem_append.mp hentry with hold | hnew
    · exact h.entry_next entry hold
    · rw [List.mem_singleton.mp hnew]
      exact hnext

/-- A section that writes a cell succeeds inside the vectors, and the cell stays linked as it is
written. -/
theorem Walkable.modifyCellAt (h : T.Walkable) {f : HashItem → HashItem}
    (hinside : T.Inside index) (hlock : T.lockMutex mutexIndex = .ok ())
    (hf : ∀ cell, vectorGet T.items index = .ok cell → Links T.colisions (f cell).next) :
    ∃ T', T.modifyCellAt index mutexIndex f = .ok T' ∧ T'.Walkable ∧ T.Extends T' := by
  obtain ⟨cell, hcell⟩ := hinside
  obtain ⟨n, rfl, hn⟩ := vectorGet_eq_ok.mp hcell
  have hlt := (List.getElem?_eq_some_iff.mp hn).1
  have hnew : vectorGet (T.items.set n (f cell)) n = .ok (f cell) :=
    vectorGet_natCast (List.getElem?_set_self hlt)
  have hrun : T.modifyCellAt n mutexIndex f =
      .ok { T with items := T.items.set n (f cell) } := by
    rw [HashTable.modifyCellAt, hlock, Exec.ok_bind, hcell, Exec.ok_bind, vectorSet_natCast hlt]
    rfl
  refine ⟨_, hrun, ⟨h.size_pos, ?_, h.locks, fun index c hc hvalue => ?_, h.entry_next⟩,
    ⟨rfl, rfl, rfl, fun index => ?_, fun index => ?_, List.prefix_refl _⟩⟩
  · rw [List.length_set]
    exact h.items_length
  · obtain ⟨m, rfl, hm⟩ := vectorGet_eq_ok.mp hc
    rcases getElem?_set_cases hm with ⟨rfl, rfl⟩ | ⟨_, hold⟩
    · exact hf cell hcell
    · exact h.linked m c (vectorGet_natCast hold) hvalue
  · rintro ⟨c, hc⟩
    rcases vectorGet_set_cases hn (f cell) index with ⟨rfl, _, _⟩ | ⟨_, hother⟩
    · exact ⟨_, hnew⟩
    · exact ⟨c, hother c hc⟩
  · rintro ⟨c, hc, hlinks⟩
    rcases vectorGet_set_cases hn (f cell) index with ⟨rfl, _, _⟩ | ⟨_, hother⟩
    · exact ⟨_, hnew, hf cell hcell⟩
    · exact ⟨c, hother c hc, hlinks⟩

end HashTable

/-! ### Where a call can stand -/

variable {T T' : HashTable} {index mutexIndex : Int}

/-- The item of an `add` links to nothing, and behind the cell that the call has seen a walk stays
inside `colisions`. -/
def Access.Safe (T : HashTable) (index : Int) : Access → Prop
  | .find item | .place item => T.Inside index ∧ item.next = -1
  | .extend item _ | .collide item | .merge item _ => T.Linked index ∧ item.next = -1
  | .link _ colisionSize =>
      T.Linked index ∧ HashTable.Links T.colisions (colisionSize - 1)
  | .look _ => T.Inside index

/-- The call begins with the copy of a cell, at a key that has one. -/
def Access.Begins (T : HashTable) : Access → Prop
  | .find item => Usable T.size item.key ∧ item.next = -1
  | .look key => Usable T.size key
  | _ => False

def Caller.Safe (T : HashTable) : Caller → Prop
  | .sizing access => access.Begins T
  | .locating access index => access.Safe T index
  | .capping access index =>
      access.Safe T index ∧ index / itemsSizeOnItemsMutexRatio ≥ T.itemsMutexesSize
  | .accessing access index mutexIndex =>
      access.Safe T index ∧ T.lockMutex mutexIndex = .ok ()
  | .testing item index mutexIndex currentItem =>
      T.Inside index ∧ T.lockMutex mutexIndex = .ok () ∧ item.next = -1 ∧
        (currentItem.value ≠ [] → T.Linked index)
  | .weighing item index mutexIndex | .limiting item index mutexIndex _ =>
      T.Inside index ∧ T.lockMutex mutexIndex = .ok () ∧ item.next = -1
  | .following item index next =>
      T.Linked index ∧ item.next = -1 ∧ ∃ entry, vectorGet T.colisions next = .ok entry
  | .counting item index currentItem | .paying item index currentItem =>
      T.Linked index ∧ item.next = -1 ∧ currentItem.next = -1
  | .pushing item index => T.Linked index ∧ item.next = -1
  | .looking _ next => ∃ entry, vectorGet T.colisions next = .ok entry
  | .idle | .tallying _ | .tallied _ _ | .charging _ | .charged _ _ | .crediting _ | .returned _
  | .got _ => True

theorem Access.Safe.inside {access : Access} (h : access.Safe T index) : T.Inside index := by
  cases access with
  | find | place => exact h.1
  | extend | collide | merge | link => exact h.1.inside
  | look => exact h

theorem Access.Safe.mono {access : Access} (h : access.Safe T index) (hmore : T.Extends T') :
    access.Safe T' index := by
  cases access with
  | find | place => exact ⟨hmore.inside _ h.1, h.2⟩
  | extend | collide | merge => exact ⟨hmore.linked _ h.1, h.2⟩
  | link => exact ⟨hmore.linked _ h.1, h.2.mono hmore.colisions⟩
  | look => exact hmore.inside _ h

theorem HashTable.Extends.entry (h : T.Extends T') {next : Int}
    (hentry : ∃ entry, vectorGet T.colisions next = .ok entry) :
    ∃ entry, vectorGet T'.colisions next = .ok entry := by
  obtain ⟨entry, hentry⟩ := hentry
  exact ⟨entry, vectorGet_longer h.colisions hentry⟩

theorem HashTable.Extends.lock (h : T.Extends T') (hlock : T.lockMutex mutexIndex = .ok ()) :
    T'.lockMutex mutexIndex = .ok () := by
  rw [HashTable.lockMutex, h.itemsMutexes]
  exact hlock

/-- What a call knows is not touched by the others. -/
theorem Caller.Safe.mono {p : Caller} (h : p.Safe T) (hmore : T.Extends T') : p.Safe T' := by
  cases p with
  | sizing access =>
      cases access with
      | find | look =>
          simp only [Caller.Safe, Access.Begins, hmore.size]
          exact h
      | place | extend | collide | merge | link => exact h
  | locating => exact Access.Safe.mono h hmore
  | capping => exact ⟨h.1.mono hmore, hmore.itemsMutexesSize ▸ h.2⟩
  | accessing => exact ⟨h.1.mono hmore, hmore.lock h.2⟩
  | testing =>
      obtain ⟨hinside, hlock, hnext, hlinked⟩ := h
      exact ⟨hmore.inside _ hinside, hmore.lock hlock, hnext,
        fun hvalue => hmore.linked _ (hlinked hvalue)⟩
  | weighing | limiting => exact ⟨hmore.inside _ h.1, hmore.lock h.2.1, h.2.2⟩
  | following => exact ⟨hmore.linked _ h.1, h.2.1, hmore.entry h.2.2⟩
  | counting | paying => exact ⟨hmore.linked _ h.1, h.2⟩
  | pushing => exact ⟨hmore.linked _ h.1, h.2⟩
  | looking => exact hmore.entry h
  | idle | tallying | tallied | charging | charged | crediting | returned | got => trivial

/-! ### The steps that a call has left -/

/-- The steps from the section on. -/
def Access.rank : Access → ℕ
  | .find _ => 14
  | .place _ => 5
  | .extend _ _ => 3
  | .collide _ => 9
  | .merge _ _ => 2
  | .link _ _ => 1
  | .look _ => 2

/-- The steps that the call has left at most, without the check that it comes to. -/
def Caller.rank : Caller → ℕ
  | .idle | .returned _ | .got _ => 0
  | .sizing access => access.rank + 4
  | .locating access _ => access.rank + 2
  | .capping access _ => access.rank + 1
  | .accessing access _ _ => access.rank
  | .testing _ _ _ _ => 13
  | .weighing _ _ _ => 7
  | .limiting _ _ _ _ => 6
  | .tallying _ => 4
  | .tallied _ _ => 3
  | .charging _ => 2
  | .charged _ _ | .crediting _ | .looking _ _ => 1
  | .following _ _ _ => 8
  | .counting _ _ _ => 7
  | .paying _ _ _ => 6
  | .pushing _ _ => 5

/-- The steps with the check that the call comes to. -/
def Caller.left (p : Caller) : ℕ := p.rank + if p.checks then 1 else 0

theorem HashTable.Linked.links (h : T.Linked index) {cell : HashItem}
    (hcell : vectorGet T.items index = .ok cell) : HashTable.Links T.colisions cell.next := by
  obtain ⟨cell', hcell', hlinks⟩ := h
  cases hcell.symm.trans hcell'
  exact hlinks

/-- A walk goes over one entry at most. -/
theorem walk_safe {item currentItem : HashItem} (hlinked : T.Linked index)
    (hnext : item.next = -1) (hlinks : HashTable.Links T.colisions currentItem.next) :
    (Caller.walk item index currentItem).Safe T ∧
      (Caller.walk item index currentItem).left ≤ if currentItem.next = -1 then 5 else 8 := by
  rw [Caller.walk]
  split
  · refine ⟨⟨hlinked, hnext⟩, ?_⟩
    split
    · exact Nat.le_refl 5
    · exact Nat.le_add_right 5 3
  · split
    · exact ⟨⟨hlinked, hnext⟩, Nat.le_refl 5⟩
    · rename_i hmore
      exact ⟨⟨hlinked, hnext, hlinks.resolve_left hmore⟩, Nat.le_refl 8⟩

theorem search_safe (key : WString) {item : HashItem}
    (hlinks : HashTable.Links T.colisions item.next) :
    (Caller.search key item).Safe T ∧
      (Caller.search key item).left ≤ if item.next = -1 then 0 else 1 := by
  rw [Caller.search]
  split
  · exact ⟨trivial, Nat.zero_le _⟩
  · split
    · exact ⟨trivial, Nat.le_refl 0⟩
    · rename_i hmore
      exact ⟨hlinks.resolve_left hmore, Nat.le_refl 1⟩

/-- A section succeeds, and the call has fewer steps left behind it. -/
theorem Access.Safe.perform (hT : T.Walkable) {access : Access} (h : access.Safe T index)
    (hlock : T.lockMutex mutexIndex = .ok ()) :
    ∃ T' p, access.perform T index mutexIndex = .ok (T', p) ∧ T'.Walkable ∧ T.Extends T' ∧
      p.Safe T' ∧ p.left < access.rank := by
  obtain ⟨cell, hcell⟩ := h.inside
  have hread : T.readCellAt index mutexIndex = .ok cell :=
    HashTable.readCellAt_eq_ok.mpr ⟨hlock, hcell⟩
  have hsame := HashTable.extends_refl T
  cases access with
  | find item =>
      refine ⟨T, _, Exec.bind_eq_ok.mpr ⟨cell, hread, rfl⟩, hT, hsame, ?_, Nat.lt_succ_self 13⟩
      exact ⟨h.1, hlock, h.2, fun hvalue => ⟨cell, hcell, hT.linked index cell hcell hvalue⟩⟩
  | place item =>
      obtain ⟨T', hmodify, hT', hmore⟩ := hT.modifyCellAt h.1 hlock (f := fun _ => item)
        fun _ _ => .inl h.2
      exact ⟨T', _, Exec.bind_eq_ok.mpr ⟨T', hmodify, rfl⟩, hT', hmore, trivial, Nat.lt_succ_self 4⟩
  | extend item currentItem =>
      obtain ⟨T', hmodify, hT', hmore⟩ := hT.modifyCellAt h.1.inside hlock
        (f := fun cell => { cell with value := extendVector currentItem.value item.value })
        fun c hc => (h.1.links hc : HashTable.Links T.colisions c.next)
      exact ⟨T', _, Exec.bind_eq_ok.mpr ⟨T', hmodify, rfl⟩, hT', hmore, trivial, Nat.lt_succ_self 2⟩
  | collide item =>
      have hlinks := h.1.links hcell
      obtain ⟨hsafe, hleft⟩ := walk_safe h.1 h.2 hlinks
      refine ⟨T, _, Exec.bind_eq_ok.mpr ⟨cell, hread, rfl⟩, hT, hsame, hsafe, ?_⟩
      rw [Access.rank]
      split at hleft
      · omega
      · omega
  | merge item currentItem =>
      obtain ⟨T', hmodify, hT', hmore⟩ := hT.modifyCellAt h.1.inside hlock
        (f := fun cell => { cell with value := extendVector currentItem.value item.value })
        fun c hc => (h.1.links hc : HashTable.Links T.colisions c.next)
      exact ⟨T', _, Exec.bind_eq_ok.mpr ⟨T', hmodify, rfl⟩, hT', hmore, trivial, Nat.lt_succ_self 1⟩
  | link item colisionSize =>
      obtain ⟨T', hmodify, hT', hmore⟩ := hT.modifyCellAt h.1.inside hlock
        (f := fun cell => { cell with next := colisionSize - 1 }) fun _ _ => h.2
      exact ⟨T', _, Exec.bind_eq_ok.mpr ⟨T', hmodify, rfl⟩, hT', hmore, trivial, Nat.lt_succ_self 0⟩
  | look key =>
      refine ⟨T, _, Exec.bind_eq_ok.mpr ⟨cell, hread, rfl⟩, hT, hsame, ?_⟩
      rw [Access.rank]
      split
      case isTrue hvalue =>
        have hlinks := hT.linked index cell hcell (List.length_pos_iff.mp hvalue)
        obtain ⟨hsafe, hleft⟩ := search_safe key hlinks
        refine ⟨hsafe, ?_⟩
        split at hleft
        · omega
        · omega
      case isFalse => exact ⟨trivial, Nat.lt_of_lt_of_le Nat.zero_lt_one (Nat.le_succ 1)⟩

/-- An access of a call in progress succeeds, and brings the call nearer to its end. -/
theorem Caller.Safe.move (hT : T.Walkable) {p : Caller} (h : p.Safe T)
    (hp : p.resting = false) :
    ∃ T' q, p.move T = some (T', q) ∧ T'.Walkable ∧ T.Extends T' ∧ q.Safe T' ∧
      q.left < p.rank := by
  have hsame := HashTable.extends_refl T
  cases p with
  | idle | returned | got => cases hp
  | sizing access =>
      refine ⟨T, _, rfl, hT, hsame, ?_⟩
      cases access with
      | find item =>
          rw [Access.key, hashFunction_eq_home h.1]
          exact ⟨⟨hT.inside item.key, h.2⟩, Nat.lt_succ_self 17⟩
      | look key =>
          rw [Access.key, hashFunction_eq_home h]
          exact ⟨hT.inside key, Nat.lt_succ_self 5⟩
      | place | extend | collide | merge | link => exact h.elim
  | locating access index =>
      refine ⟨T, _, rfl, hT, hsame, ?_⟩
      split
      case isTrue hcap => exact ⟨⟨h, hcap⟩, Nat.lt_succ_self _⟩
      case isFalse hcap =>
        have hlock := hT.lockMutex (Access.Safe.inside h)
        rw [HashTable.getMutexIndex, if_neg hcap] at hlock
        exact ⟨⟨h, hlock⟩, Nat.lt_succ_of_lt (Nat.lt_succ_self _)⟩
  | capping access index =>
      have hlock := hT.lockMutex h.1.inside
      rw [HashTable.getMutexIndex, if_pos h.2] at hlock
      exact ⟨T, _, rfl, hT, hsame, ⟨h.1, hlock⟩, Nat.lt_succ_self _⟩
  | accessing access index mutexIndex =>
      obtain ⟨T', q, hperform, hrest⟩ := h.1.perform hT h.2
      exact ⟨T', q, Exec.toOption_eq_some.mpr hperform, hrest⟩
  | testing item index mutexIndex currentItem =>
      obtain ⟨hinside, hlock, hnext, hlinked⟩ := h
      refine ⟨T, _, rfl, hT, hsame, ?_⟩
      split
      · exact ⟨trivial, Nat.succ_pos 12⟩
      · split
        · exact ⟨⟨hinside, hlock, hnext⟩, Nat.lt_add_of_pos_right (Nat.succ_pos 5)⟩
        · rename_i hvalue
          have hlinked := hlinked fun hnil => hvalue (List.length_eq_zero_iff.mpr hnil)
          split
          · exact ⟨⟨⟨hlinked, hnext⟩, hlock⟩, Nat.lt_add_of_pos_right (Nat.succ_pos 9)⟩
          · exact ⟨⟨hlinked, hnext⟩, Nat.lt_succ_self 12⟩
  | weighing item index mutexIndex =>
      exact ⟨T, _, rfl, hT, hsame, h, Nat.lt_succ_self 6⟩
  | limiting item index mutexIndex count =>
      refine ⟨T, _, rfl, hT, hsame, ?_⟩
      split
      · exact ⟨trivial, Nat.succ_pos 5⟩
      · exact ⟨⟨⟨h.1, h.2.2⟩, h.2.1⟩, Nat.lt_succ_self 5⟩
  | tallying item => exact ⟨T, _, rfl, hT, hsame, trivial, Nat.lt_succ_self 3⟩
  | tallied item count =>
      exact ⟨_, _, rfl, hT.count _ _,
        HashTable.extends_of_items rfl rfl rfl rfl (List.prefix_refl _), trivial,
        Nat.lt_succ_self 2⟩
  | charging item => exact ⟨T, _, rfl, hT, hsame, trivial, Nat.lt_succ_self 1⟩
  | charged item currentCapacity =>
      exact ⟨_, _, rfl, hT.count _ _,
        HashTable.extends_of_items rfl rfl rfl rfl (List.prefix_refl _), trivial,
        Nat.lt_succ_self 0⟩
  | following item index next =>
      obtain ⟨hlinked, hnext, entry, hentry⟩ := h
      refine ⟨T, .counting item index entry, ?_, hT, hsame,
        ⟨hlinked, hnext, hT.next_eq hentry⟩, Nat.lt_succ_self 7⟩
      rw [Caller.move, hentry]
      rfl
  | counting item index currentItem =>
      exact ⟨_, _, rfl, hT.count _ _,
        HashTable.extends_of_items rfl rfl rfl rfl (List.prefix_refl _), h, Nat.lt_succ_self 6⟩
  | paying item index currentItem =>
      obtain ⟨hlinked, hnext, hlast⟩ := h
      obtain ⟨hsafe, hleft⟩ := walk_safe hlinked hnext (.inl hlast)
      rw [if_pos hlast] at hleft
      have hmore : T.Extends { T with
          currentCapacity := T.currentCapacity + getItemCapacity item } :=
        HashTable.extends_of_items rfl rfl rfl rfl (List.prefix_refl _)
      exact ⟨_, _, rfl, hT.count _ _, hmore, hsafe.mono hmore, Nat.lt_succ_of_le hleft⟩
  | pushing item index =>
      have hmore : T.Extends { T with colisions := T.colisions ++ [item] } :=
        HashTable.extends_of_items rfl rfl rfl rfl (List.prefix_append _ _)
      refine ⟨_, _, rfl, hT.push h.2, hmore, ⟨hmore.linked _ h.1, .inr ⟨item, ?_⟩⟩,
        Nat.lt_succ_self 4⟩
      have hlast : ((T.colisions.length + 1 : ℕ) : Int) - 1 = T.colisions.length := by omega
      rw [hlast]
      exact vectorGet_natCast List.getElem?_concat_length
  | crediting item =>
      exact ⟨_, _, rfl, hT.count _ _,
        HashTable.extends_of_items rfl rfl rfl rfl (List.prefix_refl _), trivial,
        Nat.lt_succ_self 0⟩
  | looking key next =>
      obtain ⟨entry, hentry⟩ := h
      obtain ⟨hsafe, hleft⟩ := search_safe key (.inl (hT.next_eq hentry))
      rw [if_pos (hT.next_eq hentry)] at hleft
      refine ⟨T, .search key entry, ?_, hT, hsame, hsafe, Nat.lt_succ_of_le hleft⟩
      rw [Caller.move, hentry]
      rfl

/-! ### Runs -/

namespace SharedTable

variable {ι : Type} {requests : ι → Request} {s t : SharedTable ι} {c : ι}

/-- Calls in progress that no growth stops and no access takes outside the vectors. -/
structure Running (s : SharedTable ι) : Prop where
  unstopped : s.Unstopped
  walkable : s.table.Walkable
  safe : ∀ c, (s.caller (some c)).Safe s.table

def left (s : SharedTable ι) (c : ι) : ℕ :=
  (s.caller (some c)).rank +
    if (s.caller (some c)).checks = true ∧ s.parking.thread (some c) ≠ .outside then 1 else 0

theorem calling_running (hT : T.Sound) (husable : ∀ c, Usable T.size (requests c).key) :
    (calling T requests).Running where
  unstopped := ⟨rfl, fun _ _ => .inl rfl⟩
  walkable := hT.walkable
  safe c := by
    have hkey := husable c
    show (requests c).access.Begins T
    cases hrequest : requests c with
    | add key value =>
        rw [hrequest] at hkey
        exact ⟨hkey, rfl⟩
    | get key =>
        rw [hrequest] at hkey
        exact hkey

variable [DecidableEq ι]

theorem Unstopped.turn_check (hs : s.Unstopped) (hchecks : (s.caller (some c)).checks = true)
    (hthread : s.parking.thread (some c) ≠ .outside) :
    s.turn c = some { s with parking := s.parking.set (some c) .outside } ∧
      ({ s with parking := s.parking.set (some c) .outside } : SharedTable ι).Unstopped := by
  have htesting := (hs.testing c hchecks).resolve_left hthread
  constructor
  · rw [turn, work, if_pos ⟨hchecks, hthread⟩, Parking.work, htesting]
    simp [hs.clear]
  · refine ⟨hs.clear, fun d hd => ?_⟩
    by_cases hdc : d = c
    · exact .inl (hdc ▸ Parking.set_thread_self ..)
    · have hne : some d ≠ some c := fun heq => hdc (Option.some.inj heq)
      rw [show (s.parking.set (some c) .outside).thread (some d) = s.parking.thread (some d) from
        Parking.set_thread_ne s.parking hne .outside]
      exact hs.testing d hd

theorem left_set_ne {d : ι} (hdc : d ≠ c) (T : HashTable) (p : Caller) :
    (s.set (some c) T p).left d = s.left d := by
  have hne : some d ≠ some c := fun heq => hdc (Option.some.inj heq)
  have hthread : (s.set (some c) T p).parking.thread (some d) = s.parking.thread (some d) := by
    rw [SharedTable.set]
    split
    · exact Parking.set_thread_ne s.parking hne .testing
    · rfl
  rw [left, left, set_caller_ne s hne, hthread]

theorem left_set_self_le (T : HashTable) (p : Caller) : (s.set (some c) T p).left c ≤ p.left := by
  rw [left, set_caller_self, Caller.left]
  split_ifs with h hchecks
  · exact Nat.le_refl _
  · exact absurd h.1 hchecks
  · exact Nat.le_succ _
  · exact Nat.le_refl _

omit [DecidableEq ι] in
theorem move_of_resting {p : Caller} (hp : p.resting = true) :
    p.checks = false ∧ p.move T = none := by
  cases p with
  | idle | returned | got => exact ⟨rfl, rfl⟩
  | _ => cases hp

theorem turn_resting (hc : (s.caller (some c)).resting = true) : s.turn c = none := by
  obtain ⟨hchecks, hmove⟩ := move_of_resting (T := s.table) hc
  rw [turn, work, if_neg (by simp [hchecks]), hmove]
  rfl

/-- A call in progress is never kept from its next step, which brings it nearer to its end and
touches no other call. -/
theorem Running.exists_turn (hs : s.Running) (hc : (s.caller (some c)).resting = false) :
    ∃ t, s.turn c = some t ∧ t.Running ∧ t.left c < s.left c ∧
      ∀ d, d ≠ c → t.left d = s.left d := by
  by_cases hcheck : (s.caller (some c)).checks = true ∧ s.parking.thread (some c) ≠ .outside
  · obtain ⟨hturn, hunstopped⟩ := hs.unstopped.turn_check hcheck.1 hcheck.2
    refine ⟨_, hturn, ⟨hunstopped, hs.walkable, hs.safe⟩, ?_, fun d hdc => ?_⟩
    · rw [left, left, if_pos hcheck, if_neg fun h => h.2 (Parking.set_thread_self ..)]
      exact Nat.lt_succ_self _
    · have hne : some d ≠ some c := fun heq => hdc (Option.some.inj heq)
      rw [left, left, show (s.parking.set (some c) .outside).thread (some d) =
        s.parking.thread (some d) from Parking.set_thread_ne s.parking hne .outside]
  · obtain ⟨T', p, hmove, hT', hmore, hsafe, hleft⟩ := (hs.safe c).move hs.walkable hc
    refine ⟨_, turn_goes hcheck hmove, ⟨hs.unstopped.set c T' p, hT', fun d => ?_⟩, ?_,
      fun d hdc => left_set_ne hdc T' p⟩
    · by_cases hdc : d = c
      · rw [hdc, set_caller_self]
        exact hsafe
      · rw [set_caller_ne s fun heq => hdc (Option.some.inj heq)]
        exact (hs.safe d).mono hmore
    · have hnow : s.left c = (s.caller (some c)).rank := by
        rw [left, if_neg hcheck, Nat.add_zero]
      exact (left_set_self_le T' p).trans_lt (hnow ▸ hleft)

theorem Running.turn (hs : s.Running) (hturn : s.turn c = some t) :
    t.Running ∧ t.left c < s.left c ∧ ∀ d, d ≠ c → t.left d = s.left d := by
  have hc : (s.caller (some c)).resting = false := by
    by_contra hresting
    rw [turn_resting (Bool.not_eq_false _ ▸ hresting)] at hturn
    cases hturn
  obtain ⟨u, hu, hrest⟩ := hs.exists_turn hc
  rw [hu, Option.some.injEq] at hturn
  exact hturn ▸ hrest

theorem Running.returns (hs : s.Running) (c : ι) :
    ∃ n ≤ s.left c, ∃ t, Machine.run SharedTable.turn s (List.replicate n c) = some t ∧
      (t.caller (some c)).resting = true := by
  generalize hleft : s.left c = k
  induction k using Nat.strong_induction_on generalizing s with
  | h k ih =>
      cases hc : (s.caller (some c)).resting with
      | true => exact ⟨0, Nat.zero_le _, s, rfl, hc⟩
      | false =>
          obtain ⟨u, hu, hrunning, hless, _⟩ := hs.exists_turn hc
          obtain ⟨n, hn, t, ht, hresting⟩ := ih (u.left c) (hleft ▸ hless) hrunning rfl
          refine ⟨n + 1, by omega, t, ?_, hresting⟩
          rw [List.replicate_succ]
          exact Machine.run_cons_eq_some.mpr ⟨u, hu, ht⟩

theorem run_running (hT : T.Sound) (husable : ∀ c, Usable T.size (requests c).key) {cs : List ι}
    (hrun : Machine.run SharedTable.turn (calling T requests) cs = some s) :
    s.Running ∧ ∀ c, cs.count c + s.left c ≤ (calling T requests).left c := by
  refine Machine.run_history
    (fun cs (s : SharedTable ι) =>
      s.Running ∧ ∀ c, cs.count c + s.left c ≤ (calling T requests).left c)
    ⟨calling_running hT husable, fun c => ?_⟩ ?_ hrun
  · rw [List.count_nil, Nat.zero_add]
  · intro cs s c t _ ih hturn
    obtain ⟨hrunning, hless, hothers⟩ := ih.1.turn hturn
    refine ⟨hrunning, fun d => ?_⟩
    have hd := ih.2 d
    rw [List.count_append]
    by_cases hdc : d = c
    · subst hdc
      rw [List.count_singleton_self]
      omega
    · rw [List.count_eq_zero_of_not_mem fun hmem => hdc (List.mem_singleton.mp hmem), hothers d hdc]
      exact hd

end SharedTable

/-- The steps that a call takes at most. -/
def Request.steps : Request → ℕ
  | .add _ _ => 18
  | .get _ => 6

namespace SharedTable

variable {ι : Type} {requests : ι → Request} {s t : SharedTable ι} {c : ι}

theorem calling_left (T : HashTable) (c : ι) :
    (calling T requests).left c = (requests c).steps := by
  have hcheck : ¬(((calling T requests).caller (some c)).checks = true ∧
      (calling T requests).parking.thread (some c) ≠ .outside) :=
    fun h => Bool.false_ne_true h.1
  rw [left, if_neg hcheck]
  show (requests c).access.rank + 4 = _
  cases requests c with
  | add => rfl
  | get => rfl

/-! ### Races -/

/-- No growth is at work, and every call is of the kind it was and at the mutex of its cell. -/
structure Calls (requests : ι → Request) (s : SharedTable ι) : Prop where
  grower : s.grower = .idle
  adder : s.caller none = .idle
  keyed : ∀ c, (s.caller (some c)).Keyed s.table
  kind : ∀ c, (s.caller (some c)).isGet = (requests c).isGet

theorem calling_calls (T : HashTable) (requests : ι → Request) :
    (calling T requests).Calls requests :=
  ⟨rfl, rfl, fun _ => trivial, fun _ => rfl⟩

/-- Two calls race only where one is about to push and the other to read `colisions`. -/
theorem Calls.races (hs : s.Calls requests) (h : s.Races) :
    ∃ c d, (s.caller (some c)).pushes = true ∧ (s.caller (some d)).looks = true := by
  have hnone : s.touches none = [] := by
    rw [touches, hs.adder, hs.grower]
    rfl
  obtain ⟨v, w, _, x, hx, y, hy, hraces⟩ := h
  cases v with
  | none =>
      rw [hnone] at hx
      cases hx
  | some c =>
      cases w with
      | none =>
          rw [hnone] at hy
          cases hy
      | some d =>
          rcases (hs.keyed c).races (hs.keyed d) hx hy hraces with ⟨hc, hd⟩ | ⟨hc, hd⟩
          · exact ⟨c, d, hc, hd⟩
          · exact ⟨d, c, hd, hc⟩

theorem isGet_of_pushes {p : Caller} (h : p.pushes = true) : p.isGet = false := by
  cases p with
  | pushing => rfl
  | _ => cases h

theorem isGet_of_looks {p : Caller} (h : p.looks = true) : p.isGet = true := by
  cases p with
  | looking => rfl
  | _ => cases h

variable [DecidableEq ι]

theorem Calls.turn (hs : s.Calls requests) (hturn : s.turn c = some t) :
    t.Calls requests ∧ ∀ d ≠ c, t.caller (some d) = s.caller (some d) := by
  cases work_result hturn with
  | checked => exact ⟨⟨hs.grower, hs.adder, hs.keyed, hs.kind⟩, fun _ _ => rfl⟩
  | @moved result _ hmove =>
      obtain ⟨hsize, hkeyed, hkind⟩ := (hs.keyed c).move hmove
      have hcaller : ∀ d ≠ c,
          (s.set (some c) result.1 result.2).caller (some d) = s.caller (some d) :=
        fun d hdc => set_caller_ne s (fun heq => hdc (Option.some.inj heq)) _ _
      refine ⟨⟨hs.grower, ?_, fun d => ?_, fun d => ?_⟩, hcaller⟩
      · rw [set_caller_ne s (Option.some_ne_none c).symm]
        exact hs.adder
      · by_cases hdc : d = c
        · rw [hdc, set_caller_self]
          exact hkeyed.of_size hsize
        · rw [hcaller d hdc]
          exact (hs.keyed d).of_size hsize
      · by_cases hdc : d = c
        · rw [hdc, set_caller_self, hkind]
          exact hs.kind c
        · rw [hcaller d hdc]
          exact hs.kind d

theorem run_calls {cs : List ι}
    (hrun : Machine.run SharedTable.turn (calling T requests) cs = some s) : s.Calls requests :=
  Machine.run_history (fun _ s => s.Calls requests) (calling_calls T requests)
    (fun _ _ _ _ _ hs hturn => (hs.turn hturn).1) hrun

/-- Insertions alone do not race, and neither do lookups. -/
theorem run_not_races {kind : Bool} (hkind : ∀ c, (requests c).isGet = kind) {cs : List ι}
    (hrun : Machine.run SharedTable.turn (calling T requests) cs = some s) : ¬ s.Races := by
  intro h
  have hs := run_calls hrun
  obtain ⟨c, d, hpushes, hlooks⟩ := hs.races h
  have hc := (hs.kind c).symm.trans (isGet_of_pushes hpushes)
  have hd := (hs.kind d).symm.trans (isGet_of_looks hlooks)
  rw [hkind] at hc hd
  cases hc.symm.trans hd

/-- A call that goes on alone races with none of the others where they stand now. -/
theorem Calls.alone (hs : s.Calls requests)
    (hclear : ∀ d ≠ c, (requests c).crosses (s.caller (some d)) = false) (n : ℕ) :
    Machine.Meets SharedTable.turn (fun s _ => ¬ s.Races) s (List.replicate n c) := by
  have hown : ∀ d ∈ List.replicate n c, d = c := fun d hd => List.eq_of_mem_replicate hd
  refine Machine.meets_of_invariant
    (fun u => u.Calls requests ∧ ∀ d ≠ c, (requests c).crosses (u.caller (some d)) = false)
    ?_ ?_ ⟨hs, hclear⟩ hown
  · rintro u _ - ⟨hu, hclear⟩ h
    obtain ⟨d, e, hpushes, hlooks⟩ := hu.races h
    cases hrequest : requests c with
    | add key value =>
        have hec : e ≠ c := by
          rintro rfl
          have hkind := (hu.kind e).symm.trans (isGet_of_looks hlooks)
          rw [hrequest] at hkind
          cases hkind
        have hno := hclear e hec
        rw [hrequest] at hno
        cases hlooks.symm.trans hno
    | get key =>
        have hdc : d ≠ c := by
          rintro rfl
          have hkind := (hu.kind d).symm.trans (isGet_of_pushes hpushes)
          rw [hrequest] at hkind
          cases hkind
        have hno := hclear d hdc
        rw [hrequest] at hno
        cases hpushes.symm.trans hno
  · rintro u _ t rfl ⟨hu, hclear⟩ hturn
    obtain ⟨ht, hothers⟩ := hu.turn hturn
    refine ⟨ht, fun d hdc => ?_⟩
    rw [hothers d hdc]
    exact hclear d hdc

def addsAndGet : Option Bool → Request
  | some false => .add [97] [[49]]
  | some true => .add [98] [[50]]
  | none => .get [97]

end SharedTable

end IndexServer
