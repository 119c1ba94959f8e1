import IndexServer.SharedTable.Cells

/-!
# Accesses that race

`get` reads `colisions` without `colisionsMutex`, and `increaseTable` replaces `itemsMutexes` and
`items` without the mutexes of the cells. `Model` takes each of these accesses as one step. They are
that as long as no access of another thread to the same memory runs at the same time: a program in
which one does has no meaning. Two accesses can overlap where both are the next ones of their
threads, so from such a state on any state may follow (`Machine.MayReach`).
-/

namespace IndexServer

/-- What an access goes to: a vector as a whole, or one cell of `items`. -/
inductive Memory where
  | itemsMutexes
  | items
  | cell (index : Int)
  | colisions
  deriving DecidableEq, Repr

/-- `itemsMutexes[mutexIndex]` or `colisionsMutex`. -/
inductive Mutex where
  | items (mutexIndex : Int)
  | colisions
  deriving DecidableEq, Repr

structure Touch where
  memory : Memory
  writes : Bool
  /-- The mutex that the thread holds. -/
  mutex : Option Mutex
  deriving DecidableEq, Repr

/-- The accesses go to the same memory, one of them writes, and no mutex keeps them apart. -/
def Touch.Races (x y : Touch) : Prop :=
  x.memory = y.memory ∧ (x.writes || y.writes) = true ∧ (x.mutex = none ∨ x.mutex ≠ y.mutex)

instance (x y : Touch) : Decidable (x.Races y) := inferInstanceAs (Decidable (_ ∧ _ ∧ (_ ∨ _)))

def Access.writes : Access → Bool
  | .find _ | .collide _ | .look _ => false
  | .place _ | .extend _ _ | .merge _ _ | .link _ _ => true

def cellTouches (index mutexIndex : Int) (writes : Bool) : List Touch :=
  [⟨.itemsMutexes, false, none⟩, ⟨.items, false, some (.items mutexIndex)⟩,
    ⟨.cell index, writes, some (.items mutexIndex)⟩]

/-- What the next access of a call goes to, apart from atomic members. -/
def Caller.touches : Caller → List Touch
  | .accessing access index mutexIndex => cellTouches index mutexIndex access.writes
  | .following _ _ _ => [⟨.colisions, false, some .colisions⟩]
  | .pushing _ _ => [⟨.colisions, true, some .colisions⟩]
  | .looking _ _ => [⟨.colisions, false, none⟩]
  | _ => []

/-- What the next access of `increaseTable` goes to; in the handshake it goes to atomic members. -/
def Grower.touches : Grower → Stop → List Touch
  | .copying _ i mutexIndex, _ => cellTouches i mutexIndex false
  | .measuring _, _ | .collecting _ _ _, _ => [⟨.colisions, false, some .colisions⟩]
  | .gating _, .replacing => [⟨.itemsMutexes, true, none⟩]
  | .storing _, _ => [⟨.itemsMutexes, false, none⟩]
  | .installing _, _ => [⟨.items, true, none⟩]
  | .opening _, .outside => [⟨.colisions, true, some .colisions⟩]
  | _, _ => []

namespace SharedTable

variable {ι : Type}

/-- `none` is in `increaseTable`, or in one of its calls of `add`. -/
def touches (s : SharedTable ι) : Option ι → List Touch
  | some c => (s.caller (some c)).touches
  | none => (s.caller none).touches ++ s.grower.touches (s.parking.thread none)

/-- Two threads can be at accesses that race at the same time. -/
def Races (s : SharedTable ι) : Prop :=
  ∃ v w, v ≠ w ∧ ∃ x ∈ s.touches v, ∃ y ∈ s.touches w, x.Races y

instance [Fintype ι] [DecidableEq ι] (s : SharedTable ι) : Decidable s.Races :=
  Fintype.decidableExistsFintype

end SharedTable

/-! ### Calls without a growth -/

open HashTable (itemsSizeOnItemsMutexRatio)

def Access.isGet : Access → Bool
  | .look _ => true
  | _ => false

namespace Caller

def isGet : Caller → Bool
  | .sizing access | .locating access _ | .capping access _ | .accessing access _ _ => access.isGet
  | .looking _ _ | .got _ => true
  | _ => false

/-- The mutex of the call is the one of its cell. -/
def Keyed (T : HashTable) : Caller → Prop
  | .capping _ index => index / itemsSizeOnItemsMutexRatio ≥ T.itemsMutexesSize
  | .accessing _ index mutexIndex | .testing _ index mutexIndex _ | .weighing _ index mutexIndex
  | .limiting _ index mutexIndex _ => mutexIndex = T.getMutexIndex index
  | _ => True

variable {T T' : HashTable} {p q : Caller}

theorem Keyed.of_size (h : p.Keyed T) (hsize : T'.itemsMutexesSize = T.itemsMutexesSize) :
    p.Keyed T' := by
  have hmutex : ∀ index, T'.getMutexIndex index = T.getMutexIndex index := by
    intro index
    rw [HashTable.getMutexIndex, HashTable.getMutexIndex, hsize]
  cases p with
  | capping =>
      rw [Keyed, hsize]
      exact h
  | accessing | testing | weighing | limiting => exact Eq.trans h (hmutex _).symm
  | _ => trivial

theorem walk_keyed (item : HashItem) (index : Int) (currentItem : HashItem) :
    (walk item index currentItem).Keyed T ∧ (walk item index currentItem).isGet = false := by
  rw [walk]
  split
  · exact ⟨trivial, rfl⟩
  · split
    · exact ⟨trivial, rfl⟩
    · exact ⟨trivial, rfl⟩

theorem search_keyed (key : WString) (item : HashItem) :
    (search key item).Keyed T ∧ (search key item).isGet = true := by
  rw [search]
  split
  · exact ⟨trivial, rfl⟩
  · split
    · exact ⟨trivial, rfl⟩
    · exact ⟨trivial, rfl⟩

theorem perform_keyed {access : Access} {index mutexIndex : Int}
    (h : access.perform T index mutexIndex = .ok (T', q))
    (hmutex : mutexIndex = T.getMutexIndex index) :
    T'.itemsMutexesSize = T.itemsMutexesSize ∧ q.Keyed T ∧ q.isGet = access.isGet := by
  cases access with
  | find =>
      obtain ⟨cell, _, h⟩ := Exec.bind_eq_ok.mp h
      cases h
      exact ⟨rfl, hmutex, rfl⟩
  | collide item =>
      obtain ⟨cell, _, h⟩ := Exec.bind_eq_ok.mp h
      cases h
      exact ⟨rfl, walk_keyed item index cell⟩
  | look key =>
      obtain ⟨cell, _, h⟩ := Exec.bind_eq_ok.mp h
      cases h
      refine ⟨rfl, ?_⟩
      split
      · exact search_keyed key cell
      · exact ⟨trivial, rfl⟩
  | place | extend | merge | link =>
      obtain ⟨T₁, hmodify, h⟩ := Exec.bind_eq_ok.mp h
      cases h
      obtain ⟨_, n, cell, _, _, rfl⟩ := HashTable.modifyCellAt_eq_ok hmodify
      exact ⟨rfl, trivial, rfl⟩

theorem Keyed.move (h : p.Keyed T) (hmove : p.move T = some (T', q)) :
    T'.itemsMutexesSize = T.itemsMutexesSize ∧ q.Keyed T ∧ q.isGet = p.isGet := by
  cases p with
  | idle | returned | got => cases hmove
  | sizing =>
      cases hmove
      exact ⟨rfl, trivial, rfl⟩
  | locating access index =>
      cases hmove
      split
      case isTrue hlast => exact ⟨rfl, hlast, rfl⟩
      case isFalse hlast => exact ⟨rfl, (if_neg hlast).symm, rfl⟩
  | capping access index =>
      cases hmove
      exact ⟨rfl, (if_pos h).symm, rfl⟩
  | accessing => exact perform_keyed (Exec.toOption_eq_some.mp hmove) h
  | testing =>
      cases hmove
      refine ⟨rfl, ?_⟩
      split
      · exact ⟨trivial, rfl⟩
      · split
        · exact ⟨h, rfl⟩
        · split
          · exact ⟨h, rfl⟩
          · exact ⟨trivial, rfl⟩
  | weighing =>
      cases hmove
      exact ⟨rfl, h, rfl⟩
  | limiting =>
      cases hmove
      refine ⟨rfl, ?_⟩
      split
      · exact ⟨trivial, rfl⟩
      · exact ⟨h, rfl⟩
  | tallying | tallied | charging | charged | counting | pushing | crediting =>
      cases hmove
      exact ⟨rfl, trivial, rfl⟩
  | paying item index currentItem =>
      cases hmove
      exact ⟨rfl, walk_keyed item index currentItem⟩
  | following item index next =>
      obtain ⟨currentItem, _, hresult⟩ := Option.map_eq_some_iff.mp hmove
      cases hresult
      exact ⟨rfl, trivial, rfl⟩
  | looking key next =>
      obtain ⟨item, _, hresult⟩ := Option.map_eq_some_iff.mp hmove
      cases hresult
      exact ⟨rfl, search_keyed key item⟩

/-- The call is about to push what it adds. -/
def pushes : Caller → Bool
  | .pushing _ _ => true
  | _ => false

/-- The call is about to read `colisions` without the mutex. -/
def looks : Caller → Bool
  | .looking _ _ => true
  | _ => false

/-- Sections under the mutexes of their cells do not race. -/
theorem cellTouches_not_races {index index' : Int} {writes writes' : Bool} {x y : Touch}
    (hx : x ∈ cellTouches index (T.getMutexIndex index) writes)
    (hy : y ∈ cellTouches index' (T.getMutexIndex index') writes') : ¬ x.Races y := by
  simp only [cellTouches, List.mem_cons, List.not_mem_nil, or_false] at hx hy
  rintro ⟨hmemory, hwrites, hmutex⟩
  rcases hx with rfl | rfl | rfl <;> rcases hy with rfl | rfl | rfl
  case inl.inl | inr.inl.inr.inl => cases hwrites
  case inr.inr.inr.inr =>
    cases hmemory
    rcases hmutex with hnone | hne
    · cases hnone
    · exact hne rfl
  all_goals cases hmemory

theorem memory_of_cellTouches {index mutexIndex : Int} {writes : Bool} {x : Touch}
    (hx : x ∈ cellTouches index mutexIndex writes) : x.memory ≠ .colisions := by
  simp only [cellTouches, List.mem_cons, List.not_mem_nil, or_false] at hx
  rcases hx with rfl | rfl | rfl
  · simp
  · simp
  · simp

/-- Of the accesses of two calls only a push and an unlocked read of `colisions` race. -/
theorem Keyed.races (hp : p.Keyed T) (hq : q.Keyed T) {x y : Touch} (hx : x ∈ p.touches)
    (hy : y ∈ q.touches) (h : x.Races y) :
    p.pushes = true ∧ q.looks = true ∨ p.looks = true ∧ q.pushes = true := by
  cases p with
  | accessing access index mutexIndex =>
      subst hp
      cases q with
      | accessing => exact (cellTouches_not_races hx (hq ▸ hy) h).elim
      | following | pushing | looking =>
          cases List.mem_singleton.mp hy
          exact (memory_of_cellTouches hx h.1).elim
      | _ => cases hy
  | following | pushing | looking =>
      cases List.mem_singleton.mp hx
      cases q with
      | accessing => exact (memory_of_cellTouches hy h.1.symm).elim
      | following | pushing | looking =>
          cases List.mem_singleton.mp hy
          first
          | exact .inl ⟨rfl, rfl⟩
          | exact .inr ⟨rfl, rfl⟩
          | exact absurd h (by decide)
      | _ => cases hy
  | _ => cases hx

end Caller

-- a walk has come to the push of a second entry when a lookup comes to the first one
example : (Machine.run SharedTable.step (.new (.new 2))
    ([.add false [97] [[49]]] ++ List.replicate 12 (.work (some false)) ++
      [.add false [99] [[50]]] ++ List.replicate 12 (.work (some false)) ++
      [.add false [101] [[51]]] ++ List.replicate 11 (.work (some false)) ++
      [.get true [99]] ++ List.replicate 4 (.work (some true)))).map
    (fun s => decide s.Races) = some true := by decide +kernel

end IndexServer
