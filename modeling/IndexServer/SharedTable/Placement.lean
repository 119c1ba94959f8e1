import IndexServer.SharedTable.Handshake
import IndexServer.SharedTable.Cells

/-!
# Cells behind a growth

`add` computes the index of its cell from the size that it has read, and uses it behind
`checkIncreaseProcess`, where a growth may have doubled the size. An entry that is written with an
index of the old size stands where no `get` looks for it. The cells keep to the hashes of their keys
as long as no `add` in progress when `size` is doubled depends on an index for the old size.
-/

namespace IndexServer

open HashTable (hashFunction)

/-- Every entry with a value is in the cell of its key. -/
def Homed (items : List HashItem) (size : ℕ) : Prop :=
  ∀ (i : ℕ) cell, items[i]? = some cell → cell.value ≠ [] → hashFunction cell.key size = i

theorem Homed.set {items : List HashItem} {size n : ℕ} {cell : HashItem} (h : Homed items size)
    (hcell : cell.value ≠ [] → hashFunction cell.key size = n) :
    Homed (items.set n cell) size := by
  intro i found hfound hvalue
  rcases getElem?_set_cases hfound with ⟨rfl, rfl⟩ | ⟨_, hold⟩
  · exact hcell hvalue
  · exact h i found hold hvalue

theorem createNewVector_homed (n size : ℕ) : Homed (HashTable.createNewVector n) size := by
  intro i cell hcell hvalue
  rw [HashTable.createNewVector, List.getElem?_replicate] at hcell
  split at hcell
  · cases hcell
    exact absurd rfl hvalue
  · cases hcell

theorem vectorSet_eq_ok {v w : List HashItem} {i : Int} {a : HashItem}
    (h : vectorSet v i a = .ok w) : ∃ n : ℕ, i = n ∧ w = v.set n a := by
  rw [vectorSet] at h
  obtain ⟨b, hb, h⟩ := Exec.bind_eq_ok.mp h
  obtain ⟨n, rfl, _⟩ := vectorGet_eq_ok.mp hb
  cases h
  exact ⟨n, rfl, rfl⟩

/-- The loops of `increaseTable` place entries in the cells of their keys. -/
theorem place_homed {g g' : HashTable.Growth} {size : ℕ} {item : HashItem}
    (hg : Homed g.newItemsVector size) (h : g.place size item = .ok g') :
    Homed g'.newItemsVector size := by
  rw [HashTable.Growth.place] at h
  obtain ⟨currentItem, _, h⟩ := Exec.bind_eq_ok.mp h
  split at h
  · split at h
    · cases h
      exact hg
    · rename_i hkey
      obtain ⟨items, hitems, h⟩ := Exec.bind_eq_ok.mp h
      cases h
      obtain ⟨n, hn, rfl⟩ := vectorSet_eq_ok hitems
      apply hg.set
      intro _
      rw [← hn, ← not_not.mp hkey]
  · obtain ⟨items, hitems, h⟩ := Exec.bind_eq_ok.mp h
    cases h
    obtain ⟨n, hn, rfl⟩ := vectorSet_eq_ok hitems
    exact hg.set fun _ => hn

def Grower.resting : Grower → Bool
  | .idle | .returned _ => true
  | _ => false

def Job.Homed (job : Job) : Prop := IndexServer.Homed job.growth.newItemsVector job.newSize

theorem Job.From.homed {g : Grower} {job' : Job} (h : job'.From g)
    (hg : ∀ job, g.job = some job → job.Homed) : job'.Homed := by
  cases h with
  | new h =>
      rw [Job.Homed, h]
      exact createNewVector_homed _ _
  | same h => exact hg job' h
  | @scanned job item hjob h =>
      rw [Job.scanned] at h
      split at h
      · cases h
        exact hg _ hjob
      · obtain ⟨growth, hgrowth, h⟩ := Exec.bind_eq_ok.mp h
        cases h
        exact place_homed (hg job hjob) hgrowth
  | @collected job item hjob h =>
      rw [Job.collected] at h
      obtain ⟨growth, hgrowth, h⟩ := Exec.bind_eq_ok.mp h
      cases h
      exact place_homed (hg job hjob) hgrowth

/-! ### Where a call can stand -/

namespace HashTable

def Headed (T : HashTable) (index : Int) : Prop :=
  ∀ cell, vectorGet T.items index = .ok cell → hashFunction cell.key T.size = index

/-- The cells keep to the hashes of their keys. -/
structure Houses (T T' : HashTable) : Prop where
  size : T'.size = T.size
  homed : Homed T'.items T'.size
  headed : ∀ index, T.Headed index → T'.Headed index

variable {T T' : HashTable} {index mutexIndex : Int}

theorem houses_of_items (hcells : Homed T.items T.size) (hitems : T'.items = T.items)
    (hsize : T'.size = T.size) : T.Houses T' where
  size := hsize
  homed := by
    rw [hitems, hsize]
    exact hcells
  headed index h := by
    rw [Headed, hitems, hsize]
    exact h

theorem modifyCellAt_houses {f : HashItem → HashItem} (hcells : Homed T.items T.size)
    (hvalue : ∀ cell, vectorGet T.items index = .ok cell → (f cell).value ≠ [] →
      hashFunction (f cell).key T.size = index)
    (hkey : ∀ cell, vectorGet T.items index = .ok cell → hashFunction cell.key T.size = index →
      hashFunction (f cell).key T.size = index)
    (h : T.modifyCellAt index mutexIndex f = .ok T') : T.Houses T' := by
  obtain ⟨_, n, cell, rfl, hcell, rfl⟩ := modifyCellAt_eq_ok h
  have hget := vectorGet_natCast hcell
  refine ⟨rfl, hcells.set (hvalue cell hget), fun i hi found hfound => ?_⟩
  rcases vectorGet_set_cases hcell (f cell) i with ⟨rfl, hold, hnew⟩ | ⟨hne, hother⟩
  · cases hnew.symm.trans hfound
    exact hkey cell hget (hi cell hold)
  · obtain ⟨m, rfl, hm⟩ := vectorGet_eq_ok.mp hfound
    rcases getElem?_set_cases hm with ⟨rfl, _⟩ | ⟨_, hold⟩
    · exact absurd rfl hne
    · exact hi found (vectorGet_natCast hold)

end HashTable

open HashTable (Houses)

/-- The growth has not stored `size` yet. -/
def Grower.early : Grower → Bool
  | .opening _ | .readding _ | .returned _ => false
  | _ => true

def Grower.resizes : Grower → Option Job
  | .resizing job => some job
  | _ => none

/-- The call comes to the check with the section. -/
def Access.checked : Access → Bool
  | .place _ | .extend _ _ => false
  | _ => true

/-- A call that has found a value in its cell. -/
structure Walks (T : HashTable) (g : Grower) (item : HashItem) (index : Int) : Prop where
  hashes : g.early = true → hashFunction item.key T.size = index
  headed : g.resizes = none → T.Headed index

def Access.Stands (T : HashTable) (g : Grower) (index : Int) : Access → Prop
  | .find item | .place item => hashFunction item.key T.size = index
  | .extend item _ | .collide item | .merge item _ => Walks T g item index
  | .link _ _ | .look _ => True

def Caller.Stands (T : HashTable) (g : Grower) : Caller → Prop
  | .sizing (.find _) | .sizing (.look _) => True
  | .sizing _ => False
  | .locating access index => access.checked = true ∧ access.Stands T g index
  | .capping access index | .accessing access index _ => access.Stands T g index
  | .testing item index _ currentItem =>
      hashFunction item.key T.size = index ∧ (currentItem.value ≠ [] → Walks T g item index)
  | .weighing item index _ | .limiting item index _ _ => hashFunction item.key T.size = index
  | .following item index _ | .counting item index _ | .paying item index _ =>
      Walks T g item index
  | _ => True

/-- What the call takes through the check is of use for the new vectors too: the key of an `add`
that is to find its cell hashes alike for both sizes, and where one is in `handleCollision`, the
cell of its key has a value again. -/
def Caller.Outlasts (T : HashTable) (newSize : ℕ) : Caller → Prop
  | .locating (.find item) _ => hashFunction item.key newSize = hashFunction item.key T.size
  | .locating (.collide item) _ | .locating (.merge item _) _ =>
      ∀ cell ∈ (vectorGet T.items (hashFunction item.key T.size)).toOption, cell.value ≠ []
  | _ => True

section stands

variable {T T' : HashTable} {g g' : Grower} {item : HashItem} {index mutexIndex : Int}

theorem hashFunction_of_size (hsize : T'.size = T.size) {key : WString}
    (h : hashFunction key T.size = index) : hashFunction key T'.size = index := by
  rw [hsize]
  exact h

theorem Walks.mono (h : Walks T g item index) (hsize : T'.size = T.size)
    (hearly : g'.early = true → g.early = true)
    (hheaded : g'.resizes = none → g.resizes = none ∧ ∀ index, T.Headed index → T'.Headed index) :
    Walks T' g' item index where
  hashes hnow := hashFunction_of_size hsize (h.hashes (hearly hnow))
  headed hnow := (hheaded hnow).2 index (h.headed (hheaded hnow).1)

theorem Access.Stands.mono {access : Access} (h : access.Stands T g index)
    (hsize : T'.size = T.size) (hearly : g'.early = true → g.early = true)
    (hheaded : g'.resizes = none → g.resizes = none ∧ ∀ index, T.Headed index → T'.Headed index) :
    access.Stands T' g' index := by
  cases access with
  | find | place => exact hashFunction_of_size hsize h
  | extend | collide | merge => exact Walks.mono h hsize hearly hheaded
  | link | look => trivial

/-- What a call knows is left alone by the others, and by the growth until it stores `size`. -/
theorem Caller.Stands.mono {p : Caller} (h : p.Stands T g) (hsize : T'.size = T.size)
    (hearly : g'.early = true → g.early = true)
    (hheaded : g'.resizes = none → g.resizes = none ∧ ∀ index, T.Headed index → T'.Headed index) :
    p.Stands T' g' := by
  cases p with
  | sizing access =>
      cases access with
      | find | look => trivial
      | _ => exact h.elim
  | locating => exact ⟨h.1, h.2.mono hsize hearly hheaded⟩
  | capping | accessing => exact Access.Stands.mono h hsize hearly hheaded
  | testing =>
      exact ⟨hashFunction_of_size hsize h.1, fun hvalue => (h.2 hvalue).mono hsize hearly hheaded⟩
  | weighing | limiting => exact hashFunction_of_size hsize h
  | following | counting | paying => exact Walks.mono h hsize hearly hheaded
  | _ => trivial

theorem walk_stands {currentItem : HashItem} (h : Walks T g item index) :
    (Caller.walk item index currentItem).Stands T g := by
  rw [Caller.walk]
  split
  · exact ⟨rfl, h⟩
  · split
    · trivial
    · exact h

theorem search_stands (key : WString) : (Caller.search key item).Stands T g := by
  rw [Caller.search]
  split
  · trivial
  · split
    · trivial
    · trivial

theorem sizing_stands {access : Access} (h : (Caller.sizing access).Stands T g) :
    (Caller.locating access (hashFunction access.key T.size)).Stands T g := by
  cases access with
  | find => exact ⟨rfl, rfl⟩
  | look => exact ⟨rfl, trivial⟩
  | _ => exact h.elim

theorem Access.Stands.perform (hcells : Homed T.items T.size) (hg : g.resizes = none)
    {access : Access} (h : access.Stands T g index) {q : Caller}
    (hrun : access.perform T index mutexIndex = .ok (T', q)) : T.Houses T' ∧ q.Stands T' g := by
  have hsame : T.Houses T := HashTable.houses_of_items hcells rfl rfl
  cases access with
  | find item =>
      obtain ⟨currentItem, hread, hrun⟩ := Exec.bind_eq_ok.mp hrun
      cases hrun
      refine ⟨hsame, h, fun hvalue => ⟨fun _ => h, fun _ cell hcell => ?_⟩⟩
      have hget := (HashTable.readCellAt_eq_ok.mp hread).2
      cases hget.symm.trans hcell
      obtain ⟨n, rfl, hn⟩ := vectorGet_eq_ok.mp hget
      exact hcells n currentItem hn hvalue
  | place item =>
      obtain ⟨T₁, hmodify, hrun⟩ := Exec.bind_eq_ok.mp hrun
      cases hrun
      exact ⟨HashTable.modifyCellAt_houses hcells (fun _ _ _ => h) (fun _ _ _ => h) hmodify,
        trivial⟩
  | extend item currentItem | merge item currentItem =>
      obtain ⟨T₁, hmodify, hrun⟩ := Exec.bind_eq_ok.mp hrun
      cases hrun
      exact ⟨HashTable.modifyCellAt_houses
        (f := fun cell => { cell with value := extendVector currentItem.value item.value })
        hcells (fun cell hcell _ => h.headed hg cell hcell) (fun _ _ hkey => hkey) hmodify,
        trivial⟩
  | collide item =>
      obtain ⟨currentItem, _, hrun⟩ := Exec.bind_eq_ok.mp hrun
      cases hrun
      exact ⟨hsame, walk_stands h⟩
  | link item colisionSize =>
      obtain ⟨T₁, hmodify, hrun⟩ := Exec.bind_eq_ok.mp hrun
      cases hrun
      refine ⟨HashTable.modifyCellAt_houses
        (f := fun cell => { cell with next := colisionSize - 1 })
        hcells (fun cell hcell hvalue => ?_) (fun _ _ hkey => hkey) hmodify, trivial⟩
      obtain ⟨n, rfl, hn⟩ := vectorGet_eq_ok.mp hcell
      exact hcells n cell hn hvalue
  | look key =>
      obtain ⟨currentItem, _, hrun⟩ := Exec.bind_eq_ok.mp hrun
      cases hrun
      refine ⟨hsame, ?_⟩
      split
      · exact search_stands key
      · trivial

/-- An access of a call keeps the cells to their keys. -/
theorem Caller.Stands.move (hcells : Homed T.items T.size) (hg : g.resizes = none) {p q : Caller}
    (h : p.Stands T g) (hmove : p.move T = some (T', q)) : T.Houses T' ∧ q.Stands T' g := by
  have hsame : T.Houses T := HashTable.houses_of_items hcells rfl rfl
  have hcount : ∀ count currentCapacity colisions,
      T.Houses { T with count, currentCapacity, colisions } :=
    fun _ _ _ => HashTable.houses_of_items hcells rfl rfl
  cases p with
  | idle | returned | got => cases hmove
  | sizing =>
      cases hmove
      exact ⟨hsame, sizing_stands h⟩
  | locating access index =>
      cases hmove
      refine ⟨hsame, ?_⟩
      split
      · exact h.2
      · exact h.2
  | capping | weighing =>
      cases hmove
      exact ⟨hsame, h⟩
  | accessing => exact Access.Stands.perform hcells hg h (Exec.toOption_eq_some.mp hmove)
  | testing item index mutexIndex currentItem =>
      cases hmove
      refine ⟨hsame, ?_⟩
      split
      · trivial
      · split
        · exact h.1
        · rename_i hvalue
          have hwalks := h.2 fun hnil => hvalue (List.length_eq_zero_iff.mpr hnil)
          split
          · exact hwalks
          · exact ⟨rfl, hwalks⟩
  | limiting =>
      cases hmove
      refine ⟨hsame, ?_⟩
      split
      · trivial
      · exact h
  | tallying | charging =>
      cases hmove
      exact ⟨hsame, trivial⟩
  | tallied | charged | crediting =>
      cases hmove
      exact ⟨hcount _ _ _, trivial⟩
  | following item index next =>
      obtain ⟨currentItem, _, hresult⟩ := Option.map_eq_some_iff.mp hmove
      cases hresult
      exact ⟨hsame, h⟩
  | counting item index currentItem =>
      cases hmove
      exact ⟨hcount _ _ _, Walks.mono h rfl id fun hnow => ⟨hnow, fun _ hindex => hindex⟩⟩
  | paying item index currentItem =>
      cases hmove
      exact ⟨hcount _ _ _,
        walk_stands (h.mono rfl id fun hnow => ⟨hnow, fun _ hindex => hindex⟩)⟩
  | pushing item index =>
      cases hmove
      exact ⟨hcount _ _ _, rfl, trivial⟩
  | looking key next =>
      obtain ⟨currentItem, _, hresult⟩ := Option.map_eq_some_iff.mp hmove
      cases hresult
      exact ⟨hsame, search_stands key⟩

/-- What a call at the check knows, it knows behind the store of `size`. -/
theorem Caller.Outlasts.stands {newSize : ℕ} {access : Access} {job : Job}
    (h : (Caller.locating access index).Outlasts T newSize)
    (hstands : (Caller.locating access index).Stands T g) (hearly : g.early = true)
    (hcells : Homed T.items newSize) :
    (Caller.locating access index).Stands { T with size := newSize } (.opening job) := by
  obtain ⟨hchecked, hstands⟩ := hstands
  refine ⟨hchecked, ?_⟩
  cases access with
  | find item => exact Eq.trans h hstands
  | collide item | merge item currentItem =>
      refine ⟨(by rintro ⟨⟩), fun _ cell hcell => ?_⟩
      rw [← hstands.hashes hearly] at hcell ⊢
      have hvalue := h cell (Exec.toOption_eq_some.mpr hcell)
      obtain ⟨n, hn, hget⟩ := vectorGet_eq_ok.mp hcell
      rw [hn]
      exact hcells n cell hget hvalue
  | link | look => trivial
  | place | extend => cases hchecked

end stands

namespace SharedTable

variable {ι : Type}

def Quiet (s : SharedTable ι) : Prop :=
  (∀ c, (s.caller c).resting = true) ∧ s.grower.resting = true

/-- The workers are parked when the vectors are replaced. -/
def Parks (s : SharedTable ι) : Command ι → Prop
  | .grow => s.Designed
  | _ => True

/-- The condition on the growth: no `add` takes an index into the new vectors that is of use for the
old ones only. -/
def Outlasts (s : SharedTable ι) : Command ι → Prop
  | .grow => ∀ job ∈ s.grower.resizes, ∀ c, (s.caller (some c)).Outlasts s.table job.newSize
  | _ => True

/-- `itemsMutexes` has been replaced, and `size` has not. -/
def exchanging (s : SharedTable ι) : Bool :=
  match s.grower with
  | .storing _ | .installing _ | .resizing _ => true
  | _ => false

/-- The size that the cells of the table are for. -/
def cellSize (s : SharedTable ι) : ℕ :=
  match s.grower with
  | .resizing job => job.newSize
  | _ => s.table.size

structure Placed (s : SharedTable ι) : Prop where
  gate : s.Gate
  barred : s.exchanging = true →
    ∀ c, (s.caller (some c)).working = true → s.parking.thread (some c) ≠ .outside
  cells : Homed s.table.items s.cellSize
  job : ∀ job, s.grower.job = some job → job.Homed
  stands : ∀ c, (s.caller c).Stands s.table s.grower

theorem new_placed (n : ℕ) : (new (.new n) : SharedTable ι).Placed where
  gate := new_gate _
  barred h := by cases h
  cells := createNewVector_homed n n
  job _ h := by cases h
  stands _ := trivial

theorem Placed.homed {s : SharedTable ι} (hs : s.Placed) (hquiet : s.Quiet) :
    Homed s.table.items s.table.size := by
  have hcells := hs.cells
  rw [cellSize] at hcells
  obtain ⟨_, hgrower⟩ := hquiet
  split at hcells
  · rename_i job hresizing
    rw [hresizing] at hgrower
    cases hgrower
  · exact hcells

/-! ### Runs -/

variable [DecidableEq ι] {s t : SharedTable ι}

/-- A check that the growth has shut does not end before the growth opens it. -/
theorem Gate.check_ne_outside (hs : s.Gate) (hshut : s.shut = true) {c : ι}
    {parking : Parking (Option ι)} (h : s.parking.work (some c) = some parking) :
    parking.thread (some c) ≠ .outside ∧
      ∀ d, d ≠ c → parking.thread (some d) = s.parking.thread (some d) := by
  have hmutex : s.parking.increaseInProcessMutex ≠ none := by
    rw [hs.mutex (.inl hshut)]
    exact Option.some_ne_none none
  have hwaits := hs.waits (hs.opened_eq_false (.inl hshut)) c
  obtain ⟨p, _, hp, hthread, _⟩ := Parking.work_waiting hmutex hwaits h
  rw [hthread]
  constructor
  · rw [Function.update_self]
    exact hp (hs.flag.trans hshut)
  · intro d hd
    exact Function.update_of_ne (fun h => hd (Option.some.inj h)) ..

omit [DecidableEq ι] in
theorem shut_of_exchanging (h : s.exchanging = true) : s.shut = true := by
  rw [exchanging] at h
  rw [shut]
  cases hgrower : s.grower with
  | storing | installing | resizing => rfl
  | _ =>
      rw [hgrower] at h
      cases h

omit [DecidableEq ι] in
theorem cellSize_of_not_exchanging (h : s.exchanging = false) : s.cellSize = s.table.size := by
  rw [exchanging] at h
  rw [cellSize]
  cases hgrower : s.grower with
  | resizing job =>
      rw [hgrower] at h
      cases h
  | _ => rfl

omit [DecidableEq ι] in
theorem resizes_of_not_exchanging (h : s.exchanging = false) : s.grower.resizes = none := by
  rw [exchanging] at h
  cases hgrower : s.grower with
  | resizing job =>
      rw [hgrower] at h
      cases h
  | _ => rfl

omit [DecidableEq ι] in
/-- Between the replacements only the calls that come to read `size` have steps. -/
theorem Placed.sizing_of_exchanging (hs : s.Placed) (hexchanging : s.exchanging = true)
    {c : ι} (houtside : s.parking.thread (some c) = .outside) {result : HashTable × Caller}
    (hmove : (s.caller (some c)).move s.table = some result) :
    result.1 = s.table ∧ result.2.checks = true ∧ result.2.Stands s.table s.grower := by
  have hidle : (s.caller (some c)).working ≠ true :=
    fun hworking => hs.barred hexchanging c hworking houtside
  have hstands := hs.stands (some c)
  cases hcaller : s.caller (some c) with
  | idle | returned | got =>
      rw [hcaller] at hmove
      cases hmove
  | sizing access =>
      rw [hcaller] at hmove hstands
      cases hmove
      exact ⟨rfl, rfl, sizing_stands hstands⟩
  | _ =>
      rw [hcaller] at hidle
      exact absurd rfl hidle

theorem Placed.stands_set (hs : s.Placed) {c : Option ι} {T : HashTable} {p : Caller}
    (hsize : T.size = s.table.size)
    (hheaded : s.grower.resizes = none → ∀ index, s.table.Headed index → T.Headed index)
    (hp : p.Stands T s.grower) (d : Option ι) :
    ((s.set c T p).caller d).Stands (s.set c T p).table (s.set c T p).grower := by
  by_cases hdc : d = c
  · rw [hdc, set_caller_self]
    exact hp
  · rw [set_caller_ne s hdc]
    exact (hs.stands d).mono hsize id fun hnow => ⟨hnow, hheaded hnow⟩

theorem Placed.work (hs : s.Placed) {c : Option ι} (h : s.work c = some t) : t.Placed := by
  have hgrower := work_grower h
  have hgate := hs.gate.work h
  have hjob : ∀ job, t.grower.job = some job → job.Homed := by
    rw [hgrower]
    exact hs.job
  have hexchanging : t.exchanging = s.exchanging := by rw [exchanging, exchanging, hgrower]
  cases work_result h with
  | @checked parking hchecks hparking =>
      refine ⟨hgate, fun hbarred d hd => ?_, hs.cells, hjob, hs.stands⟩
      rw [hexchanging] at hbarred
      have hshut := shut_of_exchanging hbarred
      cases c with
      | some c =>
          obtain ⟨hne, hothers⟩ := hs.gate.check_ne_outside hshut hparking
          by_cases hdc : d = c
          · rw [hdc]
            exact hne
          · show parking.thread (some d) ≠ .outside
            rw [hothers d hdc]
            exact hs.barred hbarred d hd
      | none =>
          obtain ⟨rest, hrest⟩ := hs.gate.adding_of_work h
          rw [exchanging, hrest] at hbarred
          cases hbarred
  | @moved result hcheck hmove =>
      cases hnow : s.exchanging with
      | true =>
          cases c with
          | some c =>
              have houtside := hs.gate.outside_of_move hcheck hmove
              obtain ⟨htable, hchecks, hstands⟩ := hs.sizing_of_exchanging hnow houtside hmove
              rw [← htable] at hstands
              refine ⟨hgate, fun _ d hd => ?_, ?_, hjob, hs.stands_set (by rw [htable])
                (fun _ _ hindex => htable ▸ hindex) hstands⟩
              · show (if result.2.checks then s.parking.set (some c) .testing
                  else s.parking).thread (some d) ≠ .outside
                rw [if_pos hchecks]
                by_cases hdc : some d = some c
                · rw [hdc, Parking.set_thread_self]
                  simp
                · rw [Parking.set_thread_ne _ hdc]
                  rw [set_caller_ne s hdc] at hd
                  exact hs.barred hnow d hd
              · show Homed result.1.items (cellSize (s.set (some c) result.1 result.2))
                rw [htable]
                exact hs.cells
          | none =>
              obtain ⟨rest, hrest⟩ := hs.gate.adding_of_work h
              rw [exchanging, hrest] at hnow
              cases hnow
      | false =>
          have hcells := hs.cells
          rw [cellSize_of_not_exchanging hnow] at hcells
          obtain ⟨hhouses, hstands⟩ :=
            (hs.stands c).move hcells (resizes_of_not_exchanging hnow) hmove
          refine ⟨hgate, fun hbarred => ?_, ?_, hjob,
            hs.stands_set hhouses.size (fun _ => hhouses.headed) hstands⟩
          · rw [hexchanging, hnow] at hbarred
            cases hbarred
          · rw [cellSize_of_not_exchanging (hexchanging.trans hnow)]
            exact hhouses.homed

omit [DecidableEq ι] in
theorem Placed.keep (hs : s.Placed) (hgate : t.Gate) (hitems : t.table.items = s.table.items)
    (hsize : t.table.size = s.table.size) (hnow : s.exchanging = false)
    (hexchanging : t.exchanging = false) (hjob : ∀ job, t.grower.job = some job → job.Homed)
    (hstands : ∀ c, (t.caller c).Stands t.table t.grower) : t.Placed where
  gate := hgate
  barred h := by
    rw [hexchanging] at h
    cases h
  cells := by
    have hcells := hs.cells
    rw [cellSize_of_not_exchanging hnow] at hcells
    rw [cellSize_of_not_exchanging hexchanging, hitems, hsize]
    exact hcells
  job := hjob
  stands := hstands

omit [DecidableEq ι] in
theorem Placed.stands_grow (hs : s.Placed) {T : HashTable} {g : Grower}
    (hitems : T.items = s.table.items) (hsize : T.size = s.table.size)
    (hresizes : s.grower.resizes = none) (hearly : g.early = true → s.grower.early = true)
    (c : Option ι) : (s.caller c).Stands T g := by
  refine (hs.stands c).mono hsize hearly fun _ => ⟨hresizes, fun index hindex cell hcell => ?_⟩
  rw [hsize]
  exact hindex cell (hitems ▸ hcell)

omit [DecidableEq ι] in
/-- At the store of `size` a call stands at the check, or is in no section. -/
theorem Placed.locating_of_exchanging (hs : s.Placed) (hexchanging : s.exchanging = true)
    (c : Option ι) : (∀ T g, (s.caller c).Stands T g) ∨
      ∃ d access index, c = some d ∧ s.caller c = .locating access index := by
  have hstands := hs.stands c
  cases hcaller : s.caller c with
  | idle | returned | got => exact .inl fun _ _ => trivial
  | sizing access =>
      rw [hcaller] at hstands
      cases access with
      | find | look => exact .inl fun _ _ => trivial
      | _ => exact hstands.elim
  | _ =>
      cases c with
      | none =>
          obtain ⟨rest, hgrower⟩ := hs.gate.adder (by rw [hcaller]; rfl)
          rw [exchanging, hgrower] at hexchanging
          cases hexchanging
      | some d =>
          have hchecks := hs.gate.linked d (hs.barred hexchanging d (by rw [hcaller]; rfl))
          rw [hcaller] at hchecks
          first
          | exact .inr ⟨d, _, _, rfl, rfl⟩
          | cases hchecks

theorem Placed.grow (hs : s.Placed) (hparks : s.Designed) (houtlasts : s.Outlasts .grow)
    (h : s.grow = some t) : t.Placed := by
  have hgate := hs.gate.grow h
  cases grow_result h with
  | parked hgrower _ _ =>
      have hnow : s.exchanging = false := by
        rw [exchanging]
        cases hg : s.grower with
        | storing | installing | resizing =>
            rw [hg] at hgrower
            cases hgrower
        | _ => rfl
      exact hs.keep hgate rfl rfl hnow hnow hs.job hs.stands
  | @moved p hready hp hjob =>
      have hnow : s.exchanging = false := by
        have hclear := (hs.gate.ready hready).2.2.1
        cases hexchanging : s.exchanging with
        | false => rfl
        | true =>
            rw [shut_of_exchanging hexchanging] at hclear
            cases hclear
      refine hs.keep hgate rfl rfl hnow ?_ (fun job hj => (hjob job hj).homed hs.job)
        (hs.stands_grow rfl rfl (resizes_of_not_exchanging hnow) fun _ => ?_)
      · cases p with
        | storing | installing | resizing => cases hp
        | _ => rfl
      · rcases hready with hplain | ⟨⟨job, i, hgrower⟩, _⟩
        · cases hg : s.grower with
          | opening | readding | returned =>
              rw [hg] at hplain
              cases hplain
          | _ => rfl
        · rw [hgrower]
          rfl
  | @opened job hgrower hp =>
      have hstopped := hparks (by rw [hgrower, hp]; rfl)
      refine ⟨hgate, fun _ c hc houtside => ?_, ?_, fun job hj => hs.job job ?_,
        hs.stands_grow rfl rfl (by rw [hgrower]; rfl) fun _ => by rw [hgrower]; rfl⟩
      · have hparked := hstopped c hc
        rw [show s.parking.thread (some c) = .outside from houtside] at hparked
        cases hparked
      · have hcells := hs.cells
        rw [cellSize, hgrower] at hcells
        exact hcells
      · rw [hgrower]
        exact hj
  | stored hgrower =>
      refine ⟨hgate, fun _ => hs.barred (by rw [exchanging, hgrower]), ?_,
        fun job hj => hs.job job ?_,
        hs.stands_grow rfl rfl (by rw [hgrower]; rfl) fun _ => by rw [hgrower]; rfl⟩
      · have hcells := hs.cells
        rw [cellSize, hgrower] at hcells
        exact hcells
      · rw [hgrower]
        exact hj
  | @installed job hgrower =>
      have hjob := hs.job job (by rw [hgrower]; rfl)
      refine ⟨hgate, fun _ => hs.barred (by rw [exchanging, hgrower]), hjob,
        fun job' hj => hs.job job' ?_, fun c => (hs.stands c).mono rfl
          (fun _ => by rw [hgrower]; rfl) (by rintro ⟨⟩)⟩
      rw [hgrower]
      exact hj
  | @resized job hgrower =>
      have hcells := hs.cells
      rw [cellSize, hgrower] at hcells
      refine ⟨hgate, (by rintro ⟨⟩), hcells, fun job' hj => hs.job job' ?_, fun c => ?_⟩
      · rw [hgrower]
        exact hj
      · rcases hs.locating_of_exchanging (by rw [exchanging, hgrower]) c with
          hstands | ⟨d, access, index, rfl, hcaller⟩
        · exact hstands _ _
        · have hstands := hs.stands (some d)
          have hnext := houtlasts job (by rw [hgrower]; rfl) d
          rw [hcaller] at hstands hnext
          show (s.caller (some d)).Stands _ _
          rw [hcaller]
          exact hnext.stands hstands (by rw [hgrower]; rfl) hcells
  | cleared hgrower _ | finished hgrower _ =>
      refine hs.keep hgate rfl rfl ?_ rfl (fun job hj => by cases hj)
        (hs.stands_grow rfl rfl (by rw [hgrower]; rfl) (by rintro ⟨⟩))
      rw [exchanging, hgrower]
  | @readded hi rest hgrower _ =>
      refine hs.keep hgate rfl rfl ?_ rfl (fun job hj => by cases hj) fun c => ?_
      · rw [exchanging, hgrower]
      · by_cases hc : c = none
        · rw [hc, set_caller_self]
          trivial
        · rw [set_caller_ne _ hc]
          exact hs.stands_grow rfl rfl (by rw [hgrower]; rfl) (by rintro ⟨⟩) c

theorem Placed.step (hs : s.Placed) {c : Command ι} (hparks : s.Parks c) (houtlasts : s.Outlasts c)
    (h : s.step c = some t) : t.Placed := by
  have hgate := hs.gate.step h
  cases c with
  | add c key value | get c key =>
      obtain ⟨_, rfl⟩ := call_eq_some.mp h
      refine ⟨hgate, fun hbarred d hd => ?_, hs.cells, hs.job,
        hs.stands_set rfl (fun _ _ hindex => hindex) trivial⟩
      by_cases hdc : some d = some c
      · rw [hdc, set_caller_self] at hd
        cases hd
      · rw [set_caller_ne s hdc] at hd
        exact hs.barred hbarred d hd
  | work c => exact hs.work h
  | increaseTable =>
      obtain ⟨hgrower, rfl⟩ := increaseTable_eq_some.mp h
      refine hs.keep hgate rfl rfl ?_ rfl (fun job hj => by cases hj)
        (hs.stands_grow rfl rfl (by rw [hgrower]; rfl) fun _ => by rw [hgrower]; rfl)
      rw [exchanging, hgrower]
  | grow => exact hs.grow hparks houtlasts h
  | setBusyThreadCount busyThreadCount =>
      cases h
      exact ⟨hgate, hs.barred, hs.cells, hs.job, hs.stands⟩

/-- If no `add` takes an index through the growth that is of use for the old vectors only, every
index of a write is that of its key, and the cells keep to the hashes of their keys. -/
theorem run_homed {n : ℕ} {cs : List (Command ι)}
    (hcs : Machine.Meets SharedTable.step (fun s c => s.Parks c ∧ s.Outlasts c) (new (.new n)) cs)
    (hrun : Machine.run SharedTable.step (new (.new n)) cs = some s) (hquiet : s.Quiet) :
    Homed s.table.items s.table.size :=
  (Machine.run_invariant_of_meets Placed (fun _ _ _ hs hc h => hs.step hc.1 hc.2 h)
    (new_placed n) hcs hrun).homed hquiet

/-! ### An insertion around a growth -/

instance [Fintype ι] (s : SharedTable ι) : Decidable s.Stopped := Fintype.decidableForallFintype

instance [Fintype ι] (s : SharedTable ι) : ∀ c, Decidable (s.Parks c)
  | .grow => inferInstanceAs (Decidable (_ → s.Stopped))
  | .add _ _ _ | .get _ _ | .work _ | .increaseTable | .setBusyThreadCount _ => isTrue trivial

instance (T : HashTable) (newSize : ℕ) : ∀ p : Caller, Decidable (p.Outlasts T newSize)
  | .locating (.find _) _ => inferInstanceAs (Decidable (_ = _))
  | .locating (.collide _) _ | .locating (.merge _ _) _ =>
      inferInstanceAs (Decidable (∀ _ ∈ _, _))
  | .locating (.place _) _ | .locating (.extend _ _) _ | .locating (.link _ _) _
  | .locating (.look _) _ | .idle | .sizing _ | .capping _ _ | .accessing _ _ _
  | .testing _ _ _ _ | .weighing _ _ _ | .limiting _ _ _ _ | .tallying _ | .tallied _ _
  | .charging _ | .charged _ _ | .following _ _ _ | .counting _ _ _ | .paying _ _ _
  | .pushing _ _ | .crediting _ | .returned _ | .looking _ _ | .got _ => isTrue trivial

instance [Fintype ι] (s : SharedTable ι) : ∀ c, Decidable (s.Outlasts c)
  | .grow => Option.decidableForallMem s.grower.resizes
  | .add _ _ _ | .get _ _ | .work _ | .increaseTable | .setBusyThreadCount _ => isTrue trivial

instance [Fintype ι] (s : SharedTable ι) : Decidable s.Quiet :=
  inferInstanceAs (Decidable ((∀ _, _) ∧ _))

/-- One cell has a head and an entry behind it, which becomes the head of the new cell. When the
growth comes, a third `add` is in `handleCollision`, and a fourth is to find its cell. -/
def across : List (Command Bool) :=
  .setBusyThreadCount 2 :: .add false [97] [[49]] :: List.replicate 12 (.work (some false)) ++
    .add false [99] [[50]] :: List.replicate 12 (.work (some false)) ++
    .add false [101] [[51]] :: List.replicate 5 (.work (some false)) ++
    .add true [103] [[52]] :: .work (some true) :: .increaseTable :: List.replicate 15 .grow ++
    List.replicate 3 (.work (some false)) ++ List.replicate 3 (.work (some true)) ++
    List.replicate 11 .grow ++
    List.replicate 10 (.work (some false)) ++ List.replicate 17 (.work (some true))

theorem across_homed : ∃ s : SharedTable Bool,
    Machine.run SharedTable.step (new (.new 2)) across = some s ∧ s.table.size = 4 ∧
      Homed s.table.items s.table.size := by
  have hmeets : Machine.Meets SharedTable.step (fun s c => s.Parks c ∧ s.Outlasts c)
      (new (.new 2)) across := by decide +kernel
  have hrun : (Machine.run SharedTable.step (new (.new 2)) across).map
      (fun s => (s.table.size, decide s.Quiet)) = some (4, true) := by decide +kernel
  obtain ⟨s, hs, hstate⟩ := Option.map_eq_some_iff.mp hrun
  rw [Prod.mk.injEq, decide_eq_true_eq] at hstate
  exact ⟨s, hs, hstate.1, run_homed hmeets hs hstate.2⟩

/-- One call reads `size`, parks for the growth, and goes on behind it. -/
def around (key : WString) : List (Command Unit) :=
  [.setBusyThreadCount 1, .add () key [[49]], .work (some ()), .increaseTable] ++
    List.replicate 13 .grow ++ List.replicate 3 (.work (some ())) ++ List.replicate 10 .grow ++
    List.replicate 14 (.work (some ()))

/-- The cell is that of the key for the size before the growth only. -/
theorem around_not_homed : ¬ ∀ (ι : Type) [DecidableEq ι] (n : ℕ)
    (cs : List (Command ι)) (s : SharedTable ι),
    Machine.Meets SharedTable.step Parks (new (.new n)) cs →
      Machine.run SharedTable.step (new (.new n)) cs = some s → s.Quiet →
        Homed s.table.items s.table.size := by
  intro h
  have hparks : Machine.Meets SharedTable.step Parks (new (.new 2)) (around [97]) := by decide
  have hrun : (Machine.run SharedTable.step (new (.new 2)) (around [97])).map
      (fun s => (s.table.size, s.table.items[0]?, decide s.Quiet)) =
        some (4, some ⟨[97], [[49]], 1, -1⟩, true) := by decide
  obtain ⟨s, hs, hstate⟩ := Option.map_eq_some_iff.mp hrun
  rw [Prod.mk.injEq, Prod.mk.injEq, decide_eq_true_eq] at hstate
  obtain ⟨hsize, hcell, hquiet⟩ := hstate
  have hhome := h Unit 2 (around [97]) s hparks hs hquiet 0 _ hcell (by decide)
  rw [hsize] at hhome
  exact absurd hhome (by decide)

end SharedTable

end IndexServer
