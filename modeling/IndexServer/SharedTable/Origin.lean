import IndexServer.SharedTable.Placement
import IndexServer.SharedTable.Races

/-!
# Where elements come from

Any number of calls of `add` and `get` and one growth, in any interleaving: nothing is assumed of
the counts that the handshake goes by, and the vectors may be replaced in the middle of calls, as
long as no access runs at the same time. What a call loses or misplaces then is another matter; it
makes nothing up. Every element that the vectors or the variables of a thread hold was there at
first or was passed to a call of `add`.
-/

namespace IndexServer

variable {P : WString → Prop}

def HashItem.Stems (P : WString → Prop) (item : HashItem) : Prop := ∀ x ∈ item.value, P x

theorem HashItem.Stems.extend {item : HashItem} {value more : List WString}
    (hvalue : ∀ x ∈ value, P x) (hmore : ∀ x ∈ more, P x) :
    HashItem.Stems P { item with value := extendVector value more } :=
  fun x hx => (List.mem_append.mp hx).elim (hvalue x) (hmore x)

theorem stems_set {v : List HashItem} (hv : ∀ cell ∈ v, cell.Stems P) {n : ℕ} {cell : HashItem}
    (hcell : cell.Stems P) : ∀ c ∈ v.set n cell, c.Stems P := by
  intro c hc
  rcases List.mem_or_eq_of_mem_set hc with hold | rfl
  · exact hv c hold
  · exact hcell

theorem stems_of_vectorGet {v : List HashItem} (hv : ∀ cell ∈ v, cell.Stems P) {i : Int}
    {cell : HashItem} (hcell : vectorGet v i = .ok cell) : cell.Stems P := by
  obtain ⟨n, _, hn⟩ := vectorGet_eq_ok.mp hcell
  exact hv cell (List.mem_of_getElem? hn)

/-! ### The table -/

namespace HashTable

structure Stems (P : WString → Prop) (T : HashTable) : Prop where
  items : ∀ cell ∈ T.items, cell.Stems P
  colisions : ∀ entry ∈ T.colisions, entry.Stems P

variable {T T' : HashTable} {index mutexIndex : Int}

theorem Stems.modifyCellAt (h : T.Stems P) {f : HashItem → HashItem}
    (hf : ∀ cell, cell.Stems P → (f cell).Stems P)
    (hrun : T.modifyCellAt index mutexIndex f = .ok T') : T'.Stems P := by
  obtain ⟨_, n, cell, _, hcell, rfl⟩ := modifyCellAt_eq_ok hrun
  exact ⟨stems_set h.items (hf cell (h.items cell (List.mem_of_getElem? hcell))), h.colisions⟩

theorem Stems.getLoop (h : T.Stems P) {key : WString} {fuel : ℕ} {item : HashItem}
    {found : List WString} (hitem : item.Stems P)
    (hrun : getLoop T.colisions key fuel item = .ok found) : ∀ x ∈ found, P x := by
  induction fuel generalizing item with
  | zero => cases hrun
  | succ fuel ih =>
      rw [HashTable.getLoop] at hrun
      split at hrun
      · cases hrun
        exact hitem
      · split at hrun
        · cases hrun
          exact List.forall_mem_nil _
        · obtain ⟨entry, hentry, hrun⟩ := Exec.bind_eq_ok.mp hrun
          exact ih (stems_of_vectorGet h.colisions hentry) hrun

theorem Stems.get (h : T.Stems P) {key : WString} {found : List WString}
    (hrun : T.get key = .ok found) : ∀ x ∈ found, P x := by
  obtain ⟨cell, hread, hrun⟩ := Exec.bind_eq_ok.mp hrun
  obtain ⟨⟨⟩, _, hcell⟩ := Exec.bind_eq_ok.mp hread
  split at hrun
  · exact h.getLoop (stems_of_vectorGet h.items hcell) hrun
  · cases hrun
    exact List.forall_mem_nil _

structure Growth.Stems (P : WString → Prop) (g : Growth) : Prop where
  newItemsVector : ∀ cell ∈ g.newItemsVector, cell.Stems P
  tmpColisions : ∀ entry ∈ g.tmpColisions, entry.Stems P

theorem Growth.Stems.place {g g' : Growth} (h : g.Stems P) {newSize : ℕ} {item : HashItem}
    (hitem : item.Stems P) (hrun : g.place newSize item = .ok g') : g'.Stems P := by
  obtain ⟨currentItem, hcurrent, hrun⟩ := Exec.bind_eq_ok.mp hrun
  have hcurrent := stems_of_vectorGet h.newItemsVector hcurrent
  split at hrun
  · split at hrun
    · cases hrun
      refine ⟨h.newItemsVector, fun entry hentry => ?_⟩
      rcases List.mem_append.mp hentry with hold | hnew
      · exact h.tmpColisions entry hold
      · exact List.mem_singleton.mp hnew ▸ hitem
    · obtain ⟨items, hitems, hrun⟩ := Exec.bind_eq_ok.mp hrun
      cases hrun
      obtain ⟨n, _, rfl⟩ := vectorSet_eq_ok hitems
      exact ⟨stems_set h.newItemsVector
        (fun x hx => (List.mem_append.mp hx).elim (hcurrent x) (hitem x)), h.tmpColisions⟩
  · obtain ⟨items, hitems, hrun⟩ := Exec.bind_eq_ok.mp hrun
    cases hrun
    obtain ⟨n, _, rfl⟩ := vectorSet_eq_ok hitems
    exact ⟨stems_set h.newItemsVector hitem, h.tmpColisions⟩

end HashTable

/-! ### The calls -/

def Access.Stems (P : WString → Prop) : Access → Prop
  | .find item | .place item | .collide item | .link item _ => item.Stems P
  | .extend item currentItem | .merge item currentItem => item.Stems P ∧ currentItem.Stems P
  | .look _ => True

/-- The variables of a call and what it has returned. -/
def Caller.Stems (P : WString → Prop) : Caller → Prop
  | .sizing access | .locating access _ | .capping access _ | .accessing access _ _ =>
      access.Stems P
  | .testing item _ _ currentItem | .counting item _ currentItem | .paying item _ currentItem =>
      item.Stems P ∧ currentItem.Stems P
  | .weighing item _ _ | .limiting item _ _ _ | .following item _ _ | .pushing item _ =>
      item.Stems P
  | .got value => ∀ x ∈ value, P x
  | .idle | .tallying _ | .tallied _ _ | .charging _ | .charged _ _ | .crediting _ | .returned _
  | .looking _ _ => True

variable {T T' : HashTable} {p q : Caller}

theorem walk_stems {item currentItem : HashItem} {index : Int} (hitem : item.Stems P)
    (hcurrent : currentItem.Stems P) : (Caller.walk item index currentItem).Stems P := by
  rw [Caller.walk]
  split
  · exact ⟨hitem, hcurrent⟩
  · split
    · exact hitem
    · exact hitem

theorem search_stems {key : WString} {item : HashItem} (hitem : item.Stems P) :
    (Caller.search key item).Stems P := by
  rw [Caller.search]
  split
  · exact hitem
  · split
    · exact List.forall_mem_nil _
    · trivial

theorem Access.Stems.perform {access : Access} {index mutexIndex : Int} (h : access.Stems P)
    (hT : T.Stems P) (hrun : access.perform T index mutexIndex = .ok (T', q)) :
    T'.Stems P ∧ q.Stems P := by
  cases access with
  | find item =>
      obtain ⟨cell, hread, hrun⟩ := Exec.bind_eq_ok.mp hrun
      cases hrun
      exact ⟨hT, h, stems_of_vectorGet hT.items (HashTable.readCellAt_eq_ok.mp hread).2⟩
  | place item =>
      obtain ⟨T₁, hmodify, hrun⟩ := Exec.bind_eq_ok.mp hrun
      cases hrun
      exact ⟨hT.modifyCellAt (fun _ _ => h) hmodify, trivial⟩
  | extend item currentItem | merge item currentItem =>
      obtain ⟨T₁, hmodify, hrun⟩ := Exec.bind_eq_ok.mp hrun
      cases hrun
      exact ⟨hT.modifyCellAt (fun _ _ => .extend h.2 h.1) hmodify, trivial⟩
  | collide item =>
      obtain ⟨cell, hread, hrun⟩ := Exec.bind_eq_ok.mp hrun
      cases hrun
      exact ⟨hT, walk_stems h
        (stems_of_vectorGet hT.items (HashTable.readCellAt_eq_ok.mp hread).2)⟩
  | link item colisionSize =>
      obtain ⟨T₁, hmodify, hrun⟩ := Exec.bind_eq_ok.mp hrun
      cases hrun
      exact ⟨hT.modifyCellAt (f := fun cell => { cell with next := colisionSize - 1 })
        (fun _ hcell => hcell) hmodify, trivial⟩
  | look key =>
      obtain ⟨cell, hread, hrun⟩ := Exec.bind_eq_ok.mp hrun
      cases hrun
      refine ⟨hT, ?_⟩
      split
      · exact search_stems
          (stems_of_vectorGet hT.items (HashTable.readCellAt_eq_ok.mp hread).2)
      · exact List.forall_mem_nil _

/-- An access copies elements and makes none. -/
theorem Caller.Stems.move (h : p.Stems P) (hT : T.Stems P) (hmove : p.move T = some (T', q)) :
    T'.Stems P ∧ q.Stems P := by
  cases p with
  | idle | returned | got => cases hmove
  | sizing | capping | weighing | tallying | charging =>
      cases hmove
      exact ⟨hT, h⟩
  | locating =>
      cases hmove
      refine ⟨hT, ?_⟩
      split
      · exact h
      · exact h
  | accessing => exact Access.Stems.perform h hT (Exec.toOption_eq_some.mp hmove)
  | testing item index mutexIndex currentItem =>
      cases hmove
      refine ⟨hT, ?_⟩
      split
      · trivial
      · split
        · exact h.1
        · split
          · exact h
          · exact h.1
  | limiting item index mutexIndex count =>
      cases hmove
      refine ⟨hT, ?_⟩
      split
      · trivial
      · exact h
  | tallied | charged | crediting =>
      cases hmove
      exact ⟨⟨hT.items, hT.colisions⟩, trivial⟩
  | following item index next =>
      obtain ⟨currentItem, hfound, hresult⟩ := Option.map_eq_some_iff.mp hmove
      cases hresult
      exact ⟨hT, h, stems_of_vectorGet hT.colisions (Exec.toOption_eq_some.mp hfound)⟩
  | counting =>
      cases hmove
      exact ⟨⟨hT.items, hT.colisions⟩, h⟩
  | paying item index currentItem =>
      cases hmove
      exact ⟨⟨hT.items, hT.colisions⟩, walk_stems h.1 h.2⟩
  | pushing item index =>
      cases hmove
      refine ⟨⟨hT.items, fun entry hentry => ?_⟩, h⟩
      rcases List.mem_append.mp hentry with hold | hnew
      · exact hT.colisions entry hold
      · exact List.mem_singleton.mp hnew ▸ h
  | looking key next =>
      obtain ⟨item, hfound, hresult⟩ := Option.map_eq_some_iff.mp hmove
      cases hresult
      exact ⟨hT, search_stems (stems_of_vectorGet hT.colisions (Exec.toOption_eq_some.mp hfound))⟩

/-! ### The growth -/

/-- The entries that a growth has still to add. -/
def Grower.pending : Grower → List HashItem
  | .readding tmpColisions => tmpColisions
  | _ => []

/-- What a growth has copied, and what it has still to add. -/
structure Grower.Stems (P : WString → Prop) (g : Grower) : Prop where
  job : ∀ job, g.job = some job → job.growth.Stems P
  pending : ∀ hi ∈ g.pending, hi.Stems P

theorem stems_of_none {g : Grower} (hjob : g.job = none) (hpending : g.pending = []) :
    g.Stems P where
  job job h := by
    cases hjob.symm.trans h
  pending := by
    rw [hpending]
    exact List.forall_mem_nil _

theorem stems_of_job {g : Grower} {job : Job} (hjob : g.job = some job) (hpending : g.pending = [])
    (h : job.growth.Stems P) : g.Stems P where
  job job' hjob' := by
    cases hjob.symm.trans hjob'
    exact h
  pending := by
    rw [hpending]
    exact List.forall_mem_nil _

theorem scan_stems {job : Job} (h : job.growth.Stems P) (i : ℕ) : (Grower.scan job i).Stems P := by
  rw [Grower.scan]
  split
  · exact stems_of_job rfl rfl h
  · exact stems_of_job rfl rfl h

theorem collect_stems {job : Job} (h : job.growth.Stems P) (i colisionsSize : ℕ) :
    (Grower.collect job i colisionsSize).Stems P := by
  rw [Grower.collect]
  split
  · exact stems_of_job rfl rfl h
  · exact stems_of_job rfl rfl h

namespace SharedTable

variable {ι : Type} {s t : SharedTable ι} {c : Option ι}

structure Stems (P : WString → Prop) (s : SharedTable ι) : Prop where
  table : s.table.Stems P
  caller : ∀ c, (s.caller c).Stems P
  grower : s.grower.Stems P

variable [DecidableEq ι]

theorem Stems.set (hs : s.Stems P) (hT : T.Stems P) (hp : p.Stems P) :
    (s.set c T p).Stems P := by
  refine ⟨hT, fun d => ?_, hs.grower⟩
  by_cases hdc : d = c
  · rw [hdc, set_caller_self]
    exact hp
  · rw [set_caller_ne s hdc]
    exact hs.caller d

theorem Stems.work (hs : s.Stems P) (h : s.work c = some t) : t.Stems P := by
  cases work_result h with
  | checked => exact ⟨hs.table, hs.caller, hs.grower⟩
  | moved _ hmove =>
      obtain ⟨hT, hp⟩ := (hs.caller c).move hs.table hmove
      exact hs.set hT hp

theorem Stems.call (hs : s.Stems P) {access : Access} (haccess : access.Stems P)
    (h : s.call c access = some t) : t.Stems P := by
  obtain ⟨_, rfl⟩ := call_eq_some.mp h
  exact hs.set hs.table haccess

theorem Stems.park (hs : s.Stems P) (h : s.park = some t) : t.Stems P := by
  obtain ⟨parking, _, rfl⟩ := Option.map_eq_some_iff.mp h
  exact ⟨hs.table, hs.caller, hs.grower⟩

theorem Stems.setGrower (hs : s.Stems P) {g : Grower} (hg : g.Stems P) :
    (s.setGrower g).Stems P :=
  ⟨hs.table, hs.caller, hg⟩

theorem Stems.grow (hs : s.Stems P) (h : s.grow = some t) : t.Stems P := by
  have hgrower := hs.grower
  rw [SharedTable.grow] at h
  cases hg : s.grower with
  | idle | returned =>
      rw [hg] at h
      cases h
  | starting =>
      rw [hg] at h
      cases h
      refine hs.setGrower ?_
      split
      · exact stems_of_none rfl rfl
      · exact stems_of_none rfl rfl
  | sizing oldSize =>
      rw [hg] at h
      cases h
      refine hs.setGrower (scan_stems ⟨fun cell hcell => ?_, List.forall_mem_nil _⟩ 0)
      rw [List.eq_of_mem_replicate hcell]
      exact List.forall_mem_nil _
  | scanning job i =>
      rw [hg] at h hgrower
      simp only at h
      split at h
      · cases h
        refine hs.setGrower ?_
        split
        · exact stems_of_job rfl rfl (hgrower.job job rfl)
        · exact stems_of_job rfl rfl (hgrower.job job rfl)
      · exact hs.park h
  | capping job i =>
      rw [hg] at h hgrower
      cases h
      exact hs.setGrower (stems_of_job rfl rfl (hgrower.job job rfl))
  | copying job i mutexIndex =>
      rw [hg] at h hgrower
      obtain ⟨item, hread, h⟩ := Exec.bind_eq_ok.mp (Exec.toOption_eq_some.mp h)
      obtain ⟨job', hscanned, h⟩ := Exec.bind_eq_ok.mp h
      cases h
      refine hs.setGrower (scan_stems ?_ (i + 1))
      have hitem := stems_of_vectorGet hs.table.items (HashTable.readCellAt_eq_ok.mp hread).2
      rw [Job.scanned] at hscanned
      split at hscanned
      · cases hscanned
        exact hgrower.job job rfl
      · obtain ⟨growth, hplace, hscanned⟩ := Exec.bind_eq_ok.mp hscanned
        cases hscanned
        exact (hgrower.job job rfl).place hitem hplace
  | measuring job =>
      rw [hg] at h hgrower
      cases h
      exact hs.setGrower (collect_stems (hgrower.job job rfl) 0 _)
  | collecting job i colisionsSize =>
      rw [hg] at h hgrower
      obtain ⟨item, hread, h⟩ := Exec.bind_eq_ok.mp (Exec.toOption_eq_some.mp h)
      obtain ⟨job', hcollected, h⟩ := Exec.bind_eq_ok.mp h
      cases h
      refine hs.setGrower (collect_stems ?_ (i + 1) colisionsSize)
      obtain ⟨growth, hplace, hcollected⟩ := Exec.bind_eq_ok.mp hcollected
      cases hcollected
      have hitem : item.Stems P := stems_of_vectorGet hs.table.colisions hread
      have hunlinked : HashItem.Stems P { item with next := -1 } := hitem
      exact (hgrower.job job rfl).place hunlinked hplace
  | gating job =>
      rw [hg] at h hgrower
      simp only at h
      split at h
      · cases h
        exact ⟨⟨hs.table.items, hs.table.colisions⟩, hs.caller,
          stems_of_job rfl rfl (hgrower.job job rfl)⟩
      · exact hs.park h
  | storing job =>
      rw [hg] at h hgrower
      cases h
      exact ⟨⟨hs.table.items, hs.table.colisions⟩, hs.caller,
        stems_of_job rfl rfl (hgrower.job job rfl)⟩
  | installing job =>
      rw [hg] at h hgrower
      cases h
      exact ⟨⟨(hgrower.job job rfl).newItemsVector, hs.table.colisions⟩, hs.caller,
        stems_of_job rfl rfl (hgrower.job job rfl)⟩
  | resizing job =>
      rw [hg] at h hgrower
      cases h
      exact ⟨⟨hs.table.items, hs.table.colisions⟩, hs.caller,
        stems_of_job rfl rfl (hgrower.job job rfl)⟩
  | opening job =>
      rw [hg] at h hgrower
      simp only at h
      split at h
      · cases h
        refine ⟨⟨hs.table.items, List.forall_mem_nil _⟩, hs.caller, fun job' hjob => ?_, ?_⟩
        · cases hjob
        · exact (hgrower.job job rfl).tmpColisions
      · exact hs.park h
  | readding tmpColisions =>
      rw [hg] at h hgrower
      simp only at h
      split at h
      · cases tmpColisions with
        | nil =>
            cases h
            exact hs.setGrower (stems_of_none rfl rfl)
        | cons hi rest =>
            have hall := hgrower.pending
            have hrest : (Grower.readding rest).Stems P := by
              refine ⟨fun job hjob => ?_, fun item hitem => ?_⟩
              · cases hjob
              · exact hall item (List.mem_cons_of_mem hi hitem)
            have hfirst : (Access.find (HashTable.newItem hi.key hi.value)).Stems P :=
              hall hi List.mem_cons_self
            exact (hs.setGrower hrest).call hfirst h
      · cases h

/-! ### Runs -/

def Command.Passes (P : WString → Prop) : Command ι → Prop
  | .add _ _ value => ∀ x ∈ value, P x
  | _ => True

theorem Stems.step (hs : s.Stems P) {a : Command ι} (ha : a.Passes P) (h : s.step a = some t) :
    t.Stems P := by
  cases a with
  | add c key value =>
      have haccess : (Access.find (HashTable.newItem key value)).Stems P := ha
      exact hs.call haccess h
  | get c key =>
      have haccess : (Access.look key).Stems P := trivial
      exact hs.call haccess h
  | work c => exact hs.work h
  | increaseTable =>
      obtain ⟨_, rfl⟩ := increaseTable_eq_some.mp h
      exact hs.setGrower (stems_of_none rfl rfl)
  | grow => exact hs.grow h
  | setBusyThreadCount =>
      cases h
      exact ⟨hs.table, hs.caller, hs.grower⟩

/-- The table had the element at first, or a call of `add` was given it. -/
def Stored (T : HashTable) (cs : List (Command ι)) (x : WString) : Prop :=
  (∃ item ∈ T.items ++ T.colisions, x ∈ item.value) ∨
    ∃ c key value, Command.add c key value ∈ cs ∧ x ∈ value

omit [DecidableEq ι] in
theorem new_stems {T : HashTable}
    (hT : ∀ item ∈ T.items ++ T.colisions, item.Stems P) : (new T : SharedTable ι).Stems P where
  table := ⟨fun cell hcell => hT cell (List.mem_append_left _ hcell),
    fun entry hentry => hT entry (List.mem_append_right _ hentry)⟩
  caller _ := trivial
  grower := stems_of_none rfl rfl

/-- As long as no two accesses race, a lookup returns nothing that was not stored. -/
theorem run_stored {T : HashTable} {cs : List (Command ι)}
    (hraces : Machine.Meets SharedTable.step (fun s _ => ¬ s.Races) (new T) cs)
    (hreach : Machine.MayReach SharedTable.step Races (new T) cs s) :
    (∀ c found, s.caller c = .got found → ∀ x ∈ found, Stored T cs x) ∧
      (s.Quiet → ∀ key found, s.table.get key = .ok found → ∀ x ∈ found, Stored T cs x) := by
  have hmeets : Machine.Meets SharedTable.step (fun _ a => Command.Passes (Stored T cs) a) (new T)
      cs := by
    refine Machine.meets_label fun a ha => ?_
    cases a with
    | add c key value => exact fun x hx => .inr ⟨c, key, value, ha, hx⟩
    | _ => trivial
  have hnew : (new T : SharedTable ι).Stems (Stored T cs) :=
    new_stems fun item hitem x hx => .inl ⟨item, hitem, hx⟩
  have hs := Machine.run_invariant_of_meets (Stems (Stored T cs))
    (fun _ _ _ hs ha h => hs.step ha h) hnew hmeets (hreach.run hraces)
  refine ⟨fun c found hgot => ?_, fun _ key found hget => hs.table.get hget⟩
  have hcaller := hs.caller c
  rw [hgot] at hcaller
  exact hcaller

/-- The vectors are replaced in the middle of an insertion that nobody waits for: it has copied its
cell, and goes on behind the growth. -/
def replaced : List (Command Unit) :=
  .add () [99] [[49]] :: List.replicate 4 (.work (some ())) ++ .increaseTable ::
    List.replicate 21 .grow ++ List.replicate 8 (.work (some ())) ++ .get () [99] ::
    List.replicate 4 (.work (some ()))

theorem replaced_stored : ∃ s, Machine.run SharedTable.step (new (.new 2)) replaced = some s ∧
    s.caller (some ()) = .got [[49]] ∧ Stored (.new 2) replaced [49] := by
  have hrun : (Machine.run SharedTable.step (new (.new 2)) replaced).map
      (fun s => s.caller (some ())) = some (.got [[49]]) := by decide +kernel
  have hraces : Machine.Meets SharedTable.step (fun s _ => ¬ s.Races) (new (.new 2)) replaced := by
    decide +kernel
  obtain ⟨s, hs, hgot⟩ := Option.map_eq_some_iff.mp hrun
  have hstored := (run_stored hraces (Machine.mayReach_of_run hs)).1 (some ()) _ hgot
  exact ⟨s, hs, hgot, hstored [49] List.mem_cons_self⟩

end SharedTable

end IndexServer
