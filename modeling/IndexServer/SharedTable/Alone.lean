import IndexServer.SharedTable.Adds
import Mathlib.Logic.Relation

/-!
# Calls on their own

A call that no growth stops and no other call interrupts does what `add` and `get` of `HashTable`
do, access by access. So every serial order of calls is one of their interleavings.
-/

namespace IndexServer

open HashTable Relation

/-! ### Accesses in a row -/

/-- One access of a call, with the table. -/
def Goes (a b : HashTable × Caller) : Prop := a.2.move a.1 = some b

section leads

variable {T T' : HashTable} {access : Access} {index mutexIndex : Int}

theorem accessing_goes (access : Access) {b : HashTable × Caller}
    (h : access.perform T index mutexIndex = .ok b) :
    Goes (T, .accessing access index mutexIndex) b := Exec.toOption_eq_some.mpr h

theorem locating_leads (T : HashTable) (access : Access) (index : Int) :
    ReflTransGen Goes (T, .locating access index)
      (T, .accessing access index (T.getMutexIndex index)) := by
  rw [getMutexIndex]
  by_cases hlast : index / itemsSizeOnItemsMutexRatio ≥ T.itemsMutexesSize
  · rw [if_pos hlast]
    have hcap : Goes (T, .locating access index) (T, .capping access index) := by
      simp [Goes, Caller.move, hlast]
    exact (ReflTransGen.single hcap).tail rfl
  · rw [if_neg hlast]
    refine .single ?_
    simp [Goes, Caller.move, hlast]

theorem section_leads {b : HashTable × Caller}
    (h : access.perform T index (T.getMutexIndex index) = .ok b) :
    ReflTransGen Goes (T, .locating access index) b :=
  (locating_leads T access index).tail (accessing_goes access h)

theorem walk_leads {item currentItem : HashItem} {fuel : ℕ}
    (h : handleCollisionLoop item index fuel T currentItem = .ok T') :
    ReflTransGen Goes (T, .walk item index currentItem) (T', .returned 0) := by
  induction fuel generalizing T currentItem with
  | zero => cases h
  | succ fuel ih =>
      rw [handleCollisionLoop] at h
      rw [Caller.walk]
      split at h
      · obtain ⟨T₁, hmodify, h⟩ := Exec.bind_eq_ok.mp h
        cases h
        rw [if_pos (by assumption)]
        refine (section_leads (b := (T₁, .crediting item)) ?_).tail rfl
        exact Exec.bind_eq_ok.mpr ⟨T₁, hmodify, rfl⟩
      · rw [if_neg (by assumption)]
        split at h
        · rw [if_pos (by assumption)]
          have hpush : Goes (T, .pushing item index)
              ({ T with colisions := T.colisions ++ [item] },
                .locating (.link item (T.colisions.length + 1)) index) := rfl
          refine .head hpush (section_leads ?_)
          dsimp only at h
          rw [List.length_append] at h
          exact Exec.bind_eq_ok.mpr ⟨T', h, rfl⟩
        · rw [if_neg (by assumption)]
          obtain ⟨entry, hentry, h⟩ := Exec.bind_eq_ok.mp h
          have hfollow : Goes (T, .following item index currentItem.next)
              (T, .counting item index entry) := by
            simp [Goes, Caller.move, hentry, Except.toOption]
          exact ((ReflTransGen.single hfollow).tail rfl |>.tail rfl).trans (ih h)

theorem testing_leads {item currentItem : HashItem} {code : ℕ}
    (h : (if maxCapacity ≤ T.currentCapacity + getItemCapacity item then return (T, 2)
      else if currentItem.value.length = 0 then
        if T.loadLimit ≤ T.count then return (T, 1)
        else do
          let T ← T.modifyCell index fun _ => item
          return ({ T with
            count := T.count + 1
            currentCapacity := T.currentCapacity + getItemCapacity item }, 0)
      else if item.key = currentItem.key then do
        let T ← T.modifyCell index fun cell =>
          { cell with value := extendVector currentItem.value item.value }
        return ({ T with currentCapacity := T.currentCapacity + getItemCapacity item }, 0)
      else do
        let T ← T.handleCollision item index
        return (T, 0) : Exec (HashTable × ℕ)) = .ok (T', code)) :
    ReflTransGen Goes (T, .testing item index (T.getMutexIndex index) currentItem)
      (T', .returned code) := by
  split at h
  case isTrue hcap =>
    cases h
    refine .single ?_
    simp [Goes, Caller.move, hcap]
  case isFalse hcap =>
    split at h
    case isTrue hvacant =>
      have hweigh : Goes (T, .testing item index (T.getMutexIndex index) currentItem)
          (T, .weighing item index (T.getMutexIndex index)) := by
        simp [Goes, Caller.move, hcap, hvacant]
      have hlimit : Goes (T, .weighing item index (T.getMutexIndex index))
          (T, .limiting item index (T.getMutexIndex index) T.count) := rfl
      refine .head hweigh (.head hlimit ?_)
      split at h
      case isTrue hload =>
        cases h
        refine .single ?_
        simp [Goes, Caller.move, hload]
      case isFalse hload =>
        obtain ⟨T₁, hmodify, h⟩ := Exec.bind_eq_ok.mp h
        cases h
        have hplace : Goes (T, .limiting item index (T.getMutexIndex index) T.count)
            (T, .accessing (.place item) index (T.getMutexIndex index)) := by
          simp [Goes, Caller.move, hload]
        have hfill := accessing_goes (.place item)
          (Exec.bind_eq_ok.mpr ⟨T₁, hmodify, rfl⟩)
        exact .head hplace <| .head hfill <| .head rfl <| .head rfl <| .head rfl <| .single rfl
    case isFalse hvalue =>
      split at h
      case isTrue hkey =>
        obtain ⟨T₁, hmodify, h⟩ := Exec.bind_eq_ok.mp h
        cases h
        have hextend : Goes (T, .testing item index (T.getMutexIndex index) currentItem)
            (T, .accessing (.extend item currentItem) index (T.getMutexIndex index)) := by
          simp [Goes, Caller.move, hcap, hvalue, hkey]
        have hwrite := accessing_goes (.extend item currentItem)
          (Exec.bind_eq_ok.mpr ⟨T₁, hmodify, rfl⟩)
        exact .head hextend <| .head hwrite <| .head rfl <| .single rfl
      case isFalse hkey =>
        obtain ⟨T₁, hcollision, h⟩ := Exec.bind_eq_ok.mp h
        cases h
        obtain ⟨head, hread, hwalk⟩ := Exec.bind_eq_ok.mp hcollision
        have hcollide : Goes (T, .testing item index (T.getMutexIndex index) currentItem)
            (T, .locating (.collide item) index) := by
          simp [Goes, Caller.move, hcap, hvalue, hkey]
        refine .head hcollide ((section_leads ?_).trans (walk_leads hwalk))
        exact Exec.bind_eq_ok.mpr ⟨head, hread, rfl⟩

/-- The accesses of an `add` make what `HashTable.add` makes of the table. -/
theorem add_leads {key : WString} {value : List WString} {code : ℕ}
    (h : T.add key value = .ok (T', code)) :
    ReflTransGen Goes (T, .sizing (.find (newItem key value))) (T', .returned code) := by
  obtain ⟨currentItem, hread, h⟩ := Exec.bind_eq_ok.mp h
  have hlocate : Goes (T, .sizing (.find (newItem key value)))
      (T, .locating (.find (newItem key value)) (hashFunction key T.size)) := rfl
  refine .head hlocate ((section_leads ?_).trans (testing_leads h))
  exact Exec.bind_eq_ok.mpr ⟨currentItem, hread, rfl⟩

theorem search_leads {key : WString} {item : HashItem} {fuel : ℕ} {found : List WString}
    (h : getLoop T.colisions key fuel item = .ok found) :
    ReflTransGen Goes (T, .search key item) (T, .got found) := by
  induction fuel generalizing item with
  | zero => cases h
  | succ fuel ih =>
      rw [getLoop] at h
      rw [Caller.search]
      split at h
      case isTrue hkey =>
        cases h
        rw [if_pos hkey]
      case isFalse hkey =>
        rw [if_neg hkey]
        split at h
        case isTrue hlast =>
          cases h
          rw [if_pos hlast]
        case isFalse hnext =>
          obtain ⟨entry, hentry, h⟩ := Exec.bind_eq_ok.mp h
          rw [if_neg hnext]
          have hlook : Goes (T, .looking key item.next) (T, .search key entry) := by
            simp [Goes, Caller.move, hentry, Except.toOption]
          exact .head hlook (ih h)

theorem get_leads {key : WString} {found : List WString} (h : T.get key = .ok found) :
    ReflTransGen Goes (T, .sizing (.look key)) (T, .got found) := by
  obtain ⟨item, hread, h⟩ := Exec.bind_eq_ok.mp h
  have hlocate : Goes (T, .sizing (.look key))
      (T, .locating (.look key) (hashFunction key T.size)) := rfl
  have hperform : Access.perform T (hashFunction key T.size)
      (T.getMutexIndex (hashFunction key T.size)) (.look key) =
        .ok (T, if item.value.length > 0 then .search key item else .got []) :=
    Exec.bind_eq_ok.mpr ⟨item, hread, rfl⟩
  refine .head hlocate ((section_leads hperform).trans ?_)
  split at h
  case isTrue hvalue =>
    rw [if_pos hvalue]
    exact search_leads h
  case isFalse hvacant =>
    cases h
    rw [if_neg hvacant]

end leads

/-! ### Calls one at a time -/

namespace SharedTable

variable {ι : Type} {calls : ι → WString × List WString} {s : SharedTable ι} {c : ι}
  {T T' : HashTable} {p : Caller}

/-- No growth stops a call. -/
structure Unstopped (s : SharedTable ι) : Prop where
  clear : s.parking.increaseInProcess = false
  testing : ∀ c, (s.caller (some c)).checks = true →
    s.parking.thread (some c) = .outside ∨ s.parking.thread (some c) = .testing

theorem adds_unstopped (T : HashTable) (calls : ι → WString × List WString) :
    (adds T calls).Unstopped where
  clear := rfl
  testing _ _ := .inl rfl

variable [DecidableEq ι]

theorem Unstopped.set (hs : s.Unstopped) (c : ι) (T : HashTable) (p : Caller) :
    (s.set (some c) T p).Unstopped where
  clear := by
    rw [SharedTable.set]
    split
    · exact hs.clear
    · exact hs.clear
  testing d hd := by
    by_cases hdc : d = c
    · subst hdc
      rw [set_caller_self] at hd
      simp [SharedTable.set, hd]
    · have hne : some d ≠ some c := fun heq => hdc (Option.some.inj heq)
      rw [set_caller_ne s hne] at hd
      have hthread : (s.set (some c) T p).parking.thread (some d) =
          s.parking.thread (some d) := by
        rw [SharedTable.set]
        split
        · exact Parking.set_thread_ne s.parking hne .testing
        · rfl
      rw [hthread]
      exact hs.testing d hd

/-- An access that no check is in front of is one step. -/
theorem turn_goes (hplain : ¬((s.caller (some c)).checks ∧ s.parking.thread (some c) ≠ .outside))
    (h : Goes (s.table, s.caller (some c)) (T, p)) : s.turn c = some (s.set (some c) T p) := by
  rw [turn, work, if_neg hplain]
  simp only [Goes] at h
  rw [h, Option.map_some]

/-- An access is at most two steps, of which the first is the check. -/
theorem Unstopped.goes (hs : s.Unstopped) (h : Goes (s.table, s.caller (some c)) (T, p)) :
    ∃ cs t, Machine.run turn s cs = some t ∧ t.Unstopped ∧ t.table = T ∧
      t.caller = Function.update s.caller (some c) p := by
  by_cases hcheck : (s.caller (some c)).checks ∧ s.parking.thread (some c) ≠ .outside
  · -- `increaseInProcess` is not set, so the check leads outside
    have htesting := (hs.testing c hcheck.1).resolve_left hcheck.2
    let passed : SharedTable ι := { s with parking := s.parking.set (some c) .outside }
    have hfirst : s.turn c = some passed := by
      rw [turn, work, if_pos hcheck, Parking.work, htesting]
      simp [hs.clear, passed]
    have houtside : passed.parking.thread (some c) = .outside := Parking.set_thread_self ..
    have hpassed : passed.Unstopped := by
      refine ⟨hs.clear, fun d hd => ?_⟩
      by_cases hdc : d = c
      · exact .inl (hdc ▸ houtside)
      · have hne : some d ≠ some c := fun heq => hdc (Option.some.inj heq)
        rw [show passed.parking.thread (some d) = s.parking.thread (some d) from
          Parking.set_thread_ne s.parking hne .outside]
        exact hs.testing d hd
    have hsecond : passed.turn c = some (passed.set (some c) T p) :=
      turn_goes (fun hplain => hplain.2 houtside) h
    refine ⟨[c, c], passed.set (some c) T p, ?_, hpassed.set c T p, rfl, rfl⟩
    simp [Machine.run, hfirst, hsecond]
  · have hstep := turn_goes hcheck h
    refine ⟨[c], s.set (some c) T p, ?_, hs.set c T p, rfl, rfl⟩
    simp [Machine.run, hstep]

theorem Unstopped.leads (hs : s.Unstopped)
    (h : ReflTransGen Goes (s.table, s.caller (some c)) (T, p)) :
    ∃ cs t, Machine.run turn s cs = some t ∧ t.Unstopped ∧ t.table = T ∧
      t.caller = Function.update s.caller (some c) p := by
  generalize hstart : (s.table, s.caller (some c)) = start at h
  induction h using ReflTransGen.head_induction_on generalizing s with
  | refl =>
      rw [Prod.mk.injEq] at hstart
      refine ⟨[], s, rfl, hs, hstart.1, ?_⟩
      rw [← hstart.2, Function.update_eq_self]
  | head hstep hrest ih =>
      subst hstart
      obtain ⟨cs, u, hcs, hu, htable, hcaller⟩ := hs.goes hstep
      obtain ⟨ds, t, hds, ht, htable', hcaller'⟩ := ih hu (by rw [htable, hcaller]; simp)
      refine ⟨cs ++ ds, t, Machine.run_append_eq_some.mpr ⟨u, hcs, hds⟩, ht, htable', ?_⟩
      rw [hcaller', hcaller, Function.update_idem]

/-- A call of `add` with no step of another call in between has the table and the code that
`HashTable.add` has. -/
theorem Unstopped.add {key : WString} {value : List WString} {code : ℕ} (hs : s.Unstopped)
    (hc : s.caller (some c) = .sizing (.find (newItem key value)))
    (h : s.table.add key value = .ok (T, code)) :
    ∃ cs t, Machine.run turn s cs = some t ∧ t.Unstopped ∧ t.table = T ∧
      t.caller = Function.update s.caller (some c) (.returned code) := by
  have hleads := add_leads h
  rw [← hc] at hleads
  exact hs.leads hleads

structure Served (calls : ι → WString × List WString) (order : List ι) (s : SharedTable ι) :
    Prop where
  returned : ∀ c ∈ order, ∃ code, s.caller (some c) = .returned code
  waiting : ∀ c ∉ order, s.caller (some c) = .sizing (.find (entry calls c))

theorem Served.snoc {order : List ι} {code : ℕ} {t : SharedTable ι} (hs : s.Served calls order)
    (ht : t.caller = Function.update s.caller (some c) (.returned code)) :
    t.Served calls (order ++ [c]) where
  returned d hd := by
    by_cases hdc : d = c
    · subst hdc
      exact ⟨code, by rw [ht, Function.update_self]⟩
    · have hmem : d ∈ order := by simpa [hdc] using hd
      rw [ht, Function.update_of_ne fun heq => hdc (Option.some.inj heq)]
      exact hs.returned d hmem
  waiting d hd := by
    rw [List.mem_append, List.mem_singleton, not_or] at hd
    rw [ht, Function.update_of_ne fun heq => hd.2 (Option.some.inj heq)]
    exact hs.waiting d hd.1

/-- Every serial order of the calls is one of their interleavings. -/
theorem run_serial {order : List ι} (horder : order.Nodup)
    (h : Machine.run (serial calls) T order = some T') :
    ∃ cs t, Machine.run turn (adds T calls) cs = some t ∧ t.table = T' ∧
      t.Served calls order := by
  suffices hruns : order.Nodup → ∃ cs t, Machine.run turn (adds T calls) cs = some t ∧
      t.Unstopped ∧ t.table = T' ∧ t.Served calls order by
    obtain ⟨cs, t, hrun, -, htable, hserved⟩ := hruns horder
    exact ⟨cs, t, hrun, htable, hserved⟩
  refine Machine.run_history (fun order T' => order.Nodup →
    ∃ cs t, Machine.run turn (adds T calls) cs = some t ∧ t.Unstopped ∧ t.table = T' ∧
      t.Served calls order) ?_ ?_ h
  · intro hnodup
    refine ⟨[], adds T calls, rfl, adds_unstopped T calls, rfl, ?_, fun c hc => rfl⟩
    simp
  · intro order T₁ c T₂ horder ih hadd hnodup
    rw [← List.concat_eq_append, List.nodup_concat] at hnodup
    obtain ⟨cs, s, hcs, hs, rfl, hserved⟩ := ih hnodup.2
    rw [serial, HashTable.step, Option.map_eq_some_iff] at hadd
    obtain ⟨⟨T₃, code⟩, hadd, rfl⟩ := hadd
    obtain ⟨ds, t, hds, ht, htable, hcaller⟩ :=
      hs.add (hserved.waiting c hnodup.1) (Exec.toOption_eq_some.mp hadd)
    exact ⟨cs ++ ds, t, Machine.run_append_eq_some.mpr ⟨s, hcs, hds⟩, ht, htable,
      hserved.snoc hcaller⟩

end SharedTable

end IndexServer
