import IndexServer.SharedTable.Parking

/-!
# The wait of a growth

A growth that has announced itself counts the parked threads until there are as many as
`busyThreadCount` says. Whether it can get past that wait without a new call of
`checkIncreaseProcess` is decided by the number of threads that are in one: all of them can come to
the mutex and park, and no others can.
-/

namespace IndexServer

namespace Stop

def inCheck : Stop → Bool
  | .testing | .entering | .raising _ | .locking | .unlocking | .leaving | .lowering _ => true
  | _ => false

def holds : Stop → Bool
  | .unlocking | .announcing | .counting | .comparing _ | .replacing | .reopening | .releasing =>
      true
  | _ => false

/-- The growth has set the flag and not cleared it. -/
def announced : Stop → Bool
  | .counting | .comparing _ | .replacing | .reopening => true
  | _ => false

theorem holds_of_announced {p : Stop} (h : p.announced = true) : p.holds = true := by
  cases p <;> first | rfl | cases h

theorem inCheck_of_parked {p : Stop} (h : p.parked = true) : p.inCheck = true := by
  cases p <;> first | rfl | cases h

end Stop

namespace Parking

variable {ι : Type} {s t : Parking ι} {v w : ι} {p : Stop}

/-! ### The mutex and the flag -/

/-- Who holds the mutex is the one that stands behind its lock, and the flag is set while a growth
has announced itself. -/
structure Locked (s : Parking ι) : Prop where
  holder : ∀ w, (s.thread w).holds = true → s.increaseInProcessMutex = some w
  flag : ∀ w, (s.thread w).announced = true → s.increaseInProcess = true

theorem new_locked (busyThreadCount : Int) : (new busyThreadCount : Parking ι).Locked where
  holder _ h := by cases h
  flag _ h := by cases h

theorem Locked.unique (hs : s.Locked) (hw : (s.thread w).holds = true)
    (hv : (s.thread v).holds = true) : v = w :=
  Option.some.inj ((hs.holder v hv).symm.trans (hs.holder w hw))

variable [DecidableEq ι]

theorem Locked.update (hs : s.Locked) (hthread : t.thread = Function.update s.thread w p)
    (hmutex : p.holds = true → t.increaseInProcessMutex = some w)
    (hflag : p.announced = true → t.increaseInProcess = true)
    (hothers : ∀ v ≠ w, (s.thread v).holds = true →
      t.increaseInProcessMutex = s.increaseInProcessMutex ∧
        (t.increaseInProcess = s.increaseInProcess ∨ t.increaseInProcess = true)) : t.Locked where
  holder v hv := by
    rw [hthread] at hv
    by_cases hvw : v = w
    · subst hvw
      rw [Function.update_self] at hv
      exact hmutex hv
    · rw [Function.update_of_ne hvw] at hv
      rw [(hothers v hvw hv).1]
      exact hs.holder v hv
  flag v hv := by
    rw [hthread] at hv
    by_cases hvw : v = w
    · subst hvw
      rw [Function.update_self] at hv
      exact hflag hv
    · rw [Function.update_of_ne hvw] at hv
      obtain hsame | hset := (hothers v hvw (Stop.holds_of_announced hv)).2
      · rw [hsame]
        exact hs.flag v hv
      · exact hset

theorem Locked.move (hs : s.Locked) (hthread : t.thread = Function.update s.thread w p)
    (hmutex : t.increaseInProcessMutex = s.increaseInProcessMutex)
    (hflag : t.increaseInProcess = s.increaseInProcess)
    (hholds : p.holds = true → (s.thread w).holds = true)
    (hannounced : p.announced = true → (s.thread w).announced = true) : t.Locked :=
  hs.update hthread (fun hp => hmutex.trans (hs.holder w (hholds hp)))
    (fun hp => hflag.trans (hs.flag w (hannounced hp))) fun _ _ _ => ⟨hmutex, .inl hflag⟩

theorem Locked.work (hs : s.Locked) (h : s.work w = some t) : t.Locked := by
  rw [Parking.work] at h
  cases hw : s.thread w <;> simp only [hw] at h
  case outside => cases h
  case testing | comparing =>
    cases h
    split
    · exact hs.move rfl rfl rfl (by rw [hw]; exact id) (by rw [hw]; exact id)
    · exact hs.move rfl rfl rfl (by rw [hw]; exact id) (by rw [hw]; exact id)
  case entering | raising | leaving | lowering | counting | replacing =>
    cases h
    exact hs.move rfl rfl rfl (by rw [hw]; exact id) (by rw [hw]; exact id)
  case locking | closing =>
    split at h
    · rename_i hfree
      cases h
      refine hs.update rfl (fun _ => rfl) (by rintro ⟨⟩) fun v _ hv => ?_
      have hholder := hs.holder v hv
      rw [hfree] at hholder
      cases hholder
    · cases h
  case unlocking | releasing =>
    cases h
    refine hs.update rfl (by rintro ⟨⟩) (by rintro ⟨⟩) fun v hvw hv => ?_
    exact absurd (hs.unique (by rw [hw]; rfl) hv) hvw
  case announcing =>
    cases h
    exact hs.update rfl (fun _ => hs.holder w (by rw [hw]; rfl)) (fun _ => rfl)
      fun _ _ _ => ⟨rfl, .inr rfl⟩
  case reopening =>
    cases h
    refine hs.update rfl (fun _ => hs.holder w (by rw [hw]; rfl)) (by rintro ⟨⟩)
      fun v hvw hv => ?_
    exact absurd (hs.unique (by rw [hw]; rfl) hv) hvw

theorem Locked.step {c : Command ι} (hs : s.Locked) (h : s.step c = some t) : t.Locked := by
  cases c with
  | check w | grow w =>
      rw [Parking.step] at h
      split at h
      · cases h
        exact hs.move rfl rfl rfl (by rintro ⟨⟩) (by rintro ⟨⟩)
      · cases h
  | work w => exact hs.work h
  | setBusyThreadCount busyThreadCount =>
      cases h
      exact ⟨hs.holder, hs.flag⟩

/-! ### Steps of the threads that are there -/

/-- Steps of the threads that are there, each store finding what its thread has loaded. -/
def Leads (s t : Parking ι) : Prop :=
  ∃ ws : List ι, Machine.Meets step Unraced s (ws.map .work) ∧
    Machine.run step s (ws.map .work) = some t

theorem Leads.trans {u : Parking ι} (h : s.Leads t) (h' : t.Leads u) : s.Leads u := by
  obtain ⟨ws, hmeets, hrun⟩ := h
  obtain ⟨vs, hmeets', hrun'⟩ := h'
  refine ⟨ws ++ vs, ?_, ?_⟩
  · rw [List.map_append, Machine.meets_append]
    refine ⟨hmeets, fun r hr => ?_⟩
    rw [hrun] at hr
    cases hr
    exact hmeets'
  · rw [List.map_append]
    exact Machine.run_append_eq_some.mpr ⟨t, hrun, hrun'⟩

theorem leads_of_work (hc : s.Unraced (.work w)) (h : s.work w = some t) : s.Leads t :=
  ⟨[w], ⟨hc, fun _ _ => trivial⟩, Machine.run_cons_eq_some.mpr ⟨t, h, rfl⟩⟩

omit [DecidableEq ι] in
theorem unraced_of_loaded (hw : (s.thread w).loaded = none) : s.Unraced (.work w) := by
  refine ⟨fun n hn => ?_, fun hraising => ?_⟩
  · rw [hw] at hn
    cases hn
  · rw [hraising] at hw
    cases hw

theorem Quiet.update (hs : s.Quiet) (hthread : t.thread = Function.update s.thread v p)
    (hp : p.loaded = none) : t.Quiet := by
  intro u
  rw [hthread]
  by_cases huv : u = v
  · rw [huv, Function.update_self]
    exact hp
  · rw [Function.update_of_ne huv]
    exact hs u

/-! ### Who is in a check -/

section counter

open Tally

variable [Fintype ι]

def inCheck (s : Parking ι) : ℕ := count Stop.inCheck s.thread

theorem inCheck_update (hthread : t.thread = Function.update s.thread w p) :
    t.inCheck + (s.thread w).inCheck.toNat = s.inCheck + p.inCheck.toNat := by
  rw [inCheck, hthread]
  exact tally_update _ _ _ _

omit [DecidableEq ι] in
theorem parked_le_inCheck (s : Parking ι) : s.parked ≤ s.inCheck :=
  tally_le fun w => by
    cases hparked : (s.thread w).parked with
    | false => exact Nat.zero_le _
    | true => rw [Stop.inCheck_of_parked hparked]

/-- No thread comes into a check by its own steps. -/
theorem work_inCheck (h : s.work w = some t) :
    t.inCheck ≤ s.inCheck ∧ t.busyThreadCount = s.busyThreadCount := by
  have hmoved : ∀ p : Stop, (p.inCheck = true → (s.thread w).inCheck = true) →
      t.thread = Function.update s.thread w p → t.inCheck ≤ s.inCheck := by
    intro p hp hthread
    have hupdate := inCheck_update hthread
    have hle : p.inCheck.toNat ≤ (s.thread w).inCheck.toNat := by
      cases hin : p.inCheck with
      | false => exact Nat.zero_le _
      | true => rw [hp hin]
    omega
  rw [Parking.work] at h
  cases hw : s.thread w <;> simp only [hw] at h
  case outside => cases h
  case testing | comparing =>
    cases h
    refine ⟨hmoved _ ?_ rfl, rfl⟩
    rw [hw]
    split
    · exact id
    · intro hp
      cases hp
  case lowering =>
    cases h
    refine ⟨hmoved .outside ?_ rfl, rfl⟩
    intro hp
    cases hp
  case locking | closing =>
    split at h
    · cases h
      refine ⟨hmoved _ ?_ rfl, rfl⟩
      rw [hw]
      exact id
    · cases h
  all_goals
    cases h
    refine ⟨hmoved _ ?_ rfl, rfl⟩
    rw [hw]
    exact id

/-! ### A growth that cannot pass -/

/-- The growth has not got past its wait, and what it compares with is at most `N`. -/
structure Short (N : ℕ) (w : ι) (s : Parking ι) : Prop where
  counted : s.Counted
  inCheck : s.inCheck ≤ N
  busy : N < (UInt32.ofInt s.busyThreadCount).toNat
  waiting : s.thread w = .counting ∨ ∃ n, s.thread w = .comparing n ∧ n.toNat ≤ N

theorem Short.work {N : ℕ} (hs : s.Short N w) (hc : s.Unraced (.work v))
    (h : s.work v = some t) : t.Short N w := by
  obtain ⟨hle, hsame⟩ := work_inCheck h
  refine ⟨hs.counted.work hc h, hle.trans hs.inCheck, hsame ▸ hs.busy, ?_⟩
  by_cases hvw : v = w
  · subst hvw
    obtain hcounting | ⟨n, hcomparing, hn⟩ := hs.waiting
    · rw [Parking.work, hcounting] at h
      cases h
      refine .inr ⟨_, set_thread_self .., ?_⟩
      rw [hs.counted.counter]
      exact (parked_le_inCheck s).trans hs.inCheck
    · rw [Parking.work, hcomparing] at h
      cases h
      have hlt : n < UInt32.ofInt s.busyThreadCount :=
        UInt32.lt_iff_toNat_lt.mpr (hn.trans_lt hs.busy)
      rw [if_pos hlt]
      exact .inl (set_thread_self ..)
  · obtain ⟨p, hthread⟩ := work_thread h
    rw [hthread, Function.update_of_ne (Ne.symm hvw)]
    exact hs.waiting

/-! ### A growth that can pass -/

/-- A growth waits, and no thread stands between a load and a store of the counter. -/
structure Waiting (w : ι) (s : Parking ι) : Prop where
  counted : s.Counted
  locked : s.Locked
  quiet : s.Quiet
  counting : s.thread w = .counting

omit [DecidableEq ι] in
theorem Waiting.ne (hs : s.Waiting w) (hv : (s.thread v).inCheck = true) : w ≠ v := by
  rintro rfl
  rw [hs.counting] at hv
  cases hv

theorem Waiting.enters (hs : s.Waiting w) (hv : s.thread v = .testing) :
    s.Leads (s.set v .entering) ∧ (s.set v .entering).Waiting w := by
  have hflag : s.increaseInProcess = true := hs.locked.flag w (by rw [hs.counting]; rfl)
  have hstep : s.work v = some (s.set v .entering) := by
    rw [Parking.work, hv]
    dsimp only
    rw [if_pos hflag]
  have hunraced : s.Unraced (.work v) := unraced_of_loaded (by rw [hv]; rfl)
  have hne : w ≠ v := hs.ne (by rw [hv]; rfl)
  refine ⟨leads_of_work hunraced hstep, hs.counted.work hunraced hstep, hs.locked.work hstep,
    hs.quiet.update rfl rfl, (set_thread_ne s hne _).trans hs.counting⟩

theorem Waiting.parks (hs : s.Waiting w) (hv : s.thread v = .entering)
    (hroom : s.currentStopedThreadCount.toNat + 1 < 2 ^ 32) :
    ∃ t, s.Leads t ∧ t.Waiting w ∧ t.inCheck = s.inCheck ∧
      t.busyThreadCount = s.busyThreadCount ∧
      t.currentStopedThreadCount.toNat = s.currentStopedThreadCount.toNat + 1 := by
  let loaded : Parking ι := s.set v (.raising s.currentStopedThreadCount)
  let stored : Parking ι := { loaded.set v .locking with
    currentStopedThreadCount := s.currentStopedThreadCount + 1 }
  have hload : s.work v = some loaded := by
    rw [Parking.work, hv]
  have hstore : loaded.work v = some stored := by
    rw [Parking.work, show loaded.thread v = .raising s.currentStopedThreadCount from
      set_thread_self ..]
  have hunraced : s.Unraced (.work v) := unraced_of_loaded (by rw [hv]; rfl)
  have hunraced' : loaded.Unraced (.work v) := by
    rw [Unraced, show loaded.thread v = .raising s.currentStopedThreadCount from
      set_thread_self ..]
    refine ⟨fun n hn => Option.some.inj hn, fun hmax => ?_⟩
    rw [Stop.raising.inj hmax] at hroom
    exact absurd hroom (by decide)
  have hne : w ≠ v := hs.ne (by rw [hv]; rfl)
  have hthread : stored.thread = Function.update s.thread v .locking := Function.update_idem ..
  have hcount : (s.currentStopedThreadCount + 1).toNat =
      s.currentStopedThreadCount.toNat + 1 := by
    rw [UInt32.toNat_add]
    exact Nat.mod_eq_of_lt hroom
  have hin := inCheck_update hthread
  rw [hv] at hin
  refine ⟨stored, (leads_of_work hunraced hload).trans (leads_of_work hunraced' hstore),
    ⟨(hs.counted.work hunraced hload).work hunraced' hstore,
      (hs.locked.work hload).work hstore, hs.quiet.update hthread rfl, ?_⟩,
    Nat.add_right_cancel hin, rfl, hcount⟩
  rw [hthread, Function.update_of_ne hne]
  exact hs.counting

omit [DecidableEq ι] in
/-- Where not all threads in a check are parked, one of them is in front of its store. -/
theorem Waiting.exists_unparked (hs : s.Waiting w) (hlt : s.parked < s.inCheck) :
    ∃ v, s.thread v = .testing ∨ s.thread v = .entering := by
  by_contra hnone
  refine absurd hlt (Nat.not_lt.mpr (tally_le fun v => ?_))
  have hquiet := hs.quiet v
  cases hv : s.thread v
  case testing => exact absurd ⟨v, .inl hv⟩ hnone
  case entering => exact absurd ⟨v, .inr hv⟩ hnone
  case raising =>
    rw [hv] at hquiet
    cases hquiet
  all_goals exact Nat.le_refl _

/-- Enough threads park, and the comparison comes out. -/
theorem Waiting.passes (hs : s.Waiting w)
    (hbusy : (UInt32.ofInt s.busyThreadCount).toNat ≤ s.inCheck) :
    ∃ t, s.Leads t ∧ t.thread w = .replacing := by
  induction hk : (UInt32.ofInt s.busyThreadCount).toNat - s.currentStopedThreadCount.toNat
    generalizing s with
  | zero =>
      let loaded : Parking ι := s.set w (.comparing s.currentStopedThreadCount)
      have hload : s.work w = some loaded := by
        rw [Parking.work, hs.counting]
      have hat : loaded.thread w = .comparing s.currentStopedThreadCount := set_thread_self ..
      have hcompare : loaded.work w = some (loaded.set w .replacing) := by
        rw [Parking.work, hat]
        have hge : ¬ s.currentStopedThreadCount < UInt32.ofInt s.busyThreadCount := by
          rw [UInt32.lt_iff_toNat_lt]
          omega
        exact congrArg (fun p => some (loaded.set w p)) (if_neg hge)
      refine ⟨loaded.set w .replacing, ?_, set_thread_self ..⟩
      exact (leads_of_work (unraced_of_loaded (by rw [hs.counting]; rfl)) hload).trans
        (leads_of_work (unraced_of_loaded (by rw [hat]; rfl)) hcompare)
  | succ k ih =>
      have hmax := (UInt32.ofInt s.busyThreadCount).toNat_lt
      have hcounter := hs.counted.counter
      obtain ⟨v, hv⟩ := hs.exists_unparked (by omega)
      -- the thread stands in front of its load, by a step of its own if need be
      obtain ⟨u, hleads, hu, hentering, hin, hsame, hcount⟩ : ∃ u : Parking ι, s.Leads u ∧
          u.Waiting w ∧ u.thread v = .entering ∧ u.inCheck = s.inCheck ∧
          u.busyThreadCount = s.busyThreadCount ∧
          u.currentStopedThreadCount = s.currentStopedThreadCount := by
        obtain htesting | hentering := hv
        · obtain ⟨hleads, hu⟩ := hs.enters htesting
          have hin := inCheck_update (s := s) (t := s.set v .entering) (w := v) rfl
          rw [htesting] at hin
          exact ⟨_, hleads, hu, set_thread_self .., Nat.add_right_cancel hin, rfl, rfl⟩
        · exact ⟨s, ⟨[], trivial, rfl⟩, hs, hentering, rfl, rfl, rfl⟩
      obtain ⟨t, hparks, ht, hin', hsame', hcount'⟩ := hu.parks hentering (by rw [hcount]; omega)
      rw [hin] at hin'
      rw [hsame] at hsame'
      rw [hcount] at hcount'
      obtain ⟨r, hrest, hr⟩ := ih ht (by rw [hsame', hin']; exact hbusy)
        (by rw [hsame', hcount']; omega)
      exact ⟨r, (hleads.trans hparks).trans hrest, hr⟩

/-- In every run in which each store of the counter finds what its thread has loaded: a growth that
comes to count the parked threads, while no thread stands at a store, can get past its wait by
steps of the threads that are there exactly if at least `busyThreadCount` of them, as the unsigned
number it is compared as, are in `checkIncreaseProcess`. -/
theorem run_passes_iff {busyThreadCount : Int} {cs : List (Command ι)}
    (hcs : Machine.Meets step Unraced (new busyThreadCount) cs)
    (hrun : Machine.run step (new busyThreadCount) cs = some s) (hquiet : s.Quiet)
    (hw : s.thread w = .counting) :
    (∃ t, s.Leads t ∧ t.thread w = .replacing) ↔
      (UInt32.ofInt s.busyThreadCount).toNat ≤ s.inCheck := by
  have hcounted := Machine.run_invariant_of_meets Counted (fun _ _ _ hs hc h => hs.step hc h)
    (new_counted busyThreadCount) hcs hrun
  have hlocked := Machine.run_invariant_of_meets Locked (fun _ _ _ hs _ h => hs.step h)
    (new_locked busyThreadCount) hcs hrun
  constructor
  · rintro ⟨t, ⟨ws, hmeets, hleads⟩, ht⟩
    by_contra hlarge
    have hshort : s.Short s.inCheck w :=
      ⟨hcounted, le_rfl, Nat.not_le.mp hlarge, .inl hw⟩
    have hworks : Machine.Meets step (fun _ c => ∃ v, c = .work v) s (ws.map .work) :=
      Machine.meets_label fun c hc => by
        obtain ⟨v, _, rfl⟩ := List.mem_map.mp hc
        exact ⟨v, rfl⟩
    have hend : t.Short s.inCheck w := by
      refine Machine.run_invariant_of_meets (Short s.inCheck w) ?_ hshort (hmeets.and hworks)
        hleads
      rintro r _ u hr ⟨hc, v, rfl⟩ h
      exact hr.work hc h
    obtain hcounting | ⟨n, hcomparing, -⟩ := hend.waiting
    · rw [ht] at hcounting
      cases hcounting
    · rw [ht] at hcomparing
      cases hcomparing
  · intro hbusy
    exact Waiting.passes ⟨hcounted, hlocked, hquiet, hw⟩ hbusy

/-- One thread has come to its test, and the growth has announced itself: with one busy thread it
can pass. -/
def oneInCheck : List (Command Bool) :=
  [.grow true, .check false, .work true, .work true]

theorem oneInCheck_passes : ∃ s : Parking Bool,
    Machine.run step (new 1) oneInCheck = some s ∧
      ∃ t, s.Leads t ∧ t.thread true = .replacing := by
  have hmeets : Machine.Meets step Unraced (new 1 : Parking Bool) oneInCheck := by decide
  exact ⟨_, rfl, (run_passes_iff hmeets rfl (by decide) rfl).mpr (by decide)⟩

end counter

end Parking

end IndexServer
