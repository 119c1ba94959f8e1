import IndexServer.SharedTable.Gate

/-!
# The wait for the workers

`increaseTable` waits until as many threads are parked as `busyThreadCount` says, and that is what
the accept loop has last copied from the pool. The vectors are replaced under workers in the middle
of a call if the copy is behind the number of these calls when the wait ends, if the count of the
parked threads is wrong, or if a call begins after the wait.
-/

namespace IndexServer

/-- What the growth compares with `busyThreadCount`. -/
def Stop.compared : Stop → Option UInt32
  | .comparing n => some n
  | _ => none

def Caller.reads : Caller → Bool
  | .sizing _ => true
  | _ => false

namespace Grower

def replacing : Grower → Stop → Bool
  | .gating _, .replacing | .installing _, _ => true
  | _, _ => false

/-- The wait is over, and `items` is still to be replaced. -/
def held : Grower → Stop → Bool
  | .gating _, .replacing | .storing _, _ | .installing _, _ => true
  | _, _ => false

theorem held_of_replacing {g : Grower} {p : Stop} (h : g.replacing p = true) :
    g.held p = true := by
  cases g with
  | gating job =>
      cases p with
      | replacing => rfl
      | _ => cases h
  | installing job => rfl
  | _ => cases h

theorem shut_of_held {g : Grower} {p : Stop} (h : g.held p = true) : g.shut p = true := by
  cases g with
  | gating job =>
      cases p with
      | replacing => rfl
      | _ => cases h
  | storing job => rfl
  | installing job => rfl
  | _ => cases h

end Grower

namespace SharedTable

open Tally

variable {ι : Type}

/-- Every worker that has read `size` in a call it has not finished is parked. -/
def Stopped (s : SharedTable ι) : Prop :=
  ∀ c, (s.caller (some c)).working = true → (s.parking.thread (some c)).parked = true

/-- When `itemsMutexes` and `items` are replaced, the workers are parked. -/
def Designed (s : SharedTable ι) : Prop :=
  s.grower.replacing (s.parking.thread none) = true → s.Stopped

def held (s : SharedTable ι) : Bool := s.grower.held (s.parking.thread none)

/-- The number of workers that have read `size` in a call they have not finished. -/
def working [Fintype ι] (s : SharedTable ι) : ℕ := count Caller.working fun c => s.caller (some c)

variable [DecidableEq ι] {s t : SharedTable ι}

/-! ### The counter of parked threads -/

/-- The members of `Parking` go a step of `Parking`, or stay. -/
theorem Gate.parking_step (hs : s.Gate) {c : Command ι} (h : s.step c = some t) :
    t.parking = s.parking ∨ ∃ d, s.parking.step d = some t.parking ∧
      ∀ w, d = .work (some w) → c = .work (some w) := by
  cases c with
  | add c key value | get c key =>
      obtain ⟨_, rfl⟩ := call_eq_some.mp h
      exact .inl rfl
  | work c =>
      cases work_result h with
      | checked _ hparking =>
          refine .inr ⟨.work c, hparking, fun w hw => ?_⟩
          cases hw
          rfl
      | @moved result hcheck hmove =>
          have houtside := hs.outside_of_move hcheck hmove
          cases hp : result.2.checks with
          | true =>
              refine .inr ⟨.check c, ?_, by simp⟩
              rw [Parking.step, if_pos houtside, SharedTable.set, if_pos hp]
          | false =>
              left
              rw [SharedTable.set, if_neg (by rw [hp]; exact Bool.false_ne_true)]
  | increaseTable =>
      obtain ⟨_, rfl⟩ := increaseTable_eq_some.mp h
      exact .inl rfl
  | grow =>
      cases grow_result h with
      | parked _ _ hwork => exact .inr ⟨.work none, hwork, by simp⟩
      | @moved p hready hp _ =>
          have houtside := (hs.ready hready).2.1
          cases p with
          | scanning job i =>
              refine .inr ⟨.check none, ?_, by simp⟩
              rw [Parking.step, if_pos houtside, setGrower]
          | gating job =>
              refine .inr ⟨.grow none, ?_, by simp⟩
              rw [Parking.step, if_pos houtside, setGrower]
          | _ => exact .inl rfl
      | resized hgrower =>
          refine .inr ⟨.work none, ?_, by simp⟩
          rw [Parking.step, Parking.work, hs.replacing (by rw [hgrower]; rfl)]
      | _ => exact .inl rfl
  | setBusyThreadCount busyThreadCount =>
      cases h
      exact .inr ⟨.setBusyThreadCount busyThreadCount, rfl, by simp⟩

/-- The stores of the counter by the callers find what the caller has loaded. -/
def Counts (s : SharedTable ι) : Command ι → Prop
  | .work (some c) => s.parking.Unraced (.work (some c))
  | _ => True

omit [DecidableEq ι] in
theorem Gate.unraced (hs : s.Gate) : s.parking.Unraced (.work none) := by
  have hallows := hs.allows
  cases hp : s.parking.thread none with
  | raising n | lowering n =>
      rw [hp] at hallows
      cases hgrower : s.grower <;> rw [hgrower] at hallows <;> cases hallows
  | _ =>
      rw [Parking.Unraced, hp]
      exact ⟨by simp [Stop.loaded], by simp⟩

theorem Gate.counted (hs : s.Gate) [Fintype ι] (hcounted : s.parking.Counted) {c : Command ι}
    (hc : s.Counts c) (h : s.step c = some t) : t.parking.Counted := by
  rcases hs.parking_step h with hsame | ⟨d, hd, hwork⟩
  · rw [hsame]
    exact hcounted
  · refine hcounted.step ?_ hd
    cases d with
    | work w =>
        cases w with
        | some w =>
            cases hwork w rfl
            exact hc
        | none => exact hs.unraced
    | _ => exact trivial

/-! ### The end of the wait -/

section wait

variable [Fintype ι]

/-- The condition on a step of the table: no call reads `size` between the end of the wait and the
replacement of `items`, and the wait does not end below the number of the calls that have. -/
def Awaited (s : SharedTable ι) : Command ι → Prop
  | .work (some c) =>
      s.parking.Unraced (.work (some c)) ∧
        (s.held = true → (s.caller (some c)).reads = false)
  | .grow => ∀ n ∈ (s.parking.thread none).compared,
      ¬ n < UInt32.ofInt s.parking.busyThreadCount →
        s.working ≤ (UInt32.ofInt s.parking.busyThreadCount).toNat
  | _ => True

instance (s : SharedTable ι) : ∀ c, Decidable (s.Awaited c)
  | .work (some _) => inferInstanceAs (Decidable (_ ∧ (_ → _)))
  | .grow => Option.decidableForallMem (s.parking.thread none).compared
  | .work none | .add _ _ _ | .get _ _ | .increaseTable | .setBusyThreadCount _ => isTrue trivial

/-- What the steps of the table keep under this condition. -/
structure Halted (s : SharedTable ι) : Prop where
  gate : s.Gate
  counted : s.parking.Counted
  compared : ∀ n, s.parking.thread none = .comparing n →
    n.toNat ≤ s.parking.currentStopedThreadCount.toNat
  stopped : s.held = true → s.Stopped

omit [DecidableEq ι] in
theorem new_halted (T : HashTable) : (new T : SharedTable ι).Halted where
  gate := new_gate T
  counted := Parking.new_counted _
  compared _ h := by cases h
  stopped h := by cases h

omit [DecidableEq ι] in
theorem Halted.designed (hs : s.Halted) : s.Designed :=
  fun h => hs.stopped (Grower.held_of_replacing h)

omit [DecidableEq ι] in
/-- The wait ends when all calls that have read `size` are parked. -/
theorem Halted.all_parked (hs : s.Halted) {n : UInt32} (hn : s.parking.thread none = .comparing n)
    (hleave : ¬ n < UInt32.ofInt s.parking.busyThreadCount)
    (hworking : s.working ≤ (UInt32.ofInt s.parking.busyThreadCount).toNat) : s.Stopped := by
  have hpointwise : ∀ c, (s.parking.thread (some c)).parked.toNat ≤
      (s.caller (some c)).working.toNat := by
    intro c
    cases hparked : (s.parking.thread (some c)).parked with
    | false => exact Nat.zero_le _
    | true =>
        have hchecks : (s.caller (some c)).checks = true := by
          apply hs.gate.linked
          intro houtside
          rw [houtside] at hparked
          cases hparked
        cases hcaller : s.caller (some c) with
        | locating => exact le_rfl
        | _ =>
            rw [hcaller] at hchecks
            cases hchecks
  have hcount : s.parking.parked =
      tally (fun p : Stop => p.parked.toNat) fun c => s.parking.thread (some c) := by
    rw [Parking.parked, count, tally_option, hn]
    exact Nat.zero_add _
  have hle : s.working ≤ s.parking.parked := by
    have hbusy := UInt32.le_iff_toNat_le.mp (UInt32.not_lt.mp hleave)
    have hloaded := hs.compared n hn
    rw [hs.counted.counter] at hloaded
    omega
  rw [hcount] at hle
  intro c hc
  have hequal := eq_of_tally_le hpointwise hle c
  rw [hc] at hequal
  cases hparked : (s.parking.thread (some c)).parked with
  | true => rfl
  | false =>
      rw [hparked] at hequal
      cases hequal

omit [Fintype ι] in
/-- A parked worker stays where it is until the growth unlocks the mutex. -/
theorem Gate.work_of_parked (hs : s.Gate) (hshut : s.shut = true) {c : ι}
    (hparked : (s.parking.thread (some c)).parked = true) : s.parking.work (some c) = none := by
  have hwaits := hs.waits (hs.opened_eq_false (.inl hshut)) c
  rw [Parking.work]
  cases hp : s.parking.thread (some c) with
  | locking =>
      simp only
      rw [hs.mutex (.inl hshut)]
      exact if_neg (Option.some_ne_none none)
  | outside => rfl
  | testing | entering | raising =>
      rw [hp] at hparked
      cases hparked
  | _ =>
      rw [hp] at hwaits
      cases hwaits

omit [DecidableEq ι] [Fintype ι] in
theorem Caller.working_of_checks {p : Caller} (h : p.checks = true) : p.working = true := by
  cases p with
  | locating => rfl
  | _ => cases h

/-- Between the end of the wait and the replacement no call that has read `size` has a step. -/
theorem Halted.not_work_of_held (hs : s.Halted) (hheld : s.held = true) {c : ι}
    (hreads : (s.caller (some c)).reads = false) : s.work (some c) ≠ some t := by
  intro h
  cases work_result h with
  | checked hchecks hparking =>
      have hparked := hs.stopped hheld c (Caller.working_of_checks hchecks)
      rw [hs.gate.work_of_parked (Grower.shut_of_held hheld) hparked] at hparking
      cases hparking
  | moved hcheck hmove =>
      have hworking : (s.caller (some c)).working = true := by
        cases hcaller : s.caller (some c) with
        | idle | returned | got =>
            rw [hcaller] at hmove
            cases hmove
        | sizing access =>
            rw [hcaller] at hreads
            cases hreads
        | _ => rfl
      have hparked := hs.stopped hheld c hworking
      rw [hs.gate.outside_of_move hcheck hmove] at hparked
      cases hparked

omit [Fintype ι] in
theorem work_grower {c : Option ι} (h : s.work c = some t) : t.grower = s.grower := by
  cases work_result h with
  | checked => rfl
  | moved => rfl

omit [Fintype ι] in
theorem work_some_thread {c : ι} (h : s.work (some c) = some t) :
    t.parking.thread none = s.parking.thread none := by
  cases work_result h with
  | @checked parking _ hparking =>
      obtain ⟨p, hthread⟩ := Parking.work_thread hparking
      show parking.thread none = s.parking.thread none
      rw [hthread, Function.update_of_ne (Option.some_ne_none c).symm]
  | @moved result _ _ =>
      show (if result.2.checks then s.parking.set (some c) .testing else s.parking).thread none = _
      split
      · exact Parking.set_thread_ne _ (Option.some_ne_none c).symm _
      · rfl

theorem Halted.stopped_work (hs : s.Halted) {c : Option ι} (hc : s.Awaited (.work c))
    (h : s.work c = some t) (hheld : t.held = true) : t.Stopped := by
  rw [held, work_grower h] at hheld
  cases c with
  | some c =>
      rw [work_some_thread h] at hheld
      exact absurd h (hs.not_work_of_held hheld (hc.2 hheld))
  | none =>
      obtain ⟨rest, hgrower⟩ := hs.gate.adding_of_work h
      rw [hgrower] at hheld
      cases hheld

/-- A step of the handshake ends the wait if every call that has read `size` is parked. -/
theorem Halted.stopped_park (hs : s.Halted) (hc : s.Awaited .grow) (hparks : s.grower.parks = true)
    (hreplacing : ∀ job, s.grower = .gating job → s.parking.thread none ≠ .replacing)
    {parking : Parking (Option ι)} (hwork : s.parking.work none = some parking)
    (hheld : s.grower.held (parking.thread none) = true) : Stopped { s with parking } := by
  have hallows := hs.gate.allows
  cases hgrower : s.grower with
  | gating job =>
      have hne := hreplacing job hgrower
      rw [hgrower] at hallows hheld
      rw [Parking.work] at hwork
      cases hp : s.parking.thread none <;> simp only [hp] at hallows hwork hne
      case comparing n =>
        split at hwork
        · cases hwork
          rw [Parking.set_thread_self] at hheld
          cases hheld
        · rename_i hleave
          cases hwork
          have hstopped := hs.all_parked hp hleave (hc n (by rw [hp]; rfl) hleave)
          intro c hworking
          show ((s.parking.set none .replacing).thread (some c)).parked = true
          rw [Parking.set_thread_ne _ (Option.some_ne_none c)]
          exact hstopped c hworking
      case closing =>
        split at hwork
        · cases hwork
          change Grower.held _ ((s.parking.set none .announcing).thread none) = true at hheld
          rw [Parking.set_thread_self] at hheld
          cases hheld
        · cases hwork
      case announcing =>
        cases hwork
        change Grower.held _ ((s.parking.set none .counting).thread none) = true at hheld
        rw [Parking.set_thread_self] at hheld
        cases hheld
      case counting =>
        cases hwork
        rw [Parking.set_thread_self] at hheld
        cases hheld
      case replacing => exact absurd rfl hne
      all_goals cases hallows
  | scanning | opening =>
      rw [hgrower] at hheld
      cases hheld
  | _ =>
      rw [hgrower] at hparks
      cases hparks

theorem Halted.stopped_grow (hs : s.Halted) (hc : s.Awaited .grow) (h : s.grow = some t)
    (hheld : t.held = true) : t.Stopped := by
  cases grow_result h with
  | parked hparks hreplacing hwork => exact hs.stopped_park hc hparks hreplacing hwork hheld
  | @moved p hready hp _ =>
      cases p with
      | gating job =>
          have hclosing : (s.setGrower (.gating job)).parking.thread none = .closing :=
            Parking.set_thread_self _ none _
          rw [held, hclosing] at hheld
          cases hheld
      | storing | installing => cases hp
      | _ => cases hheld
  | opened hgrower hp =>
      apply hs.stopped
      rw [held, hgrower, hp]
      rfl
  | stored hgrower =>
      apply hs.stopped
      rw [held, hgrower]
      rfl
  | installed => cases hheld
  | resized => cases hheld
  | cleared => cases hheld
  | finished => cases hheld
  | readded => cases hheld

/-- While the growth compares, no thread counts itself out. -/
theorem Halted.counter_le (hs : s.Halted) (hshut : s.shut = true) {c : ι}
    {parking : Parking (Option ι)} (hwork : s.parking.work (some c) = some parking)
    (hcounted : parking.Counted) :
    s.parking.currentStopedThreadCount.toNat ≤ parking.currentStopedThreadCount.toNat := by
  have hfree : (s.parking.thread (some c)).parked = false := by
    cases hparked : (s.parking.thread (some c)).parked with
    | false => rfl
    | true =>
        rw [hs.gate.work_of_parked hshut hparked] at hwork
        cases hwork
  obtain ⟨p, hthread⟩ : ∃ p, parking.thread = Function.update s.parking.thread (some c) p :=
    Parking.work_thread hwork
  have hmoved := Parking.parked_update hthread
  rw [hfree] at hmoved
  rw [hs.counted.counter, hcounted.counter]
  simp only [Bool.toNat_false] at hmoved
  omega

theorem Halted.compared_step (hs : s.Halted) {c : Command ι} (hcounted : t.parking.Counted)
    (h : s.step c = some t) {n : UInt32} (hn : t.parking.thread none = .comparing n) :
    n.toNat ≤ t.parking.currentStopedThreadCount.toNat := by
  rcases hs.gate.parking_step h with hsame | ⟨d, hd, _⟩
  · rw [hsame] at hn ⊢
    exact hs.compared n hn
  have hset : ∀ w p, t.parking = s.parking.set w p → (∀ m, p ≠ .comparing m) →
      n.toNat ≤ t.parking.currentStopedThreadCount.toNat := by
    intro w p ht hp
    rw [ht] at hn ⊢
    by_cases hw : w = none
    · rw [hw, Parking.set_thread_self] at hn
      exact absurd hn (hp n)
    · rw [Parking.set_thread_ne _ (Ne.symm hw)] at hn
      exact hs.compared n hn
  cases d with
  | check w =>
      rw [Parking.step] at hd
      split at hd
      · exact hset w .testing (Option.some.inj hd).symm (by simp)
      · cases hd
  | grow w =>
      rw [Parking.step] at hd
      split at hd
      · exact hset w .closing (Option.some.inj hd).symm (by simp)
      · cases hd
  | setBusyThreadCount busyThreadCount =>
      rw [← Option.some.inj hd] at hn ⊢
      exact hs.compared n hn
  | work w =>
      cases w with
      | some w =>
          obtain ⟨p, hthread⟩ := Parking.work_thread hd
          rw [hthread, Function.update_of_ne (Option.some_ne_none w).symm] at hn
          have hshut : s.shut = true := by
            have hallows := hs.gate.allows
            rw [shut]
            rw [hn] at hallows ⊢
            cases hgrower : s.grower <;> rw [hgrower] at hallows <;> first | rfl | cases hallows
          exact (hs.compared n hn).trans (hs.counter_le hshut hd hcounted)
      | none =>
          cases Parking.work_result hd with
          | counted_in m _ hthread _ | counted_out m _ hthread _ =>
              rw [hthread, Function.update_self] at hn
              cases hn
          | moved p hthread hcount _ _ hcompared =>
              rw [hthread, Function.update_self] at hn
              rw [hcount, hcompared n hn]

theorem Halted.step (hs : s.Halted) {c : Command ι} (hc : s.Awaited c) (h : s.step c = some t) :
    t.Halted := by
  have hcounts : s.Counts c := by
    cases c with
    | work c =>
        cases c with
        | some c => exact hc.1
        | none => exact trivial
    | _ => exact trivial
  have hcounted := hs.gate.counted hs.counted hcounts h
  refine ⟨hs.gate.step h, hcounted, fun n hn => hs.compared_step hcounted h hn, fun hheld => ?_⟩
  cases c with
  | add c key value | get c key =>
      obtain ⟨_, rfl⟩ := call_eq_some.mp h
      intro d hd
      by_cases hdc : some d = some c
      · rw [hdc, set_caller_self] at hd
        cases hd
      · rw [set_caller_ne s hdc] at hd
        exact hs.stopped hheld d hd
  | work c => exact hs.stopped_work hc h hheld
  | increaseTable =>
      obtain ⟨_, rfl⟩ := increaseTable_eq_some.mp h
      cases hheld
  | grow => exact hs.stopped_grow hc h hheld
  | setBusyThreadCount busyThreadCount =>
      cases h
      exact hs.stopped hheld

end wait

end SharedTable

end IndexServer
