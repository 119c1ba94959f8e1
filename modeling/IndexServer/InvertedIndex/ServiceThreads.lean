import IndexServer.InvertedIndex.Service
import Mathlib.Data.Fintype.Basic
import Mathlib.Logic.Function.Basic

/-!
# The threads that call `serviceLoop`

`serviceLoop` from its `try_lock` to its `unlock`, called on any number of threads, with the wait on
`exception` and the two calls that wake it: the `notify_one` of `add` and that of `shutdownService`.
Callers of `add` and of `shutdownService` have no state of their own between their steps, so they
are counted. Only the owner of `serviceHandle` waits, so the `notify_one` of a handler, which the
owner runs itself, wakes nobody; and `lkm` is the owner's alone.
-/

namespace IndexServer

/-- Where a caller stands in `serviceLoop`. -/
inductive Keeper where
  | trying
  | refused
  | storing
  | testing
  | sizing
  | deciding (size : ℕ)
  | dozing
  | blocked
  | woken
  | entering
  | draining (exceptionQueueSize : ℕ)
  | reading
  | selected (e : Exception)
  | handling (e : Exception)
  | popping
  | unlocking
  | returned
  deriving DecidableEq, Repr

def Keeper.inLoop : Keeper → Bool
  | .trying | .refused | .returned => false
  | _ => true

def Keeper.Counts : Keeper → Prop
  | .draining exceptionQueueSize => 0 < exceptionQueueSize
  | .reading | .selected _ | .handling _ | .popping => True
  | _ => False

theorem Keeper.Counts.inLoop {p : Keeper} (h : p.Counts) : p.inLoop = true := by
  cases p <;> first | rfl | exact h.elim

structure ServiceThreads (ι : Type) where
  serviceHandle : Option ι
  serviceFinish : Bool
  exceptionQueue : List Exception
  keeper : ι → Keeper
  /-- Calls of `add` between their push and their `notify_one`. -/
  notifying : ℕ
  /-- Calls of `shutdownService` behind their waiting loop. -/
  closing : ℕ
  /-- Calls of `shutdownService` between their store and their `notify_one`. -/
  announcing : ℕ

namespace ServiceThreads

variable {ι : Type}

def new : ServiceThreads ι where
  serviceHandle := none
  serviceFinish := false
  exceptionQueue := []
  keeper _ := .trying
  notifying := 0
  closing := 0
  announcing := 0

inductive Command (ι : Type) where
  /-- `add` pushes. -/
  | push (e : Exception)
  /-- Its `notify_one`, with the caller it wakes. -/
  | notify (target : Option ι)
  /-- A call of `shutdownService` leaves its waiting loop. -/
  | shutdownService (evenNonEmptyQueue : Bool)
  /-- It stores `FINISH`. -/
  | finish
  /-- Its `notify_one`. -/
  | announce (target : Option ι)
  /-- The next step of a caller, where it has only one. -/
  | work (i : ι)
  /-- The section that reads `exceptionQueue.back()`. -/
  | read (i : ι) (e : Exception)
  | call (i : ι) (e : Exception)
  /-- The handler pushes. -/
  | raise (i : ι) (e : Exception)
  | pop (i : ι)
  /-- `wait` wakes up without a notification. -/
  | wake (i : ι)

def Command.taker : Command ι → Option ι
  | .work i | .read i _ | .call i _ | .raise i _ | .pop i | .wake i => some i
  | _ => none

variable [DecidableEq ι]

def set (s : ServiceThreads ι) (i : ι) (p : Keeper) : ServiceThreads ι :=
  { s with keeper := Function.update s.keeper i p }

/-- `notify_one` wakes a blocked caller, if there is one. -/
def notifyOne [Fintype ι] (s : ServiceThreads ι) : Option ι → Option (ServiceThreads ι)
  | some i => if s.keeper i = .blocked then some (s.set i .woken) else none
  | none => if ∀ i, s.keeper i ≠ .blocked then some s else none

/-- The steps of a caller that leave nothing open. -/
def work (s : ServiceThreads ι) (i : ι) : Option (ServiceThreads ι) :=
  match s.keeper i with
  | .trying =>
      match s.serviceHandle with
      | none => some { s.set i .storing with serviceHandle := some i }
      | some _ => some (s.set i .refused)
  | .storing => some { s.set i .testing with serviceFinish := false }
  | .testing => some (s.set i (if s.serviceFinish then .unlocking else .sizing))
  | .sizing => some (s.set i (.deciding s.exceptionQueue.length))
  | .deciding size =>
      some (s.set i (if size = 0 ∧ s.serviceFinish = false then .dozing else .entering))
  | .dozing => some (s.set i .blocked)
  | .woken => some (s.set i .sizing)
  | .entering => some (s.set i (.draining s.exceptionQueue.length))
  | .draining exceptionQueueSize =>
      some (s.set i (if 0 < exceptionQueueSize then .reading else .testing))
  | .handling _ => some (s.set i .popping)
  | .unlocking => some { s.set i .returned with serviceHandle := none }
  | _ => none

def step [Fintype ι] (s : ServiceThreads ι) : Command ι → Option (ServiceThreads ι)
  | .push e =>
      if e.raisedByAdd then
        some { s with exceptionQueue := s.exceptionQueue ++ [e], notifying := s.notifying + 1 }
      else none
  | .notify target =>
      if 0 < s.notifying then { s with notifying := s.notifying - 1 }.notifyOne target else none
  | .shutdownService evenNonEmptyQueue =>
      if evenNonEmptyQueue = true ∨ s.exceptionQueue = [] then
        some { s with closing := s.closing + 1 }
      else none
  | .finish =>
      if 0 < s.closing then
        some { s with
          serviceFinish := true
          closing := s.closing - 1
          announcing := s.announcing + 1 }
      else none
  | .announce target =>
      if 0 < s.announcing then { s with announcing := s.announcing - 1 }.notifyOne target else none
  | .work i => s.work i
  | .read i e =>
      if s.keeper i = .reading ∧ s.exceptionQueue.getLast? = some e then
        some (s.set i (.selected e))
      else none
  | .call i e => if s.keeper i = .selected e then some (s.set i (.handling e)) else none
  | .raise i e' =>
      match s.keeper i with
      | .handling e =>
          if e.raises = some e' then
            some { s.set i .popping with exceptionQueue := s.exceptionQueue ++ [e'] }
          else none
      | _ => none
  | .pop i =>
      if s.keeper i = .popping ∧ s.exceptionQueue ≠ [] then
        some { s.set i (.draining s.exceptionQueue.tail.length) with
          exceptionQueue := s.exceptionQueue.tail }
      else none
  | .wake i => if s.keeper i = .blocked then some (s.set i .woken) else none

/-! ### What a step does -/

/-- What the next step of a caller does. -/
inductive WorkResult (s : ServiceThreads ι) (i : ι) : ServiceThreads ι → Prop
  | taken (hi : s.keeper i = .trying) (hfree : s.serviceHandle = none) :
      WorkResult s i { s.set i .storing with serviceHandle := some i }
  | refused (hi : s.keeper i = .trying) : WorkResult s i (s.set i .refused)
  | stored (hi : s.keeper i = .storing) :
      WorkResult s i { s.set i .testing with serviceFinish := false }
  | tested (hi : s.keeper i = .testing) :
      WorkResult s i (s.set i (if s.serviceFinish then .unlocking else .sizing))
  | sized (hi : s.keeper i = .sizing) :
      WorkResult s i (s.set i (.deciding s.exceptionQueue.length))
  | decided {size : ℕ} (hi : s.keeper i = .deciding size) :
      WorkResult s i
        (s.set i (if size = 0 ∧ s.serviceFinish = false then .dozing else .entering))
  | blocked (hi : s.keeper i = .dozing) : WorkResult s i (s.set i .blocked)
  | again (hi : s.keeper i = .woken) : WorkResult s i (s.set i .sizing)
  | entered (hi : s.keeper i = .entering) :
      WorkResult s i (s.set i (.draining s.exceptionQueue.length))
  | drained {exceptionQueueSize : ℕ} (hi : s.keeper i = .draining exceptionQueueSize) :
      WorkResult s i (s.set i (if 0 < exceptionQueueSize then .reading else .testing))
  | quiet {e : Exception} (hi : s.keeper i = .handling e) : WorkResult s i (s.set i .popping)
  | unlocked (hi : s.keeper i = .unlocking) :
      WorkResult s i { s.set i .returned with serviceHandle := none }

inductive NotifyResult (s : ServiceThreads ι) : ServiceThreads ι → Prop
  | nobody (hawake : ∀ i, s.keeper i ≠ .blocked) : NotifyResult s s
  | woken {i : ι} (hi : s.keeper i = .blocked) : NotifyResult s (s.set i .woken)

inductive StepResult (s : ServiceThreads ι) : Command ι → ServiceThreads ι → Prop
  | push {e : Exception} (he : e.raisedByAdd) :
      StepResult s (.push e)
        { s with exceptionQueue := s.exceptionQueue ++ [e], notifying := s.notifying + 1 }
  | notify {target : Option ι} {t : ServiceThreads ι}
      (h : NotifyResult { s with notifying := s.notifying - 1 } t) : StepResult s (.notify target) t
  | shutdownService (evenNonEmptyQueue : Bool) :
      StepResult s (.shutdownService evenNonEmptyQueue) { s with closing := s.closing + 1 }
  | finish :
      StepResult s .finish
        { s with
          serviceFinish := true
          closing := s.closing - 1
          announcing := s.announcing + 1 }
  | announce {target : Option ι} {t : ServiceThreads ι}
      (h : NotifyResult { s with announcing := s.announcing - 1 } t) :
      StepResult s (.announce target) t
  | work {i : ι} {t : ServiceThreads ι} (h : s.WorkResult i t) : StepResult s (.work i) t
  | read {i : ι} {e : Exception} (hi : s.keeper i = .reading)
      (hback : s.exceptionQueue.getLast? = some e) :
      StepResult s (.read i e) (s.set i (.selected e))
  | call {i : ι} {e : Exception} (hi : s.keeper i = .selected e) :
      StepResult s (.call i e) (s.set i (.handling e))
  | raise {i : ι} {e e' : Exception} (hi : s.keeper i = .handling e)
      (hraises : e.raises = some e') :
      StepResult s (.raise i e')
        { s.set i .popping with exceptionQueue := s.exceptionQueue ++ [e'] }
  | pop {i : ι} (hi : s.keeper i = .popping) (hqueue : s.exceptionQueue ≠ []) :
      StepResult s (.pop i)
        { s.set i (.draining s.exceptionQueue.tail.length) with
          exceptionQueue := s.exceptionQueue.tail }
  | wake {i : ι} (hi : s.keeper i = .blocked) : StepResult s (.wake i) (s.set i .woken)

variable {s t : ServiceThreads ι} {c : Command ι} {i : ι}

theorem work_result (h : s.work i = some t) : s.WorkResult i t := by
  rw [work] at h
  cases hi : s.keeper i with
  | trying =>
      cases hhandle : s.serviceHandle with
      | none =>
          simp only [hi, hhandle, Option.some.injEq] at h
          exact h ▸ .taken hi hhandle
      | some j =>
          simp only [hi, hhandle, Option.some.injEq] at h
          exact h ▸ .refused hi
  | storing =>
      simp only [hi, Option.some.injEq] at h
      exact h ▸ .stored hi
  | testing =>
      simp only [hi, Option.some.injEq] at h
      exact h ▸ .tested hi
  | sizing =>
      simp only [hi, Option.some.injEq] at h
      exact h ▸ .sized hi
  | deciding size =>
      simp only [hi, Option.some.injEq] at h
      exact h ▸ .decided hi
  | dozing =>
      simp only [hi, Option.some.injEq] at h
      exact h ▸ .blocked hi
  | woken =>
      simp only [hi, Option.some.injEq] at h
      exact h ▸ .again hi
  | entering =>
      simp only [hi, Option.some.injEq] at h
      exact h ▸ .entered hi
  | draining exceptionQueueSize =>
      simp only [hi, Option.some.injEq] at h
      exact h ▸ .drained hi
  | handling e =>
      simp only [hi, Option.some.injEq] at h
      exact h ▸ .quiet hi
  | unlocking =>
      simp only [hi, Option.some.injEq] at h
      exact h ▸ .unlocked hi
  | refused | blocked | reading | selected | popping | returned =>
      simp only [hi, reduceCtorEq] at h

variable [Fintype ι]

theorem notify_result {target : Option ι} (h : s.notifyOne target = some t) : s.NotifyResult t := by
  cases target with
  | none =>
      rw [notifyOne] at h
      split at h
      · next hawake =>
          cases h
          exact .nobody hawake
      · cases h
  | some j =>
      rw [notifyOne] at h
      split at h
      · next hblocked =>
          cases h
          exact .woken hblocked
      · cases h

theorem step_result (h : s.step c = some t) : s.StepResult c t := by
  cases c with
  | push e =>
      rw [step] at h
      split at h
      · next he =>
          cases h
          exact .push he
      · cases h
  | notify target =>
      rw [step] at h
      split at h
      · exact .notify (notify_result h)
      · cases h
  | shutdownService evenNonEmptyQueue =>
      rw [step] at h
      split at h
      · cases h
        exact .shutdownService evenNonEmptyQueue
      · cases h
  | finish =>
      rw [step] at h
      split at h
      · cases h
        exact .finish
      · cases h
  | announce target =>
      rw [step] at h
      split at h
      · exact .announce (notify_result h)
      · cases h
  | work i => exact .work (work_result h)
  | read i e =>
      rw [step] at h
      split at h
      · next hread =>
          cases h
          exact .read hread.1 hread.2
      · cases h
  | call i e =>
      rw [step] at h
      split at h
      · next hi =>
          cases h
          exact .call hi
      · cases h
  | raise i e' =>
      rw [step] at h
      split at h
      · next hi =>
          split at h
          · next hraises =>
              cases h
              exact .raise hi hraises
          · cases h
      · cases h
  | pop i =>
      rw [step] at h
      split at h
      · next hpop =>
          cases h
          exact .pop hpop.1 hpop.2
      · cases h
  | wake i =>
      rw [step] at h
      split at h
      · next hi =>
          cases h
          exact .wake hi
      · cases h

/-! ### One caller at a time -/

/-- Whoever is in the loop owns `serviceHandle`, and what the owner has counted is still there. -/
structure Owned (s : ServiceThreads ι) : Prop where
  inLoop : ∀ i, (s.keeper i).inLoop = true ↔ s.serviceHandle = some i
  counts : ∀ i, (s.keeper i).Counts → s.exceptionQueue ≠ []

omit [DecidableEq ι] [Fintype ι] in
theorem new_owned : (new : ServiceThreads ι).Owned where
  inLoop i := iff_of_false Bool.false_ne_true (by simp [new])
  counts i h := h.elim

omit [Fintype ι] in
theorem Owned.move (hs : s.Owned) {p : Keeper} (hi : (s.keeper i).inLoop = true)
    (hp : p.inLoop = true) (hkeeper : t.keeper = Function.update s.keeper i p)
    (hhandle : t.serviceHandle = s.serviceHandle) (hcounts : p.Counts → t.exceptionQueue ≠ []) :
    t.Owned where
  inLoop j := by
    rw [hkeeper, hhandle, ← hs.inLoop j]
    by_cases hji : j = i
    · rw [hji, Function.update_self, hp, hi]
    · rw [Function.update_of_ne hji]
  counts j hj := by
    rw [hkeeper] at hj
    by_cases hji : j = i
    · rw [hji, Function.update_self] at hj
      exact hcounts hj
    · rw [Function.update_of_ne hji] at hj
      have hboth := ((hs.inLoop j).mp hj.inLoop).symm.trans ((hs.inLoop i).mp hi)
      exact absurd (Option.some.inj hboth) hji

omit [Fintype ι] in
theorem Owned.cross (hs : s.Owned) {p : Keeper} (hi : ∀ j, s.serviceHandle = some j → j = i)
    (hp : p.inLoop = true ↔ t.serviceHandle = some i)
    (hhandle : ∀ j, t.serviceHandle = some j → j = i) (hcounts : ¬ p.Counts)
    (hkeeper : t.keeper = Function.update s.keeper i p) : t.Owned where
  inLoop j := by
    rw [hkeeper]
    by_cases hji : j = i
    · rw [hji, Function.update_self]
      exact hp
    · rw [Function.update_of_ne hji, hs.inLoop j]
      exact iff_of_false (fun h => hji (hi j h)) fun h => hji (hhandle j h)
  counts j hj := by
    rw [hkeeper] at hj
    by_cases hji : j = i
    · rw [hji, Function.update_self] at hj
      exact absurd hj hcounts
    · rw [Function.update_of_ne hji] at hj
      exact absurd (hi j ((hs.inLoop j).mp hj.inLoop)) hji

omit [Fintype ι] in
theorem Owned.work (hs : s.Owned) (h : s.WorkResult i t) : t.Owned := by
  cases h with
  | taken hi hfree =>
      refine hs.cross (p := .storing) ?_ (iff_of_true rfl rfl) ?_ id rfl
      · intro j hj
        rw [hfree] at hj
        cases hj
      · rintro j ⟨⟩
        rfl
  | refused hi =>
      have hout : (s.keeper i).inLoop = false := by rw [hi]; rfl
      refine ⟨fun j => ?_, fun j hj => ?_⟩
      · show (Function.update s.keeper i .refused j).inLoop = true ↔ s.serviceHandle = some j
        by_cases hji : j = i
        · rw [hji, Function.update_self, ← hs.inLoop i, hout]
          exact Iff.rfl
        · rw [Function.update_of_ne hji]
          exact hs.inLoop j
      · have hcounts : (Function.update s.keeper i Keeper.refused j).Counts := hj
        by_cases hji : j = i
        · rw [hji, Function.update_self] at hcounts
          exact hcounts.elim
        · rw [Function.update_of_ne hji] at hcounts
          exact hs.counts j hcounts
  | stored hi => exact hs.move (p := .testing) (by rw [hi]; rfl) rfl rfl rfl fun h => h.elim
  | tested hi =>
      refine hs.move (by rw [hi]; rfl) ?_ rfl rfl ?_
      · split <;> rfl
      · intro h
        split at h <;> exact h.elim
  | sized hi => exact hs.move (by rw [hi]; rfl) rfl rfl rfl fun h => h.elim
  | decided hi =>
      refine hs.move (by rw [hi]; rfl) ?_ rfl rfl ?_
      · split <;> rfl
      · intro h
        split at h <;> exact h.elim
  | blocked hi => exact hs.move (by rw [hi]; rfl) rfl rfl rfl fun h => h.elim
  | again hi => exact hs.move (by rw [hi]; rfl) rfl rfl rfl fun h => h.elim
  | entered hi =>
      exact hs.move (by rw [hi]; rfl) rfl rfl rfl fun h => List.length_pos_iff.mp h
  | drained hi =>
      refine hs.move (by rw [hi]; rfl) ?_ rfl rfl ?_
      · split <;> rfl
      · intro h
        split at h
        · next hpos =>
            have hcounts : (s.keeper i).Counts := by
              rw [hi]
              exact hpos
            exact hs.counts i hcounts
        · exact h.elim
  | quiet hi =>
      have hcounts : (s.keeper i).Counts := by
        rw [hi]
        trivial
      exact hs.move (by rw [hi]; rfl) rfl rfl rfl fun _ => hs.counts i hcounts
  | unlocked hi =>
      have howner : s.serviceHandle = some i := (hs.inLoop i).mp (by rw [hi]; rfl)
      refine hs.cross (p := .returned) ?_ (iff_of_false (by decide) (by simp)) ?_ id rfl
      · intro j hj
        exact Option.some.inj (hj.symm.trans howner)
      · intro j hj
        cases hj

omit [Fintype ι] in
theorem Owned.notify (hs : s.Owned) (h : s.NotifyResult t) : t.Owned := by
  cases h with
  | nobody => exact hs
  | woken hi => exact hs.move (by rw [hi]; rfl) rfl rfl rfl fun h => h.elim

theorem Owned.step (hs : s.Owned) (h : s.step c = some t) : t.Owned := by
  cases step_result h with
  | push => exact ⟨hs.inLoop, fun _ _ => by simp⟩
  | notify hresult =>
      exact Owned.notify (s := { s with notifying := s.notifying - 1 }) ⟨hs.inLoop, hs.counts⟩
        hresult
  | shutdownService | finish => exact ⟨hs.inLoop, hs.counts⟩
  | announce hresult =>
      exact Owned.notify (s := { s with announcing := s.announcing - 1 }) ⟨hs.inLoop, hs.counts⟩
        hresult
  | work hwork => exact hs.work hwork
  | @read i e hi hback =>
      exact hs.move (by rw [hi]; rfl) rfl rfl rfl fun _ =>
        List.ne_nil_of_mem (List.mem_of_getLast? hback)
  | @call i e hi =>
      have hcounts : (s.keeper i).Counts := by
        rw [hi]
        trivial
      exact hs.move (by rw [hi]; rfl) rfl rfl rfl fun _ => hs.counts i hcounts
  | raise hi =>
      exact hs.move (p := .popping) (by rw [hi]; rfl) rfl rfl rfl fun _ => by simp
  | @pop i hi =>
      exact hs.move (p := .draining s.exceptionQueue.tail.length) (by rw [hi]; rfl) rfl rfl rfl
        fun h => List.length_pos_iff.mp h
  | wake hi => exact hs.move (by rw [hi]; rfl) rfl rfl rfl fun h => h.elim

/-- Inside the loop a caller goes on, unless it is blocked in `wait`. -/
theorem Owned.goes_on (hs : s.Owned) (hi : (s.keeper i).inLoop = true)
    (hblocked : s.keeper i ≠ .blocked) : ∃ c, c.taker = some i ∧ (s.step c).isSome := by
  cases hp : s.keeper i with
  | reading =>
      obtain ⟨e, hback⟩ : ∃ e, s.exceptionQueue.getLast? = some e :=
        Option.ne_none_iff_exists'.mp
          (mt List.getLast?_eq_none_iff.mp (hs.counts i (by rw [hp]; trivial)))
      exact ⟨.read i e, rfl, by rw [ServiceThreads.step, if_pos ⟨hp, hback⟩]; rfl⟩
  | selected e => exact ⟨.call i e, rfl, by rw [ServiceThreads.step, if_pos hp]; rfl⟩
  | popping =>
      have hqueue := hs.counts i (by rw [hp]; trivial)
      exact ⟨.pop i, rfl, by rw [ServiceThreads.step, if_pos ⟨hp, hqueue⟩]; rfl⟩
  | storing | testing | sizing | deciding | dozing | woken | entering | draining | handling
  | unlocking => exact ⟨.work i, rfl, by simp [ServiceThreads.step, ServiceThreads.work, hp]⟩
  | blocked => exact absurd hp hblocked
  | trying | refused | returned =>
      rw [hp] at hi
      cases hi

/-- Whichever threads call `serviceLoop`, and whatever is pushed meanwhile: no two of them are in
the loop at once, neither `back` nor `pop` ever meets an empty queue, and whoever is in the loop
goes on until it waits. -/
theorem run_exclusive {cs : List (Command ι)} (hrun : Machine.run step new cs = some s) :
    (∀ i j, (s.keeper i).inLoop = true → (s.keeper j).inLoop = true → i = j) ∧
      (∀ i, s.keeper i = .reading ∨ s.keeper i = .popping → s.exceptionQueue ≠ []) ∧
        ∀ i, (s.keeper i).inLoop = true → s.keeper i ≠ .blocked →
          ∃ c, c.taker = some i ∧ (s.step c).isSome := by
  have hs : s.Owned := Machine.run_history (fun _ s => s.Owned) new_owned
    (fun _ _ _ _ _ hs hstep => hs.step hstep) hrun
  refine ⟨fun i j hi hj => ?_, fun i hi => ?_, fun i hi hblocked => hs.goes_on hi hblocked⟩
  · exact Option.some.inj (((hs.inLoop i).mp hi).symm.trans ((hs.inLoop j).mp hj))
  · apply hs.counts i
    rcases hi with hi | hi
    · rw [hi]
      trivial
    · rw [hi]
      trivial

/-- The second caller is refused while the first one handles an exception. -/
def secondCaller : List (Command Bool) :=
  [.work false, .work false, .push .fullTable, .work false, .work true, .work false, .work false,
    .work false, .work false, .read false .fullTable]

theorem secondCaller_exclusive : ∃ s, Machine.run step new secondCaller = some s ∧
    (∀ i j, (s.keeper i).inLoop = true → (s.keeper j).inLoop = true → i = j) ∧
      (∀ i, s.keeper i = .reading ∨ s.keeper i = .popping → s.exceptionQueue ≠ []) ∧
        ∀ i, (s.keeper i).inLoop = true → s.keeper i ≠ .blocked →
          ∃ c, c.taker = some i ∧ (s.step c).isSome := by
  obtain ⟨s, hrun⟩ : ∃ s, Machine.run step new secondCaller = some s :=
    Option.isSome_iff_exists.mp (by decide)
  exact ⟨s, hrun, run_exclusive hrun⟩

end ServiceThreads

end IndexServer
