import IndexServer.ThreadPool.Model

/-!
# The steps of the pool

What each step of the pool does, with what it needs: the nine forms of a step of a worker, the two
of a `notify_one`, and the commands. The proofs about runs are case analyses on these.
-/

namespace IndexServer

theorem Worker.eq_blocked {τ : Type} {p : Worker τ} (h : p.isBlocked = true) : p = .blocked := by
  cases p with
  | blocked => rfl
  | _ => cases h

namespace ThreadPool

variable {ω τ : Type} [DecidableEq ω]

/-- What the next step of a worker does. -/
inductive WorkResult (nullIndex : τ → Bool) (s : ThreadPool ω τ) (w : ω) : ThreadPool ω τ → Prop
  | started (hw : s.worker w = .starting) :
      WorkResult nullIndex s w (s.set w (if s.finish then .exited else .locking))
  | locked (hw : s.worker w = .locking ∨ s.worker w = .woken) (hfree : s.lkm.isNone = true) :
      WorkResult nullIndex s w { s.set w .sizing with lkm := some w }
  | sized (hw : s.worker w = .sizing) :
      WorkResult nullIndex s w (s.set w (.checking s.tasks.length))
  | checked {size : ℕ} (hw : s.worker w = .checking size) :
      WorkResult nullIndex s w
        (s.set w (if size = 0 ∧ s.finish = false then .dozing else .taking))
  | blocked (hw : s.worker w = .dozing) :
      WorkResult nullIndex s w { s.set w .blocked with lkm := none }
  | unlocked {task : Option τ} (hw : s.worker w = .returning task) :
      WorkResult nullIndex s w { s.set w (.received task) with lkm := none }
  | exited {task : Option τ} (hw : s.worker w = .received task)
      (hnull : task.all nullIndex = true) : WorkResult nullIndex s w (s.set w .exited)
  | called {task : τ} (hw : s.worker w = .received (some task)) :
      WorkResult nullIndex s w
        { s.set w (.handling task) with busyThreadCount := s.busyThreadCount + 1 }
  | left (hw : s.worker w = .leaving) :
      WorkResult nullIndex s w
        { s.set w .starting with busyThreadCount := s.busyThreadCount - 1 }

variable {nullIndex : τ → Bool} {s t : ThreadPool ω τ}

theorem work_result {w : ω} (h : s.work nullIndex w = some t) : s.WorkResult nullIndex w t := by
  rw [work] at h
  cases hw : s.worker w with
  | starting =>
      simp only [hw, Option.some.injEq] at h
      exact h ▸ .started hw
  | locking =>
      simp only [hw] at h
      split at h
      · cases h
        exact .locked (.inl hw) (by assumption)
      · cases h
  | woken =>
      simp only [hw] at h
      split at h
      · cases h
        exact .locked (.inr hw) (by assumption)
      · cases h
  | sizing =>
      simp only [hw, Option.some.injEq] at h
      exact h ▸ .sized hw
  | checking size =>
      simp only [hw, Option.some.injEq] at h
      exact h ▸ .checked hw
  | dozing =>
      simp only [hw, Option.some.injEq] at h
      exact h ▸ .blocked hw
  | returning task =>
      simp only [hw, Option.some.injEq] at h
      exact h ▸ .unlocked hw
  | received task =>
      cases task with
      | none =>
          simp only [hw, Option.some.injEq] at h
          exact h ▸ .exited hw rfl
      | some task =>
          simp only [hw] at h
          split at h
          · rename_i hnull
            cases h
            exact .exited hw hnull
          · cases h
            exact .called hw
  | leaving =>
      simp only [hw, Option.some.injEq] at h
      exact h ▸ .left hw
  | _ => simp only [hw, reduceCtorEq] at h

inductive NotifyResult (s : ThreadPool ω τ) : ThreadPool ω τ → Prop
  | nobody (hawake : ∀ v, (s.worker v).isBlocked = false) : NotifyResult s s
  | woken {v : ω} (hv : s.worker v = .blocked) : NotifyResult s (s.set v .woken)

variable [Fintype ω]

theorem notify_result {target : Option ω} (h : s.notifyOne target = some t) :
    s.NotifyResult t := by
  cases target with
  | none =>
      rw [notifyOne] at h
      split at h
      · rename_i hawake
        cases h
        exact .nobody hawake
      · cases h
  | some v =>
      rw [notifyOne] at h
      split at h
      · rename_i hblocked
        cases h
        exact .woken (Worker.eq_blocked hblocked)
      · cases h

inductive StepResult (nullIndex : τ → Bool) (s : ThreadPool ω τ) :
    Command ω τ → ThreadPool ω τ → Prop
  | addTask (task : τ) :
      StepResult nullIndex s (.addTask task)
        { s with tasks := s.tasks ++ [task], notifying := s.notifying + 1 }
  | notify {target : Option ω} {t : ThreadPool ω τ} (hnotifying : 0 < s.notifying)
      (h : NotifyResult { s with notifying := s.notifying - 1 } t) :
      StepResult nullIndex s (.notify target) t
  | shutdown (evenNonEmptyQueue : Bool) :
      StepResult nullIndex s (.shutdown evenNonEmptyQueue) { s with closing := s.closing + 1 }
  | finish :
      StepResult nullIndex s .finish
        { s with finish := true, closing := s.closing - 1, broadcasting := s.broadcasting + 1 }
  | notifyAll :
      StepResult nullIndex s .notifyAll
        { s with
          broadcasting := s.broadcasting - 1
          worker := fun v => if (s.worker v).isBlocked then .woken else s.worker v }
  | work {w : ω} {t : ThreadPool ω τ} (h : s.WorkResult nullIndex w t) :
      StepResult nullIndex s (.work w) t
  | take {w : ω} (hw : s.worker w = .taking) :
      StepResult nullIndex s (.take w s.tasks.getLast?)
        { s.set w (.returning s.tasks.getLast?) with tasks := s.tasks.tail }
  | handled {w : ω} {task : τ} (hw : s.worker w = .handling task) (result : Int) :
      StepResult nullIndex s (.handled w result)
        (s.set w (if result = -1 then .retrying task else .leaving))
  | retry {w : ω} {task : τ} (hw : s.worker w = .retrying task) :
      StepResult nullIndex s (.retry w task)
        { s.set w .notifying with tasks := s.tasks ++ [task] }
  | renotify {w : ω} {target : Option ω} {t : ThreadPool ω τ} (hw : s.worker w = .notifying)
      (h : (s.set w .leaving).NotifyResult t) : StepResult nullIndex s (.renotify w target) t
  | wake {w : ω} (hw : s.worker w = .blocked) :
      StepResult nullIndex s (.wake w) (s.set w .woken)

variable [DecidableEq τ]

theorem step_result {c : Command ω τ} (h : s.step nullIndex c = some t) :
    s.StepResult nullIndex c t := by
  cases c with
  | addTask task =>
      cases h
      exact .addTask task
  | notify target =>
      rw [step] at h
      split at h
      · exact .notify (by assumption) (notify_result h)
      · cases h
  | shutdown evenNonEmptyQueue =>
      rw [step] at h
      split at h
      · cases h
        exact .shutdown evenNonEmptyQueue
      · cases h
  | finish =>
      rw [step] at h
      split at h
      · cases h
        exact .finish
      · cases h
  | notifyAll =>
      rw [step] at h
      split at h
      · cases h
        exact .notifyAll
      · cases h
  | work w => exact .work (work_result h)
  | take w task =>
      rw [step] at h
      split at h
      · obtain ⟨hw, rfl⟩ := ‹s.worker w = .taking ∧ _›
        cases h
        exact .take hw
      · cases h
  | handled w result =>
      rw [step] at h
      cases hw : s.worker w with
      | handling task =>
          simp only [hw, Option.some.injEq] at h
          exact h ▸ .handled hw result
      | _ => simp only [hw, reduceCtorEq] at h
  | retry w task =>
      rw [step] at h
      split at h
      · cases h
        exact .retry (by assumption)
      · cases h
  | renotify w target =>
      rw [step] at h
      split at h
      · exact .renotify (by assumption) (notify_result h)
      · cases h
  | wake w =>
      rw [step] at h
      split at h
      · rename_i hblocked
        cases h
        exact .wake (Worker.eq_blocked hblocked)
      · cases h

end ThreadPool

end IndexServer
