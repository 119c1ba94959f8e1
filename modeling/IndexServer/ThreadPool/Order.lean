import IndexServer.ThreadPool.Steps
import IndexServer.Lib.ServiceQueue

/-!
# The order of service

A worker holds `lkm` from its reading of the length of the queue to its removal, so while `finish`
is `WORK` a removal finds a task. It returns the back of the queue and drops the front, so the tasks
are served in order, each one once, exactly if every removal meets a queue whose back is its front.
-/

namespace IndexServer

def Worker.Holds {τ : Type} : Worker τ → Prop
  | .sizing | .checking _ | .dozing | .taking | .returning _ => True
  | _ => False

def Worker.Counts {τ : Type} : Worker τ → Prop
  | .checking size => 0 < size
  | .taking => True
  | _ => False

theorem Worker.Counts.holds {τ : Type} {p : Worker τ} (h : p.Counts) : p.Holds := by
  cases p <;> trivial

namespace ThreadPool

open ServiceQueue

variable {ω τ : Type}

/-- `lkm` excludes other workers, and what a worker has counted is still there. -/
structure Exclusive (s : ThreadPool ω τ) : Prop where
  working : s.finish = false
  holds : ∀ w, (s.worker w).Holds → s.lkm = some w
  counts : ∀ w, (s.worker w).Counts → s.tasks ≠ []

theorem initThreads_exclusive : (initThreads : ThreadPool ω τ).Exclusive where
  working := rfl
  holds _ h := h.elim
  counts _ h := h.elim

theorem Exclusive.of_eq {s t : ThreadPool ω τ} (hs : s.Exclusive) (hfinish : t.finish = s.finish)
    (hlkm : t.lkm = s.lkm) (hworker : t.worker = s.worker) (htasks : s.tasks ≠ [] → t.tasks ≠ []) :
    t.Exclusive where
  working := hfinish.trans hs.working
  holds w hw := hlkm.trans (hs.holds w (hworker ▸ hw))
  counts w hw := htasks (hs.counts w (hworker ▸ hw))

/-- Whoever holds `lkm` keeps the others from holding it. -/
theorem Exclusive.alone {s : ThreadPool ω τ} (hs : s.Exclusive) {v w : ω}
    (hv : (s.worker v).Holds) (hw : (s.worker w).Holds) : v = w :=
  Option.some.inj ((hs.holds v hv).symm.trans (hs.holds w hw))

theorem added_snoc (cs : List (Command ω τ)) (c : Command ω τ) :
    added (cs ++ [c]) = added cs ++ c.pushed.toList := by
  rw [added, List.filterMap_append]
  cases hc : c.pushed <;> simp [added, hc]

theorem returned_snoc (cs : List (Command ω τ)) (c : Command ω τ) :
    returned (cs ++ [c]) = returned cs ++ c.taken.toList := by
  rw [returned, List.filterMap_append]
  cases hc : c.taken <;> simp [returned, hc]

variable [DecidableEq ω]

/-- One worker moves, and the others notice neither a lock taken from them nor an emptied queue. -/
theorem Exclusive.move {s t : ThreadPool ω τ} (hs : s.Exclusive) (w : ω) (p : Worker τ)
    (hworker : t.worker = Function.update s.worker w p) (hfinish : t.finish = s.finish)
    (hholds : p.Holds → t.lkm = some w)
    (hothers : ∀ v, v ≠ w → (s.worker v).Holds → t.lkm = some v)
    (hcounts : p.Counts → t.tasks ≠ [])
    (hkept : ∀ v, v ≠ w → (s.worker v).Counts → t.tasks ≠ []) : t.Exclusive where
  working := hfinish.trans hs.working
  holds v hv := by
    rw [hworker] at hv
    by_cases hvw : v = w
    · subst hvw
      rw [Function.update_self] at hv
      exact hholds hv
    · rw [Function.update_of_ne hvw] at hv
      exact hothers v hvw hv
  counts v hv := by
    rw [hworker] at hv
    by_cases hvw : v = w
    · subst hvw
      rw [Function.update_self] at hv
      exact hcounts hv
    · rw [Function.update_of_ne hvw] at hv
      exact hkept v hvw hv

theorem Exclusive.set {s : ThreadPool ω τ} (hs : s.Exclusive) (w : ω) {p : Worker τ}
    (hp : ¬ p.Holds) : (s.set w p).Exclusive :=
  hs.move w p rfl rfl (fun h => absurd h hp) (fun v _ hv => hs.holds v hv)
    (fun h => absurd h.holds hp) (fun v _ hv => hs.counts v hv)

theorem Exclusive.release {s t : ThreadPool ω τ} (hs : s.Exclusive) {w : ω}
    (hw : (s.worker w).Holds) {p : Worker τ} (hp : ¬ p.Holds)
    (hworker : t.worker = Function.update s.worker w p) (hfinish : t.finish = s.finish) :
    t.Exclusive :=
  hs.move w p hworker hfinish (fun h => absurd h hp)
    (fun _ hv hholds => absurd (hs.alone hholds hw) hv) (fun h => absurd h.holds hp)
    (fun _ hv hcounts => absurd (hs.alone hcounts.holds hw) hv)

theorem Exclusive.keep {s t : ThreadPool ω τ} (hs : s.Exclusive) {w : ω}
    (hw : (s.worker w).Holds) {p : Worker τ} (hworker : t.worker = Function.update s.worker w p)
    (hfinish : t.finish = s.finish) (hlkm : t.lkm = s.lkm) (hcounts : p.Counts → t.tasks ≠ []) :
    t.Exclusive :=
  hs.move w p hworker hfinish (fun _ => hlkm.trans (hs.holds w hw))
    (fun v _ hv => hlkm.trans (hs.holds v hv)) hcounts
    (fun _ hv h => absurd (hs.alone h.holds hw) hv)

theorem Exclusive.acquire {s : ThreadPool ω τ} (hs : s.Exclusive) (w : ω) (hfree : s.lkm.isNone) :
    ({ s.set w .sizing with lkm := some w } : ThreadPool ω τ).Exclusive := by
  have hnobody : ∀ v, ¬ (s.worker v).Holds := by
    intro v hv
    rw [hs.holds v hv] at hfree
    cases hfree
  exact hs.move w .sizing rfl rfl (fun _ => rfl) (fun v _ hv => absurd hv (hnobody v))
    (fun h => h.elim) (fun v _ hv => absurd hv.holds (hnobody v))

theorem Exclusive.work {nullIndex : τ → Bool} {s t : ThreadPool ω τ} (hs : s.Exclusive) {w : ω}
    (h : s.WorkResult nullIndex w t) : t.Exclusive ∧ t.tasks = s.tasks := by
  cases h with
  | started hw =>
      rw [hs.working]
      exact ⟨hs.set w not_false, rfl⟩
  | locked hw hfree => exact ⟨hs.acquire w hfree, rfl⟩
  | sized hw =>
      have hholds : (s.worker w).Holds := hw ▸ trivial
      exact ⟨hs.keep hholds rfl rfl rfl fun hpos => List.length_pos_iff.mp hpos, rfl⟩
  | @checked size hw =>
      have hholds : (s.worker w).Holds := hw ▸ trivial
      simp only [hs.working, and_true]
      split
      · exact ⟨hs.keep hholds rfl rfl rfl fun hpos => hpos.elim, rfl⟩
      · have hcounts : (s.worker w).Counts := hw ▸ Nat.pos_of_ne_zero (by assumption)
        exact ⟨hs.keep hholds rfl rfl rfl fun _ => hs.counts w hcounts, rfl⟩
  | blocked hw =>
      have hholds : (s.worker w).Holds := hw ▸ trivial
      exact ⟨hs.release (p := .blocked) hholds not_false rfl rfl, rfl⟩
  | @unlocked task hw =>
      have hholds : (s.worker w).Holds := hw ▸ trivial
      exact ⟨hs.release (p := .received task) hholds not_false rfl rfl, rfl⟩
  | exited hw hnull => exact ⟨hs.set w not_false, rfl⟩
  | @called task hw =>
      exact ⟨(hs.set w (p := .handling task) not_false).of_eq rfl rfl rfl id, rfl⟩
  | left hw => exact ⟨(hs.set w (p := .starting) not_false).of_eq rfl rfl rfl id, rfl⟩

theorem Exclusive.notify {s t : ThreadPool ω τ} (hs : s.Exclusive) (h : s.NotifyResult t) :
    t.Exclusive ∧ t.tasks = s.tasks := by
  cases h with
  | nobody => exact ⟨hs, rfl⟩
  | woken => exact ⟨hs.set _ not_false, rfl⟩

variable [Fintype ω] [DecidableEq τ] {nullIndex : τ → Bool}

/-- What one step does to the queue: it pushes at most one task, or it removes the front and returns
the back. -/
theorem Exclusive.step {s t : ThreadPool ω τ} (hs : s.Exclusive) {c : Command ω τ}
    (hc : c ≠ .finish) (h : s.step nullIndex c = some t) :
    t.Exclusive ∧
      ((c.taken = none ∧ t.tasks = s.tasks ++ c.pushed.toList) ∨
        ∃ a rest, s.tasks = a :: rest ∧ c.taken = some s.tasks.getLast? ∧ c.pushed = none ∧
          t.tasks = rest) := by
  have hquiet : ∀ {t : ThreadPool ω τ}, t.tasks = s.tasks → t.tasks = s.tasks ++ [] := by
    intro t ht
    rw [ht, List.append_nil]
  have hpush : ∀ task : τ, s.tasks ++ [task] ≠ [] := fun task => by simp
  cases step_result h with
  | addTask task => exact ⟨hs.of_eq rfl rfl rfl fun _ => hpush task, .inl ⟨rfl, rfl⟩⟩
  | notify hnotifying hnotify =>
      have hquit : ({ s with notifying := s.notifying - 1 } : ThreadPool ω τ).Exclusive :=
        hs.of_eq rfl rfl rfl id
      obtain ⟨ht, htasks⟩ := hquit.notify hnotify
      exact ⟨ht, .inl ⟨rfl, hquiet htasks⟩⟩
  | shutdown => exact ⟨hs.of_eq rfl rfl rfl id, .inl ⟨rfl, hquiet rfl⟩⟩
  | finish => exact absurd rfl hc
  | notifyAll =>
      refine ⟨⟨hs.working, fun w hw => ?_, fun w hw => ?_⟩, .inl ⟨rfl, hquiet rfl⟩⟩
      · dsimp only at hw ⊢
        split at hw
        · exact hw.elim
        · exact hs.holds w hw
      · dsimp only at hw ⊢
        split at hw
        · exact hw.elim
        · exact hs.counts w hw
  | work hwork =>
      obtain ⟨ht, htasks⟩ := hs.work hwork
      exact ⟨ht, .inl ⟨rfl, hquiet htasks⟩⟩
  | @take w hw =>
      have hholds : (s.worker w).Holds := hw ▸ trivial
      have hcounts : (s.worker w).Counts := hw ▸ trivial
      obtain ⟨a, rest, htasks⟩ := List.exists_cons_of_ne_nil (hs.counts w hcounts)
      refine ⟨hs.keep (p := .returning s.tasks.getLast?) hholds rfl rfl rfl fun h => h.elim,
        .inr ⟨a, rest, htasks, rfl, rfl, ?_⟩⟩
      change s.tasks.tail = rest
      rw [htasks, List.tail_cons]
  | handled hw result =>
      refine ⟨hs.set _ ?_, .inl ⟨rfl, hquiet rfl⟩⟩
      split <;> exact not_false
  | @retry w task hw =>
      exact ⟨(hs.set w (p := .notifying) not_false).of_eq rfl rfl rfl fun _ => hpush task,
        .inl ⟨rfl, rfl⟩⟩
  | @renotify w _ _ hw hnotify =>
      obtain ⟨ht, htasks⟩ := (hs.set w (p := .leaving) not_false).notify hnotify
      exact ⟨ht, .inl ⟨rfl, hquiet htasks⟩⟩
  | @wake w hw => exact ⟨hs.set w (p := .woken) not_false, .inl ⟨rfl, hquiet rfl⟩⟩

/-! ### Runs -/

/-- A removal meets a queue whose back, which it returns, is its front, which it drops. -/
def TakesFront (s : ThreadPool ω τ) : Command ω τ → Prop
  | .take _ _ => s.tasks.getLast? = s.tasks.head?
  | _ => True

structure Served (nullIndex : τ → Bool) (cs : List (Command ω τ)) (s : ThreadPool ω τ)
    (served : List τ) : Prop where
  exclusive : s.Exclusive
  returned : returned cs = served.map some
  account : Account s.tasks (added cs) served 0
  inOrder_iff : InOrder (added cs) served ↔
    Machine.Meets (step nullIndex) TakesFront initThreads cs

theorem Served.step {s t : ThreadPool ω τ} {cs : List (Command ω τ)} {served : List τ}
    {c : Command ω τ} (h : Served nullIndex cs s served)
    (hrun : Machine.run (step nullIndex) initThreads cs = some s) (hc : c ≠ .finish)
    (hstep : s.step nullIndex c = some t) : ∃ served, Served nullIndex (cs ++ [c]) t served := by
  obtain ⟨ht, ⟨htaken, htasks⟩ | ⟨a, rest, hqueue, htaken, hpushed, htasks⟩⟩ :=
    h.exclusive.step hc hstep
  · have hfront : TakesFront s c := by
      cases c with
      | take w task => cases htaken
      | _ => exact trivial
    refine ⟨served, ht, ?_, ?_, ?_⟩
    · rw [returned_snoc, htaken, h.returned]
      exact List.append_nil _
    · rw [htasks, added_snoc]
      exact h.account.pushes c.pushed.toList
    · rw [added_snoc, h.account.inOrder_pushes_iff (Nat.zero_le _), h.inOrder_iff,
        Machine.meets_snoc hrun]
      exact (and_iff_left hfront).symm
  · obtain ⟨b, hback⟩ : ∃ b, s.tasks.getLast? = some b :=
      Option.isSome_iff_exists.mp (by simp [hqueue])
    have hadded : added (cs ++ [c]) = added cs := by
      rw [added_snoc, hpushed]
      exact List.append_nil _
    have hfront : TakesFront s c ↔ s.tasks.head? = some b := by
      cases c with
      | take w task =>
          rw [TakesFront, hback]
          exact eq_comm
      | _ => cases htaken
    refine ⟨served ++ [b], ht, ?_, ?_, ?_⟩
    · rw [returned_snoc, htaken, h.returned, hback, List.map_append]
      rfl
    · have hread := h.account.read b
      rw [hqueue] at hread
      rw [htasks, hadded]
      exact hread.drop
    · rw [hadded, h.account.inOrder_read_iff, h.inOrder_iff, Machine.meets_snoc hrun, hfront]

theorem run_served {s : ThreadPool ω τ} {cs : List (Command ω τ)} (hcs : ∀ c ∈ cs, c ≠ .finish)
    (hrun : Machine.run (step nullIndex) initThreads cs = some s) :
    ∃ served, Served nullIndex cs s served := by
  refine Machine.run_history
    (fun cs s => (∀ c ∈ cs, c ≠ .finish) → ∃ served, Served nullIndex cs s served)
    (fun _ => ⟨[], initThreads_exclusive, rfl, account_nil, ?_⟩) ?_ hrun hcs
  · exact iff_of_true inOrder_nil trivial
  · intro cs s c t hrun ih hstep hcs
    obtain ⟨served, hserved⟩ := ih fun d hd => hcs d (List.mem_append_left _ hd)
    exact hserved.step hrun (hcs c (List.mem_append_right _ (List.mem_singleton_self c))) hstep

/-- While `finish` is `WORK`, the returned tasks followed by the waiting ones are the added tasks
exactly if every removal has met a queue whose back is its front. -/
theorem run_returned_iff {s : ThreadPool ω τ} {cs : List (Command ω τ)}
    (hcs : ∀ c ∈ cs, c ≠ .finish)
    (hrun : Machine.run (step nullIndex) initThreads cs = some s) :
    returned cs ++ s.tasks.map some = (added cs).map some ↔
      Machine.Meets (step nullIndex) TakesFront initThreads cs := by
  obtain ⟨served, hserved⟩ := run_served hcs hrun
  rw [← hserved.inOrder_iff, hserved.account.inOrder_iff, hserved.returned, ← List.map_append]
  exact (List.map_injective_iff.mpr (Option.some_injective τ)).eq_iff

/-- Two tasks are added before the only worker takes one. -/
def twoTasks : List (Command (Fin 1) ℕ) :=
  [.addTask 1, .addTask 2, .work 0, .work 0, .work 0, .work 0, .take 0 (some 2)]

theorem twoTasks_returned_iff : ∃ s,
    Machine.run (step fun _ => false) initThreads twoTasks = some s ∧
    (returned twoTasks ++ s.tasks.map some = (added twoTasks).map some ↔
      Machine.Meets (step fun _ => false) TakesFront initThreads twoTasks) :=
  ⟨_, rfl, run_returned_iff (by simp [twoTasks]) rfl⟩

theorem twoTasks_lost : ¬ ∀ (n : ℕ) (cs : List (Command (Fin n) ℕ)) (s : ThreadPool (Fin n) ℕ),
    (∀ c ∈ cs, c ≠ .finish) → Machine.run (step fun _ => false) initThreads cs = some s →
      returned cs ++ s.tasks.map some = (added cs).map some := by
  intro h
  have hserved := h 1 twoTasks _ (by simp [twoTasks]) rfl
  exact absurd hserved (by decide)

end ThreadPool

end IndexServer
