import IndexServer.ThreadPool.Session
import IndexServer.ThreadPool.Steps
import IndexServer.Lib.Tally
import Mathlib.Algebra.Order.Group.Multiset

/-!
# Where a task is

A task that has been added is in the queue, or a worker has it on its way from `removeTask` to the
end of its handler. A handler can be done with its task before it returns, as far as the rest of the
program can see; a flag for each worker says so. While there is no more than one task in the queue,
`back` and `pop` mean the same one, and no step of the pool loses a task or doubles it.
-/

namespace IndexServer

def Worker.held {τ : Type} : Worker τ → Option τ
  | .returning task | .received task => task
  | .handling task | .retrying task => some task
  | _ => none

/-- The task that a worker has and is not done with. -/
def Worker.undone {τ : Type} (done : Bool) (p : Worker τ) : Multiset τ :=
  if done then 0 else ↑p.held.toList

namespace ThreadPool

open Tally

variable {ω τ : Type} [Fintype ω]

/-- The tasks that are not done with, in the queue and with the workers. -/
def pending (done : ω → Bool) (s : ThreadPool ω τ) : Multiset τ :=
  ↑s.tasks + ∑ w, (s.worker w).undone (done w)

/-- A worker is done with its task only inside the handler, and no handler has asked to have its
task back in the queue. -/
structure Handles (done : ω → Bool) (s : ThreadPool ω τ) : Prop where
  done : ∀ w, done w = true → ∃ task, s.worker w = .handling task
  once : ∀ w task, s.worker w ≠ .retrying task

variable {done done' : ω → Bool} {s t : ThreadPool ω τ} {w : ω}

theorem initThreads_pending :
    (initThreads : ThreadPool ω τ).pending (fun _ => false) = 0 := by
  simp [pending, initThreads, Worker.undone, Worker.held]

omit [Fintype ω] in
theorem initThreads_handles : (initThreads : ThreadPool ω τ).Handles fun _ => false :=
  ⟨fun _ h => Bool.noConfusion h, fun _ _ h => by cases h⟩

theorem length_tasks_le : s.tasks.length ≤ (s.pending done).card := by
  rw [pending, Multiset.card_add, Multiset.coe_card]
  exact Nat.le_add_right _ _

theorem pending_add [DecidableEq ω]
    (hother : ∀ v ≠ w, done' v = done v ∧ t.worker v = s.worker v) :
    t.pending done' + (↑s.tasks + (s.worker w).undone (done w)) =
      s.pending done + (↑t.tasks + (t.worker w).undone (done' w)) := by
  have hsum : ∑ v, (t.worker v).undone (done' v) + (s.worker w).undone (done w) =
      ∑ v, (s.worker v).undone (done v) + (t.worker w).undone (done' w) :=
    sum_add_eq (f := fun v => (s.worker v).undone (done v))
      (g := fun v => (t.worker v).undone (done' v))
      fun v hv => by rw [(hother v hv).1, (hother v hv).2]
  rw [pending, pending, add_add_add_comm, hsum]
  ac_rfl

theorem pending_eq [DecidableEq ω]
    (hother : ∀ v ≠ w, done' v = done v ∧ t.worker v = s.worker v)
    (hown : ↑t.tasks + (t.worker w).undone (done' w) =
      (↑s.tasks + (s.worker w).undone (done w) : Multiset τ)) :
    t.pending done' = s.pending done := by
  have hadd := pending_add hother
  rw [hown] at hadd
  exact add_right_cancel hadd

theorem pending_done [DecidableEq ω] {task : τ} (hw : s.worker w = .handling task)
    (hdone : done w = false) :
    s.pending (Function.update done w true) + {task} = s.pending done := by
  have hadd : s.pending (Function.update done w true) +
      (↑s.tasks + (s.worker w).undone (done w)) = s.pending done +
        (↑s.tasks + (s.worker w).undone (Function.update done w true w)) :=
    pending_add fun v hv => ⟨Function.update_of_ne hv _ _, rfl⟩
  rw [hw, hdone, Function.update_self] at hadd
  change _ + (_ + ({task} : Multiset τ)) = _ + (_ + (0 : Multiset τ)) at hadd
  rw [add_zero, add_left_comm, add_comm (s.pending done)] at hadd
  exact add_left_cancel hadd

/-! ### The steps of the pool -/

omit [Fintype ω] in
theorem Handles.not_done (hs : s.Handles done) (hw : ∀ task, s.worker w ≠ .handling task) :
    done w = false := by
  cases hdone : done w with
  | false => rfl
  | true =>
      obtain ⟨task, htask⟩ := hs.done w hdone
      exact absurd htask (hw task)

variable [DecidableEq ω]

omit [Fintype ω] in
theorem Handles.move (hs : s.Handles done) {p : Worker τ} (hdone : done w = false)
    (hp : ∀ task, p ≠ .retrying task) (hworker : t.worker = Function.update s.worker w p) :
    t.Handles done := by
  refine ⟨fun v hv => ?_, fun v task => ?_⟩
  · have hvw : v ≠ w := by
      rintro rfl
      rw [hdone] at hv
      cases hv
    rw [hworker, Function.update_of_ne hvw]
    exact hs.done v hv
  · rw [hworker]
    by_cases hvw : v = w
    · rw [hvw, Function.update_self]
      exact hp task
    · rw [Function.update_of_ne hvw]
      exact hs.once v task

theorem pending_move {p : Worker τ} (htasks : t.tasks = s.tasks)
    (hworker : t.worker = Function.update s.worker w p) (hheld : p.held = (s.worker w).held) :
    t.pending done = s.pending done := by
  refine pending_eq (w := w) (fun v hv => ⟨rfl, ?_⟩) ?_
  · rw [hworker, Function.update_of_ne hv]
  · rw [hworker, Function.update_self, htasks, Worker.undone, Worker.undone, hheld]

theorem Handles.carry (hs : s.Handles done) {p : Worker τ}
    (hw : ∀ task, s.worker w ≠ .handling task) (hp : ∀ task, p ≠ .retrying task)
    (htasks : t.tasks = s.tasks) (hworker : t.worker = Function.update s.worker w p)
    (hheld : p.held = (s.worker w).held) :
    t.Handles done ∧ t.pending done = s.pending done :=
  ⟨hs.move (hs.not_done hw) hp hworker, pending_move htasks hworker hheld⟩

theorem Handles.notify (hs : s.Handles done) (h : s.NotifyResult t) :
    t.Handles done ∧ t.pending done = s.pending done := by
  cases h with
  | nobody => exact ⟨hs, rfl⟩
  | @woken v hv => exact hs.carry (p := .woken) (by simp [hv]) (by simp) rfl rfl (by rw [hv]; rfl)

theorem Handles.work (hs : s.Handles done) (h : s.WorkResult (fun _ => false) w t) :
    t.Handles done ∧ t.pending done = s.pending done := by
  cases h with
  | started hw =>
      refine hs.carry (by simp [hw]) (by split <;> simp) rfl rfl ?_
      rw [hw]
      split <;> rfl
  | locked hw =>
      rcases hw with hw | hw
      · exact hs.carry (p := .sizing) (by simp [hw]) (by simp) rfl rfl (by rw [hw]; rfl)
      · exact hs.carry (p := .sizing) (by simp [hw]) (by simp) rfl rfl (by rw [hw]; rfl)
  | sized hw => exact hs.carry (by simp [hw]) (by simp) rfl rfl (by rw [hw]; rfl)
  | checked hw =>
      refine hs.carry (by simp [hw]) (by split <;> simp) rfl rfl ?_
      rw [hw]
      split <;> rfl
  | blocked hw => exact hs.carry (p := .blocked) (by simp [hw]) (by simp) rfl rfl (by rw [hw]; rfl)
  | unlocked hw =>
      exact hs.carry (p := .received _) (by simp [hw]) (by simp) rfl rfl (by rw [hw]; rfl)
  | @exited task hw hnull =>
      refine hs.carry (by simp [hw]) (by simp) rfl rfl ?_
      rw [hw]
      cases task with
      | none => rfl
      | some task => cases hnull
  | called hw =>
      exact hs.carry (p := .handling _) (by simp [hw]) (by simp) rfl rfl (by rw [hw]; rfl)
  | left hw => exact hs.carry (p := .starting) (by simp [hw]) (by simp) rfl rfl (by rw [hw]; rfl)

/-- The steps that neither add a task nor bring a handler back. -/
def Command.carries : Command ω τ → Bool
  | .addTask _ | .handled _ _ => false
  | _ => true

/-- No step loses a task or doubles it. -/
theorem Handles.step [DecidableEq τ] {c : Command ω τ} (hs : s.Handles done)
    (hone : (s.pending done).card ≤ 1) (hc : c.carries)
    (h : s.step (fun _ => false) c = some t) :
    t.Handles done ∧ t.pending done = s.pending done := by
  cases step_result h with
  | addTask | handled => cases hc
  | notify _ hresult =>
      exact Handles.notify (s := { s with notifying := s.notifying - 1 }) ⟨hs.done, hs.once⟩ hresult
  | shutdown | finish => exact ⟨⟨hs.done, hs.once⟩, rfl⟩
  | notifyAll =>
      have hsame : ∀ v, (if (s.worker v).isBlocked then Worker.woken else s.worker v).held =
          (s.worker v).held := by
        intro v
        cases hv : s.worker v <;> rfl
      refine ⟨⟨fun v hv => ?_, fun v task => ?_⟩, ?_⟩
      · obtain ⟨task, htask⟩ := hs.done v hv
        exact ⟨task, by simp [htask, Worker.isBlocked]⟩
      · show (if (s.worker v).isBlocked then Worker.woken else s.worker v) ≠ .retrying task
        split
        · simp
        · exact hs.once v task
      · simp only [pending, Worker.undone, hsame]
  | work hwork => exact hs.work hwork
  | @take w hw =>
      refine ⟨hs.move (w := w) (p := .returning s.tasks.getLast?) (hs.not_done (by simp [hw]))
        (by simp) rfl, pending_eq (w := w) (fun v hv => ⟨rfl, Function.update_of_ne hv _ _⟩) ?_⟩
      have hshort := length_tasks_le.trans hone
      have hdone : done w = false := hs.not_done (by simp [hw])
      show (↑s.tasks.tail : Multiset τ) +
        Worker.undone (done w) (Function.update s.worker w _ w) = _
      rw [Function.update_self, hw, hdone]
      match htasks : s.tasks with
      | [] => rfl
      | [task] => simp [Worker.undone, Worker.held]
      | first :: second :: rest =>
          rw [htasks] at hshort
          simp at hshort
  | retry hw => exact absurd hw (hs.once _ _)
  | @renotify w _ _ hw hresult =>
      obtain ⟨hset, hsame⟩ := hs.carry (t := s.set w .leaving) (p := .leaving) (by simp [hw])
        (by simp) rfl rfl (by rw [hw]; rfl)
      obtain ⟨ht, hpending⟩ := hset.notify hresult
      exact ⟨ht, hpending.trans hsame⟩
  | @wake w hw => exact hs.carry (p := .woken) (by simp [hw]) (by simp) rfl rfl (by rw [hw]; rfl)

/-! ### The steps that do not -/

omit [DecidableEq ω] in
theorem pending_addTask {task : τ} (htasks : t.tasks = s.tasks ++ [task])
    (hworker : t.worker = s.worker) : t.pending done = s.pending done + {task} := by
  rw [pending, pending, htasks, hworker, ← Multiset.coe_add, Multiset.coe_singleton]
  ac_rfl

omit [Fintype ω] in
theorem Handles.finish (hs : s.Handles done) {task : τ} (hw : s.worker w = .handling task) :
    s.Handles (Function.update done w true) := by
  refine ⟨fun v hv => ?_, hs.once⟩
  by_cases hvw : v = w
  · exact ⟨task, hvw ▸ hw⟩
  · rw [Function.update_of_ne hvw] at hv
    exact hs.done v hv

theorem Handles.handled (hs : s.Handles done) (hw : done w = true) :
    (s.set w .leaving).Handles (Function.update done w false) ∧
      (s.set w .leaving).pending (Function.update done w false) = s.pending done := by
  have hleft : (s.set w .leaving).worker w = .leaving := Function.update_self ..
  refine ⟨⟨fun v hv => ?_, fun v task hv => ?_⟩, pending_eq (w := w) (fun v hv =>
    ⟨Function.update_of_ne hv _ _, Function.update_of_ne hv _ _⟩) ?_⟩
  · have hvw : v ≠ w := by
      rintro rfl
      rw [Function.update_self] at hv
      cases hv
    rw [Function.update_of_ne hvw] at hv
    obtain ⟨task, htask⟩ := hs.done v hv
    exact ⟨task, (Function.update_of_ne hvw _ _).trans htask⟩
  · by_cases hvw : v = w
    · rw [hvw, hleft] at hv
      cases hv
    · exact hs.once v task ((Function.update_of_ne hvw _ _).symm.trans hv)
  · rw [hleft, hw, Function.update_self]
    rfl

end ThreadPool

end IndexServer
