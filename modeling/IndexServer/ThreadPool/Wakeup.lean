import IndexServer.ThreadPool.Steps
import IndexServer.Lib.Tally

/-!
# Lost wake-ups

A worker evaluates the predicate of `wait` under `lkm`, but tasks are pushed under `taskQueueMutex`
and `FINISH` is stored under `mfinish`. So a notification can come when the worker has found nothing
and has not blocked yet, and then nobody wakes it. What keeps the pool from sleeping over its tasks
is that each waiting task has a notification still to come or a worker that will look for it.
-/

namespace IndexServer

/-- What a worker can still do for the waiting tasks: it looks for one unless it is blocked, has
returned or is about to, and before its `notify_one` it also wakes another worker. -/
def Worker.attention {τ : Type} (nullIndex : τ → Bool) : Worker τ → ℕ
  | .blocked | .exited => 0
  | .returning task | .received task => if task.all nullIndex then 0 else 1
  | .notifying => 2
  | _ => 1

namespace ThreadPool

open Tally

variable {ω τ : Type} [Fintype ω]

/-- The notifications of tasks still to come, and the workers that will look for a task. -/
def attention (nullIndex : τ → Bool) (s : ThreadPool ω τ) : ℕ :=
  s.notifying + tally (Worker.attention nullIndex) s.worker

/-- A worker blocks only while a stored `FINISH` is still to be announced, and while the waiting
tasks have notifications to come and other workers enough. -/
def Timely (nullIndex : τ → Bool) (s : ThreadPool ω τ) : Command ω τ → Prop
  | .work w => s.worker w = .dozing →
      if s.finish then 0 < s.broadcasting else s.tasks.length < s.attention nullIndex
  | _ => True

instance [DecidableEq τ] (nullIndex : τ → Bool) (s : ThreadPool ω τ) (c : Command ω τ) :
    Decidable (s.Timely nullIndex c) :=
  match c with
  | .work w => inferInstanceAs (Decidable (s.worker w = .dozing → _))
  | .addTask _ | .notify _ | .shutdown _ | .finish | .notifyAll | .take _ _ | .handled _ _
  | .retry _ _ | .renotify _ _ | .wake _ => isTrue trivial

/-- There is a task or `FINISH`, some worker has not returned, all that have not are blocked, and no
notification is to come. -/
def Stranded (s : ThreadPool ω τ) : Prop :=
  (s.tasks ≠ [] ∨ s.finish = true) ∧ (∃ w, s.worker w ≠ .exited) ∧
    (∀ w, s.worker w ≠ .exited → s.worker w = .blocked) ∧ s.notifying = 0 ∧ s.broadcasting = 0

def Awake (s : ThreadPool ω τ) : Prop := ∀ w, (s.worker w).isBlocked = false

/-- If a worker is blocked, `FINISH` is still to be announced, and the waiting tasks are attended
to. -/
structure Attended (nullIndex : τ → Bool) (s : ThreadPool ω τ) : Prop where
  finish : s.finish = true → s.Awake ∨ 0 < s.broadcasting
  tasks : s.finish = false → s.Awake ∨ s.tasks.length ≤ s.attention nullIndex

theorem initThreads_attended (nullIndex : τ → Bool) :
    (initThreads : ThreadPool ω τ).Attended nullIndex where
  finish h := by cases h
  tasks _ := .inl fun _ => rfl

theorem Attended.not_stranded {nullIndex : τ → Bool} {s : ThreadPool ω τ}
    (hs : s.Attended nullIndex) : ¬ s.Stranded := by
  rintro ⟨hwork, ⟨v, hv⟩, hblocked, hnotifying, hbroadcasting⟩
  have hasleep : ¬ s.Awake := by
    intro hawake
    have hfree := hawake v
    rw [hblocked v hv] at hfree
    cases hfree
  cases hfinish : s.finish with
  | true =>
      have hannounced := (hs.finish hfinish).resolve_left hasleep
      omega
  | false =>
      have hattended := (hs.tasks hfinish).resolve_left hasleep
      have hnobody : tally (Worker.attention nullIndex) s.worker = 0 := by
        apply tally_eq_zero.mpr
        intro w
        by_cases hw : s.worker w = .exited
        · rw [hw]
          rfl
        · rw [hblocked w hw]
          rfl
      have htasks : s.tasks ≠ [] := hwork.resolve_right (by simp [hfinish])
      have hlength := List.length_pos_iff.mpr htasks
      rw [attention, hnotifying, hnobody] at hattended
      omega

variable [DecidableEq ω] {nullIndex : τ → Bool} {s t : ThreadPool ω τ}

omit [Fintype ω] in
theorem Awake.update (hs : s.Awake) {w : ω} {p : Worker τ}
    (hworker : t.worker = Function.update s.worker w p) (hp : p.isBlocked = false) : t.Awake := by
  intro v
  rw [hworker]
  by_cases hvw : v = w
  · rw [hvw, Function.update_self]
    exact hp
  · rw [Function.update_of_ne hvw]
    exact hs v

/-- One worker moves, not to block, and what it stops doing for the tasks is no longer needed. -/
theorem Attended.move (hs : s.Attended nullIndex) {w : ω} {p : Worker τ}
    (hworker : t.worker = Function.update s.worker w p) (hp : p.isBlocked = false)
    (hfinish : t.finish = s.finish) (hbroadcasting : t.broadcasting = s.broadcasting)
    (htasks : t.finish = false → t.tasks = [] ∨
      t.tasks.length + s.notifying + (s.worker w).attention nullIndex ≤
        s.tasks.length + t.notifying + p.attention nullIndex) : t.Attended nullIndex where
  finish h := by
    rw [hbroadcasting]
    exact (hs.finish (hfinish ▸ h)).imp_left fun hawake => hawake.update hworker hp
  tasks h := by
    rcases hs.tasks (hfinish ▸ h) with hawake | hattended
    · exact .inl (hawake.update hworker hp)
    · have hmoved := tally_update (Worker.attention nullIndex) s.worker w p
      rw [attention] at hattended
      rw [attention, hworker]
      right
      rcases htasks h with hempty | hneeded
      · rw [hempty]
        exact Nat.zero_le _
      · omega

theorem Attended.set (hs : s.Attended nullIndex) {w : ω} {p : Worker τ}
    (hp : p.isBlocked = false)
    (hattention : (s.worker w).attention nullIndex ≤ p.attention nullIndex) :
    (s.set w p).Attended nullIndex :=
  hs.move rfl hp rfl rfl fun _ => .inr (Nat.add_le_add_left hattention _)

omit [DecidableEq ω] in
theorem Attended.of_eq (hs : s.Attended nullIndex) (hfinish : t.finish = s.finish)
    (htasks : t.tasks = s.tasks) (hworker : t.worker = s.worker)
    (hnotifying : t.notifying = s.notifying) (hbroadcasting : t.broadcasting = s.broadcasting) :
    t.Attended nullIndex where
  finish h := by
    rw [hbroadcasting, Awake, hworker]
    exact hs.finish (hfinish ▸ h)
  tasks h := by
    rw [attention, htasks, hnotifying, Awake, hworker]
    exact hs.tasks (hfinish ▸ h)

/-- `notify_one` wakes a worker, who makes up for one task, or finds nobody blocked. -/
theorem attended_of_notify (h : s.NotifyResult t)
    (hfinish : s.finish = true → s.Awake ∨ 0 < s.broadcasting)
    (htasks : s.finish = false → s.Awake ∨ s.tasks.length ≤ s.attention nullIndex + 1) :
    t.Attended nullIndex := by
  cases h with
  | nobody hawake => exact ⟨fun _ => .inl hawake, fun _ => .inl hawake⟩
  | @woken v hv =>
      have hmoved := tally_update (Worker.attention nullIndex) s.worker v .woken
      rw [hv] at hmoved
      change _ + 0 = _ + 1 at hmoved
      refine ⟨fun h => (hfinish h).imp_left fun hawake => hawake.update rfl rfl, fun h => ?_⟩
      apply (htasks h).imp (fun hawake => hawake.update rfl rfl)
      intro hlength
      rw [attention] at hlength
      show s.tasks.length ≤ s.notifying + tally _ (Function.update s.worker v .woken)
      omega

/-- A worker blocks in time. -/
theorem attended_of_block {w : ω} (hw : s.worker w = .dozing)
    (htimely : s.Timely nullIndex (.work w)) :
    ({ s.set w .blocked with lkm := none } : ThreadPool ω τ).Attended nullIndex := by
  have hroom := htimely hw
  have hmoved := tally_update (Worker.attention nullIndex) s.worker w .blocked
  rw [hw] at hmoved
  refine ⟨fun hfinish => ?_, fun hfinish => ?_⟩
  · change s.finish = true at hfinish
    rw [hfinish, if_pos rfl] at hroom
    exact .inr hroom
  · change s.finish = false at hfinish
    rw [hfinish, if_neg (by decide), attention] at hroom
    change _ + 1 = _ + 0 at hmoved
    right
    show s.tasks.length ≤ s.notifying + tally _ (Function.update s.worker w .blocked)
    omega

theorem Attended.work (hs : s.Attended nullIndex) {w : ω} (htimely : s.Timely nullIndex (.work w))
    (h : s.WorkResult nullIndex w t) : t.Attended nullIndex := by
  cases h with
  | started hw =>
      refine hs.move rfl (by split <;> rfl) rfl rfl fun hfinish => .inr ?_
      change s.finish = false at hfinish
      rw [hw, hfinish, if_neg (by decide)]
      exact le_rfl
  | locked hw hfree =>
      refine (hs.set (p := .sizing) rfl ?_).of_eq rfl rfl rfl rfl rfl
      rcases hw with hw | hw
      · rw [hw]
        exact le_rfl
      · rw [hw]
        exact le_rfl
  | sized hw => exact hs.set rfl (by rw [hw]; exact le_rfl)
  | checked hw =>
      apply hs.set (by split <;> rfl)
      rw [hw]
      split <;> exact le_rfl
  | blocked hw => exact attended_of_block hw htimely
  | @unlocked task hw =>
      exact (hs.set (p := .received task) rfl (by rw [hw]; exact le_rfl)).of_eq rfl rfl rfl rfl rfl
  | exited hw hnull =>
      apply hs.set rfl
      rw [hw]
      show (if _ then 0 else 1) ≤ 0
      rw [if_pos hnull]
  | @called task hw =>
      refine (hs.set (p := .handling task) rfl ?_).of_eq rfl rfl rfl rfl rfl
      rw [hw]
      show (if nullIndex task then 0 else 1) ≤ 1
      split <;> omega
  | left hw =>
      exact (hs.set (p := .starting) rfl (by rw [hw]; exact le_rfl)).of_eq rfl rfl rfl rfl rfl

theorem Attended.take (hs : s.Attended nullIndex) {w : ω} (hw : s.worker w = .taking) :
    ({ s.set w (.returning s.tasks.getLast?) with tasks := s.tasks.tail } :
      ThreadPool ω τ).Attended nullIndex := by
  refine hs.move rfl rfl rfl rfl fun _ => ?_
  show s.tasks.tail = [] ∨ _
  cases htasks : s.tasks with
  | nil => exact .inl rfl
  | cons a rest =>
      right
      rw [hw, List.length_cons]
      show rest.length + s.notifying + 1 ≤ rest.length + 1 + s.notifying + _
      omega

variable [DecidableEq τ]

/-- A timely step keeps the waiting tasks attended to. -/
theorem Attended.step (hs : s.Attended nullIndex) {c : Command ω τ} (hc : s.Timely nullIndex c)
    (h : s.step nullIndex c = some t) : t.Attended nullIndex := by
  cases step_result h with
  | addTask task =>
      refine ⟨hs.finish, fun hfinish => (hs.tasks hfinish).imp_right fun hattended => ?_⟩
      show (s.tasks ++ [task]).length ≤ s.notifying + 1 + tally _ s.worker
      rw [attention] at hattended
      rw [List.length_append, List.length_singleton]
      omega
  | notify hnotifying hnotify =>
      apply attended_of_notify hnotify hs.finish
      intro hfinish
      apply (hs.tasks hfinish).imp_right
      intro hattended
      rw [attention] at hattended
      show s.tasks.length ≤ s.notifying - 1 + tally _ s.worker + 1
      omega
  | shutdown => exact hs.of_eq rfl rfl rfl rfl rfl
  | finish => exact ⟨fun _ => .inr (Nat.succ_pos _), fun hfinish => by cases hfinish⟩
  | notifyAll =>
      have hawake : ∀ v, (if (s.worker v).isBlocked then Worker.woken else s.worker v).isBlocked =
          false := by
        intro v
        cases hv : (s.worker v).isBlocked with
        | true => rfl
        | false => simpa using hv
      exact ⟨fun _ => .inl hawake, fun _ => .inl hawake⟩
  | work hwork => exact hs.work hc hwork
  | take hw => exact hs.take hw
  | handled hw result =>
      apply hs.set (by split <;> rfl)
      rw [hw]
      split <;> exact le_rfl
  | @retry w task hw =>
      refine hs.move rfl rfl rfl rfl fun _ => .inr ?_
      rw [hw]
      show (s.tasks ++ [task]).length + s.notifying + 1 ≤ s.tasks.length + s.notifying + 2
      rw [List.length_append, List.length_singleton]
      omega
  | @renotify w _ _ hw hnotify =>
      have hmoved := tally_update (Worker.attention nullIndex) s.worker w .leaving
      rw [hw] at hmoved
      change _ + 2 = _ + 1 at hmoved
      apply attended_of_notify hnotify
      · exact fun hfinish => (hs.finish hfinish).imp_left fun hawake => hawake.update rfl rfl
      · intro hfinish
        apply (hs.tasks hfinish).imp (fun hawake => hawake.update rfl rfl)
        intro hattended
        rw [attention] at hattended
        show s.tasks.length ≤ s.notifying + tally _ (Function.update s.worker w .leaving) + 1
        omega
  | wake hw =>
      apply hs.set rfl
      rw [hw]
      exact Nat.zero_le _

/-- In a run whose workers block only in time, nobody sleeps over a task or over `FINISH`. -/
theorem run_not_stranded {cs : List (Command ω τ)}
    (hcs : Machine.Meets (step nullIndex) (Timely nullIndex) initThreads cs)
    (hrun : Machine.run (step nullIndex) initThreads cs = some s) : ¬ s.Stranded :=
  (Machine.run_invariant_of_meets (Attended nullIndex) (fun _ _ _ hs hc h => hs.step hc h)
    (initThreads_attended nullIndex) hcs hrun).not_stranded

/-- The only worker blocks, and then a task is added and taken. -/
def oneTask : List (Command Unit ℕ) :=
  [.work (), .work (), .work (), .work (), .work (), .addTask 1, .notify (some ()), .work (),
    .work (), .work (), .take () (some 1)]

theorem oneTask_not_stranded : ∃ s,
    Machine.run (step fun _ => false) initThreads oneTask = some s ∧ ¬ s.Stranded := by
  have hmeets :
      Machine.Meets (step fun _ => false) (Timely fun _ => false) initThreads oneTask := by
    decide
  exact ⟨_, rfl, run_not_stranded hmeets rfl⟩

/-- The task is added between the predicate and the block. -/
theorem lostWakeup_stranded : ¬ ∀ (ω : Type) [DecidableEq ω] [Fintype ω]
    (cs : List (Command ω ℕ)) (s : ThreadPool ω ℕ),
      Machine.run (step fun _ => false) initThreads cs = some s → ¬ s.Stranded := by
  intro h
  apply h Unit [.work (), .work (), .work (), .work (), .addTask 1, .notify none, .work ()] _ rfl
  refine ⟨.inl (by decide), ⟨(), by decide⟩, ?_, rfl, rfl⟩
  decide

end ThreadPool

end IndexServer
