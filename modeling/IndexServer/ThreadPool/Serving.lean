import IndexServer.ThreadPool.Ending

/-!
# The session while it serves

Until the main thread calls `shutdown` no worker returns: `finish` is `WORK`, and a worker that has
found the queue not empty is alone with it. Each worker then takes boundedly many steps before it
blocks, for each task in the queue and each time it is woken. And as long as there is a task in the
queue or a worker has one, some thread takes a step.
-/

namespace IndexServer

/-- The steps that a worker takes at most before it blocks, if it is given no task. -/
def Worker.untilBlocked {τ : Type} : Worker τ → ℕ
  | .blocked | .exited | .retrying _ => 0
  | .dozing => 1
  | .taking => 3
  | .checking _ => 4
  | .sizing => 5
  | .locking | .woken => 6
  | .starting => 7
  | .leaving => 8
  | .handling _ => 9
  | .received _ => 10
  | .returning _ => 11
  | .notifying => 15

/-- The worker has come to the end of `workFunction`, or is on its way there. -/
def Worker.quits {τ : Type} : Worker τ → Bool
  | .exited | .returning none | .received none => true
  | _ => false

def Main.left : Main → Bool
  | .closing | .broadcasting | .awaiting | .ending | .finished => true
  | _ => false

def Main.entered : Main → Bool
  | .starting | .creating _ | .launching => false
  | _ => true

/-- The `notify_one` that the main thread still owes. -/
def Main.notifies : Main → ℕ
  | .notifying => 1
  | _ => 0

theorem Worker.untilBlocked_le {τ : Type} (p : Worker τ) : p.untilBlocked ≤ 15 := by
  cases p <;> simp [Worker.untilBlocked]

namespace ThreadPool

open Tally

variable {ω τ : Type} [DecidableEq ω] [Fintype ω] {s t : ThreadPool ω τ} {c : Command ω τ}
  {nullIndex : τ → Bool}

/-- The steps before all workers block; a task in the queue pays for those of its handler. -/
def untilBlocked (s : ThreadPool ω τ) : ℕ :=
  tally Worker.untilBlocked s.worker + 9 * s.tasks.length

/-- The task of the worker does not go back to the queue. -/
def Command.isFinal : Command ω τ → Prop
  | .handled _ result => result ≠ -1
  | .retry _ _ => False
  | _ => True

theorem untilBlocked_set (s : ThreadPool ω τ) (w : ω) (p : Worker τ) :
    (s.set w p).untilBlocked + (s.worker w).untilBlocked = s.untilBlocked + p.untilBlocked := by
  have hset := tally_set Worker.untilBlocked s w p
  show _ + 9 * s.tasks.length + _ = _ + 9 * s.tasks.length + _
  omega

theorem NotifyResult.untilBlocked_le (h : s.NotifyResult t) :
    t.untilBlocked ≤ s.untilBlocked + 6 := by
  cases h with
  | nobody => exact Nat.le_add_right _ _
  | @woken v hv =>
      have hset := untilBlocked_set s v .woken
      rw [hv] at hset
      exact hset.le

theorem untilBlocked_move {w : ω} {p : Worker τ} (htasks : t.tasks = s.tasks)
    (hworker : t.worker = Function.update s.worker w p)
    (hlower : p.untilBlocked + 1 ≤ (s.worker w).untilBlocked) :
    t.untilBlocked + 1 ≤ s.untilBlocked := by
  have hset := untilBlocked_set s w p
  have hsame : t.untilBlocked = (s.set w p).untilBlocked := by
    rw [untilBlocked, htasks, hworker]
    rfl
  omega

theorem untilBlocked_work {w : ω} (hs : s.Exclusive) (h : s.WorkResult nullIndex w t) :
    t.untilBlocked + 1 ≤ s.untilBlocked := by
  cases h with
  | started hw =>
      refine untilBlocked_move rfl rfl ?_
      rw [hw, hs.working]
      exact le_rfl
  | locked hw =>
      rcases hw with hw | hw
      · exact untilBlocked_move (p := .sizing) rfl rfl (by rw [hw]; exact le_rfl)
      · exact untilBlocked_move (p := .sizing) rfl rfl (by rw [hw]; exact le_rfl)
  | sized hw => exact untilBlocked_move rfl rfl (by rw [hw]; exact le_rfl)
  | checked hw =>
      refine untilBlocked_move rfl rfl ?_
      rw [hw]
      split <;> simp [Worker.untilBlocked]
  | blocked hw => exact untilBlocked_move (p := .blocked) rfl rfl (by rw [hw]; exact le_rfl)
  | unlocked hw => exact untilBlocked_move (p := .received _) rfl rfl (by rw [hw]; exact le_rfl)
  | exited hw => exact untilBlocked_move rfl rfl (by rw [hw]; simp [Worker.untilBlocked])
  | called hw => exact untilBlocked_move (p := .handling _) rfl rfl (by rw [hw]; exact le_rfl)
  | left hw => exact untilBlocked_move (p := .starting) rfl rfl (by rw [hw]; exact le_rfl)

variable [DecidableEq τ]

/-- Every step of a worker counts, and a wake-up pays for those that it brings. -/
theorem untilBlocked_of_step (hs : s.Exclusive) (hc : c.isFinal) {w : ω} (htaker : c.taker = some w)
    (h : s.step nullIndex c = some t) :
    t.untilBlocked + 1 ≤ s.untilBlocked + if c.isWake then 7 else 0 := by
  cases step_result h with
  | addTask | notify | shutdown | finish | notifyAll => cases htaker
  | work hwork => exact untilBlocked_work hs hwork
  | @take w hw =>
      have hset := tally_set Worker.untilBlocked s w (.returning s.tasks.getLast?)
      have hpos := List.length_pos_iff.mpr (hs.counts w (by rw [hw]; trivial))
      rw [hw] at hset
      change _ + 3 = _ + 11 at hset
      show tally Worker.untilBlocked (s.set w _).worker + 9 * s.tasks.tail.length + 1 ≤
        tally Worker.untilBlocked s.worker + 9 * s.tasks.length + 0
      rw [List.length_tail]
      omega
  | @handled w task hw result =>
      rw [if_neg hc]
      exact untilBlocked_move rfl rfl (by rw [hw]; exact le_rfl)
  | retry => exact hc.elim
  | @renotify w target t hw hresult =>
      have hset := untilBlocked_set s w .leaving
      have hle := hresult.untilBlocked_le
      rw [hw] at hset
      change _ + 15 = _ + 8 at hset
      change _ + 1 ≤ _ + 0
      omega
  | @wake w hw =>
      have hset := untilBlocked_set s w .woken
      rw [hw] at hset
      exact Nat.succ_le_succ hset.le

theorem notifying_of_taker {w : ω} (htaker : c.taker = some w) (h : s.step nullIndex c = some t) :
    t.notifying = s.notifying := by
  cases step_result h with
  | addTask | notify | shutdown | finish | notifyAll => cases htaker
  | work hwork => cases hwork <;> rfl
  | renotify _ hresult => cases hresult <;> rfl
  | take | handled | retry | wake => rfl

/-! ### Nobody returns -/

/-- No worker comes to the end of `workFunction`. -/
def Staffed (s : ThreadPool ω τ) : Prop := ∀ w, (s.worker w).quits = false

omit [DecidableEq ω] [Fintype ω] [DecidableEq τ] in
theorem initThreads_staffed : (initThreads : ThreadPool ω τ).Staffed := fun _ => rfl

omit [Fintype ω] [DecidableEq τ] in
theorem Staffed.move (hs : s.Staffed) {w : ω} {p : Worker τ} (hp : p.quits = false)
    (hworker : t.worker = Function.update s.worker w p) : t.Staffed := by
  intro v
  rw [hworker]
  by_cases hvw : v = w
  · rw [hvw, Function.update_self]
    exact hp
  · rw [Function.update_of_ne hvw]
    exact hs v

omit [Fintype ω] [DecidableEq τ] in
theorem Staffed.notify (hs : s.Staffed) (h : s.NotifyResult t) : t.Staffed := by
  cases h with
  | nobody => exact hs
  | woken => exact hs.move rfl rfl

omit [Fintype ω] [DecidableEq τ] in
theorem Staffed.work (hs : s.Staffed) (hexclusive : s.Exclusive) {w : ω}
    (h : s.WorkResult (fun _ => false) w t) : t.Staffed := by
  cases h with
  | started =>
      refine hs.move ?_ rfl
      rw [hexclusive.working]
      rfl
  | checked => exact hs.move (by split <;> rfl) rfl
  | @exited task hw hnull =>
      cases task with
      | none =>
          have hquits := hs w
          rw [hw] at hquits
          cases hquits
      | some task => cases hnull
  | @unlocked task hw =>
      refine hs.move (p := .received task) ?_ rfl
      have hquits := hs w
      rw [hw] at hquits
      cases task with
      | none => cases hquits
      | some task => rfl
  | locked => exact hs.move (p := .sizing) rfl rfl
  | sized => exact hs.move rfl rfl
  | blocked => exact hs.move (p := .blocked) rfl rfl
  | called => exact hs.move (p := .handling _) rfl rfl
  | left => exact hs.move (p := .starting) rfl rfl

theorem Staffed.step (hs : s.Staffed) (hexclusive : s.Exclusive)
    (h : s.step (fun _ => false) c = some t) : t.Staffed := by
  cases step_result h with
  | addTask | shutdown | finish => exact hs
  | notify _ hresult =>
      exact Staffed.notify (s := { s with notifying := s.notifying - 1 }) hs hresult
  | notifyAll =>
      intro v
      show (if (s.worker v).isBlocked then Worker.woken else s.worker v).quits = false
      split
      · rfl
      · exact hs v
  | work hwork => exact hs.work hexclusive hwork
  | @take w hw =>
      obtain ⟨task, htask⟩ := Option.ne_none_iff_exists'.mp
        (mt List.getLast?_eq_none_iff.mp (hexclusive.counts w (by rw [hw]; trivial)))
      rw [htask]
      exact hs.move (p := .returning (some task)) rfl rfl
  | handled => exact hs.move (by split <;> rfl) rfl
  | retry => exact hs.move (p := .notifying) rfl rfl
  | renotify _ hresult => exact (hs.move (p := .leaving) rfl rfl).notify hresult
  | wake => exact hs.move rfl rfl

end ThreadPool

namespace Session

open ThreadPool Tally

variable {n : ℕ} {τ : Type} {s t : Session n τ}

/-! ### Steps of the session -/

/-- On its own the main thread changes nothing of the pool but `finish`. -/
theorem pool_of_advance (h : s.advance = some t) :
    ∃ finish, t.pool = { s.pool with finish } ∧ s.main.notifies = 0 ∧ t.main.notifies = 0 ∧
      t.main.left = s.main.left ∧
        (s.main.left = false → s.pool.finish = false → finish = false) := by
  rw [Session.advance] at h
  split at h
  case h_1 hmain =>
    cases h
    exact ⟨false, rfl, by rw [hmain]; rfl, rfl, by rw [hmain]; rfl, fun _ _ => rfl⟩
  case h_2 i hmain =>
    cases h
    refine ⟨s.pool.finish, rfl, by rw [hmain]; rfl, ?_, ?_, fun _ => id⟩
    · show (if i < n then Main.creating (i + 1) else .launching).notifies = 0
      split <;> rfl
    · show (if i < n then Main.creating (i + 1) else .launching).left = _
      rw [hmain]
      split <;> rfl
  case h_3 hmain =>
    cases h
    exact ⟨s.pool.finish, rfl, by rw [hmain]; rfl, rfl, by rw [hmain]; rfl, fun _ => id⟩
  case h_4 hmain =>
    split at h
    · cases h
      exact ⟨s.pool.finish, rfl, by rw [hmain]; rfl, rfl, by rw [hmain]; rfl, fun _ => id⟩
    · cases h
  case h_5 hmain =>
    cases h
    exact ⟨true, rfl, by rw [hmain]; rfl, rfl, by rw [hmain]; rfl, fun h => by
      rw [hmain] at h
      cases h⟩
  case h_6 => cases h

variable [DecidableEq τ] {nullIndex : τ → Bool}

theorem pool_of_joinAll (h : s.joinAll = some t) :
    ∃ finish, t.pool = { s.pool with finish } ∧ t.main = s.main ∧
      (s.pool.finish = false → finish = false) := by
  rw [Session.joinAll] at h
  split at h
  · cases h
    exact ⟨false, rfl, rfl, fun _ => rfl⟩
  · split at h
    · split at h
      · cases h
        exact ⟨s.pool.finish, rfl, rfl, id⟩
      · cases h
    · cases h
      exact ⟨s.pool.finish, rfl, rfl, id⟩
  · cases h

omit [DecidableEq τ] in
theorem left_of_next {c : ThreadPool.Command (Fin n) τ} {main main' : Main}
    (h : main.next c = some main') : (main.left = true → main'.left = true) ∧
      (main'.left = true → main.left = true ∨
        ∃ evenNonEmptyQueue, c = .shutdown evenNonEmptyQueue) := by
  unfold Main.next at h
  split at h
  case h_1 | h_2 =>
    cases h
    exact ⟨Bool.noConfusion, Bool.noConfusion⟩
  case h_3 =>
    cases h
    exact ⟨fun _ => rfl, fun _ => .inr ⟨_, rfl⟩⟩
  case h_4 | h_5 =>
    cases h
    exact ⟨fun _ => rfl, fun _ => .inl rfl⟩
  case h_6 => cases h

theorem left_of_step {c : Command n τ} (h : s.step nullIndex c = some t) :
    (s.main.left = true → t.main.left = true) ∧
      (t.main.left = true → s.main.left = true ∨
        ∃ evenNonEmptyQueue, c = .pool (.shutdown evenNonEmptyQueue)) := by
  cases c with
  | main =>
      obtain ⟨_, _, _, _, hleft, _⟩ := pool_of_advance h
      rw [hleft]
      exact ⟨id, .inl⟩
  | join =>
      obtain ⟨_, _, hmain, _⟩ := pool_of_joinAll h
      rw [hmain]
      exact ⟨id, .inl⟩
  | pool c =>
      obtain ⟨pool, _, ⟨w, _, rfl⟩ | ⟨_, main, hnext, rfl⟩⟩ := step_pool_eq_some h
      · exact ⟨id, .inl⟩
      · obtain ⟨hleaves, hleft⟩ := left_of_next hnext
        refine ⟨hleaves, fun h => (hleft h).imp_right ?_⟩
        rintro ⟨evenNonEmptyQueue, rfl⟩
        exact ⟨evenNonEmptyQueue, rfl⟩

theorem entered_of_step {c : Command n τ} (hs : s.main.entered = true)
    (h : s.step nullIndex c = some t) : t.main.entered = true := by
  cases c with
  | main =>
      rw [Session.step, Session.advance] at h
      split at h
      case h_1 hmain | h_2 hmain | h_3 hmain =>
        rw [hmain] at hs
        cases hs
      case h_4 =>
        split at h
        · cases h
          rfl
        · cases h
      case h_5 =>
        cases h
        rfl
      case h_6 => cases h
  | join =>
      obtain ⟨_, _, hmain, _⟩ := pool_of_joinAll h
      rw [hmain]
      exact hs
  | pool c =>
      obtain ⟨pool, _, ⟨w, _, rfl⟩ | ⟨_, main, hnext, rfl⟩⟩ := step_pool_eq_some h
      · exact hs
      · unfold Main.next at hnext
        split at hnext <;> cases hnext <;> rfl

theorem serving_or_notifying {main : Main} (hentered : main.entered = true)
    (hleft : ¬ main.left = true) : main = .serving ∨ main = .notifying := by
  cases main with
  | serving => exact .inl rfl
  | notifying => exact .inr rfl
  | starting | creating | launching => cases hentered
  | closing | broadcasting | awaiting | ending | finished => exact absurd rfl hleft

structure Serving (s : Session n τ) : Prop where
  exclusive : s.pool.Exclusive
  staffed : s.pool.Staffed
  notifying : s.pool.notifying = s.main.notifies

omit [DecidableEq τ] in
theorem new_serving : (new : Session n τ).Serving :=
  ⟨initThreads_exclusive, initThreads_staffed, rfl⟩

omit [DecidableEq τ] in
theorem Serving.store (hs : s.Serving) {finish : Bool} (hfinish : finish = false)
    (hpool : t.pool = { s.pool with finish }) (hmain : t.main.notifies = s.main.notifies) :
    t.Serving := by
  refine ⟨?_, ?_, ?_⟩
  · rw [hpool]
    exact hs.exclusive.of_eq (hfinish.trans hs.exclusive.working.symm) rfl rfl id
  · rw [hpool]
    exact hs.staffed
  · rw [hpool, hmain]
    exact hs.notifying

/-- Each task that the main thread adds has its notification. -/
theorem notifying_of_next {c : ThreadPool.Command (Fin n) τ} {pool : ThreadPool (Fin n) τ}
    {main : Main} (hnext : s.main.next c = some main) (hpool : s.pool.step nullIndex c = some pool)
    (hs : s.pool.notifying = s.main.notifies) : pool.notifying = main.notifies := by
  unfold Main.next at hnext
  split at hnext
  case h_1 hmain =>
    cases hnext
    cases step_result hpool
    rw [hmain] at hs
    exact congrArg Nat.succ hs
  case h_2 hmain =>
    cases hnext
    rw [hmain] at hs
    cases step_result hpool with
    | notify _ hresult =>
        have hsame : pool.notifying = s.pool.notifying - 1 := by cases hresult <;> rfl
        rw [hsame, hs]
        rfl
  case h_3 hmain | h_4 hmain | h_5 hmain =>
    cases hnext
    cases step_result hpool
    rw [hmain] at hs
    exact hs
  case h_6 => cases hnext

theorem Serving.step (hs : s.Serving) {c : Command n τ} (hleft : t.main.left = false)
    (h : s.step (fun _ => false) c = some t) : t.Serving := by
  have hstays : s.main.left = false :=
    Bool.eq_false_of_not_eq_true fun hs => by
      rw [(left_of_step h).1 hs] at hleft
      cases hleft
  cases c with
  | main =>
      obtain ⟨finish, hpool, hs₀, ht₀, _, hfinish⟩ := pool_of_advance h
      exact hs.store (hfinish hstays hs.exclusive.working) hpool (ht₀.trans hs₀.symm)
  | join =>
      obtain ⟨finish, hpool, hmain, hfinish⟩ := pool_of_joinAll h
      exact hs.store (hfinish hs.exclusive.working) hpool (by rw [hmain])
  | pool c =>
      have hfinish : c ≠ .finish := by
        rintro rfl
        have hnone : s.main.next (.finish : ThreadPool.Command (Fin n) τ) = none := by
          cases hmain : s.main <;> first | rfl | (rw [hmain] at hstays; cases hstays)
        obtain ⟨_, _, ⟨_, htaker, _⟩ | ⟨_, _, hnext, _⟩⟩ := step_pool_eq_some h
        · cases htaker
        · rw [hnone] at hnext
          cases hnext
      obtain ⟨pool, hpool, htaken⟩ := step_pool_eq_some h
      obtain ⟨hexclusive, _⟩ := hs.exclusive.step hfinish hpool
      have hstaffed := hs.staffed.step hs.exclusive hpool
      obtain ⟨w, htaker, rfl⟩ | ⟨_, main, hnext, rfl⟩ := htaken
      · exact ⟨hexclusive, hstaffed, (notifying_of_taker htaker hpool).trans hs.notifying⟩
      · exact ⟨hexclusive, hstaffed, notifying_of_next hnext hpool hs.notifying⟩

/-- While a task is in the queue or with a worker, and the main thread owes no notification, a
worker takes a step. -/
theorem Serving.goes_on (hs : s.Serving) (hsane : s.Sane nullIndex) (hn : 0 < n)
    (hmain : s.main = .serving)
    (htask : s.pool.tasks ≠ [] ∨ ∃ w, (s.pool.worker w).isBlocked = false) :
    ∃ c, c.taker.isSome ∧ c.isWake = false ∧ (s.step nullIndex (.pool c)).isSome := by
  have hexited : ∀ w, s.pool.worker w ≠ .exited := by
    intro w hw
    have hstays := hs.staffed w
    rw [hw] at hstays
    cases hstays
  have hawake : ∃ w, s.pool.worker w ≠ .blocked := by
    by_contra hblocked
    rw [not_exists_not] at hblocked
    refine hsane.attended.not_stranded ⟨.inl (htask.resolve_right ?_), ⟨⟨0, hn⟩, hexited _⟩,
      fun w _ => hblocked w, ?_, ?_⟩
    · rintro ⟨w, hw⟩
      rw [hblocked w] at hw
      cases hw
    · rw [hs.notifying, hmain]
      rfl
    · rw [hsane.broadcasting, hmain]
      rfl
  obtain ⟨w, hw⟩ := hawake
  obtain ⟨c, htaker, hwake, hstep⟩ := hsane.owned.goes_on nullIndex (hexited w) hw
  refine ⟨c, htaker, hwake, ?_⟩
  obtain ⟨v, hv⟩ := Option.isSome_iff_exists.mp htaker
  obtain ⟨pool, hpool⟩ := Option.isSome_iff_exists.mp hstep
  simp [Session.step, hv, hmain, Main.created, hpool]

/-! ### How long it takes -/

/-- The steps before all workers block and the main thread and `joinAll` wait. -/
def untilBlocked (s : Session n τ) : ℕ :=
  s.pool.untilBlocked + 7 * s.main.notifies + if s.joiner = .launched then 1 else 0

omit [DecidableEq τ] in
theorem untilBlocked_le (s : Session n τ) :
    s.untilBlocked ≤ 15 * n + 9 * s.pool.tasks.length + 8 := by
  have hworkers : tally Worker.untilBlocked s.pool.worker ≤ 15 * n := by
    have hle : tally Worker.untilBlocked s.pool.worker ≤ tally (fun _ => 15) s.pool.worker :=
      Tally.tally_le fun w => Worker.untilBlocked_le (s.pool.worker w)
    simpa [tally, mul_comm] using hle
  have hmain : s.main.notifies ≤ 1 := by cases s.main <;> simp [Main.notifies]
  have hjoiner : (if s.joiner = .launched then 1 else 0) ≤ 1 := by split <;> omega
  rw [untilBlocked, ThreadPool.untilBlocked]
  omega

/-- A step that adds no task and does not shut the pool down. -/
def Command.proceeds : Command n τ → Prop
  | .pool c => c.isFinal ∧ (∀ task, c ≠ .addTask task) ∧
      ∀ evenNonEmptyQueue, c ≠ .shutdown evenNonEmptyQueue
  | .main | .join => True

def Command.isWake : Command n τ → Bool
  | .pool c => c.isWake
  | .main | .join => false

/-- Before `shutdown` `joinAll` waits for the first worker. -/
theorem Serving.joinAll (hs : s.Serving) (hsane : s.Sane nullIndex) (hn : 0 < n)
    (h : s.joinAll = some t) : s.joiner = .launched ∧ t.joiner ≠ .launched ∧ t.main = s.main ∧
      t.pool.worker = s.pool.worker ∧ t.pool.tasks = s.pool.tasks := by
  have hexited : ∀ w, s.pool.worker w ≠ .exited := by
    intro w hw
    have hstays := hs.staffed w
    rw [hw] at hstays
    cases hstays
  rw [Session.joinAll] at h
  split at h
  · next hjoiner =>
      cases h
      exact ⟨hjoiner, by simp, rfl, rfl, rfl⟩
  · next i hjoiner =>
      split at h
      · next hi =>
          split at h
          · next hw => exact absurd hw (hexited _)
          · cases h
      · next hi =>
          exact absurd (hsane.joined i hjoiner ⟨0, hn⟩ (by show 0 < i; omega)) (hexited _)
  · cases h

omit [DecidableEq τ] in
theorem next_of_proceeds {main main' : Main} (hmain : main = .serving ∨ main = .notifying)
    {c : ThreadPool.Command (Fin n) τ} (hc : (Command.pool c).proceeds)
    (h : main.next c = some main') :
    main = .notifying ∧ main' = .serving ∧ ∃ target, c = .notify target := by
  unfold Main.next at h
  split at h
  case h_1 => exact absurd rfl (hc.2.1 _)
  case h_2 =>
    cases h
    exact ⟨rfl, rfl, _, rfl⟩
  case h_3 => exact absurd rfl (hc.2.2 _)
  case h_4 | h_5 => simp at hmain
  case h_6 => cases h

/-- In the loop every step counts, and a wake-up pays for those that it brings. -/
theorem Serving.lowers (hs : s.Serving) (hsane : s.Sane nullIndex) (hn : 0 < n)
    (hmain : s.main = .serving ∨ s.main = .notifying) {c : Command n τ} (hc : c.proceeds)
    (h : s.step (fun _ => false) c = some t) :
    (t.main = .serving ∨ t.main = .notifying) ∧
      t.untilBlocked + 1 ≤ s.untilBlocked + if c.isWake then 7 else 0 := by
  cases c with
  | main =>
      rw [Session.step, Session.advance] at h
      rcases hmain with hmain | hmain <;> simp [hmain] at h
  | join =>
      obtain ⟨hlaunched, hwaits, hsame, hworker, htasks⟩ := hs.joinAll hsane hn h
      refine ⟨hsame ▸ hmain, ?_⟩
      rw [untilBlocked, untilBlocked, ThreadPool.untilBlocked, ThreadPool.untilBlocked, hworker,
        htasks, hsame, if_neg hwaits, if_pos hlaunched]
      exact le_rfl
  | pool c =>
      obtain ⟨pool, hpool, ⟨w, htaker, rfl⟩ | ⟨htaker, main, hnext, rfl⟩⟩ := step_pool_eq_some h
      · refine ⟨hmain, ?_⟩
        have hlower := ThreadPool.untilBlocked_of_step hs.exclusive hc.1 htaker hpool
        show pool.untilBlocked + 7 * s.main.notifies + (if s.joiner = .launched then 1 else 0) + 1 ≤
          s.untilBlocked + if c.isWake then 7 else 0
        rw [untilBlocked]
        omega
      · obtain ⟨hnotifying, rfl, target, rfl⟩ := next_of_proceeds hmain hc hnext
        refine ⟨.inl rfl, ?_⟩
        have hlower : pool.untilBlocked ≤ s.pool.untilBlocked + 6 := by
          cases ThreadPool.step_result hpool with
          | notify _ hresult => exact hresult.untilBlocked_le
        show pool.untilBlocked + 7 * 0 + (if s.joiner = .launched then 1 else 0) + 1 ≤
          s.untilBlocked + 0
        rw [untilBlocked, hnotifying, Main.notifies]
        omega

end Session

end IndexServer
