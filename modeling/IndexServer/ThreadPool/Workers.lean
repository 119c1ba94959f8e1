import IndexServer.ThreadPool.Order
import IndexServer.ThreadPool.Session
import IndexServer.Lib.Tally

/-!
# What the workers do until they return

Two tallies of the workers. One counts those between the two changes of `busyThreadCount`, which is
what `getBusyThreadCount` returns in every interleaving. The other adds up the steps that the
workers still take once `FINISH` is stored: every one of them lowers it, so they take finitely many,
and as long as one of them is neither blocked nor back from `workFunction` there is a next one.
-/

namespace IndexServer

/-- The worker is between the two changes of `busyThreadCount`. -/
def Worker.isBusy {τ : Type} : Worker τ → Bool
  | .handling _ | .retrying _ | .notifying | .leaving => true
  | _ => false

/-- The steps that the worker takes at most while `finish` is `FINISH`. -/
def Worker.stepsLeft {τ : Type} : Worker τ → ℕ
  | .exited => 0
  | .starting => 1
  | .leaving => 2
  | .notifying => 3
  | .retrying _ => 4
  | .handling _ => 5
  | .received _ => 6
  | .returning _ => 7
  | .taking => 8
  | .checking _ => 9
  | .sizing => 10
  | .locking | .woken => 11
  | .blocked => 12
  | .dozing => 13

/-- The tasks that the worker takes at most while `finish` is `FINISH`. -/
def Worker.takesLeft {τ : Type} : Worker τ → ℕ
  | .locking | .sizing | .checking _ | .dozing | .blocked | .woken | .taking => 1
  | _ => 0

theorem Worker.stepsLeft_le {τ : Type} (p : Worker τ) : p.stepsLeft ≤ 13 := by
  cases p <;> simp [Worker.stepsLeft]

theorem Worker.takesLeft_le {τ : Type} (p : Worker τ) : p.takesLeft ≤ 1 := by
  cases p <;> simp [Worker.takesLeft]

/-- The worker takes a task, or what `task` was constructed as. -/
def ThreadPool.Command.takes {ω τ : Type} [DecidableEq ω] (w : ω) :
    ThreadPool.Command ω τ → Bool
  | .take v _ => v = w
  | _ => false

theorem ThreadPool.taker_of_takes {ω τ : Type} [DecidableEq ω] {w : ω}
    {c : ThreadPool.Command ω τ} (h : c.takes w) : c.taker = some w := by
  cases c with
  | take v task => exact congrArg some (of_decide_eq_true h)
  | _ => cases h

namespace ThreadPool

open Tally

variable {ω τ : Type} [Fintype ω] [DecidableEq ω] {s t : ThreadPool ω τ} {weight : Worker τ → ℕ}

/-! ### Tallies of the workers -/

theorem tally_set (weight : Worker τ → ℕ) (s : ThreadPool ω τ) (w : ω) (p : Worker τ) :
    tally weight (s.set w p).worker + weight (s.worker w) = tally weight s.worker + weight p :=
  tally_update weight s.worker w p

theorem NotifyResult.tally_eq (h : s.NotifyResult t) (hwoken : weight .woken = weight .blocked) :
    tally weight t.worker = tally weight s.worker := by
  cases h with
  | nobody => rfl
  | @woken v hv =>
      have hmoved := tally_set weight s v .woken
      rw [hv] at hmoved
      omega

omit [Fintype ω] in
theorem NotifyResult.kept (h : s.NotifyResult t) :
    t.finish = s.finish ∧ t.broadcasting = s.broadcasting ∧
      t.busyThreadCount = s.busyThreadCount := by
  cases h <;> exact ⟨rfl, rfl, rfl⟩

omit [Fintype ω] [DecidableEq ω] in
theorem weight_notifyAll (weight : Worker τ → ℕ) (hwoken : weight .woken ≤ weight .blocked)
    (s : ThreadPool ω τ) (v : ω) :
    weight (if (s.worker v).isBlocked then .woken else s.worker v) ≤ weight (s.worker v) := by
  split
  · next hblocked =>
      rw [Worker.eq_blocked hblocked]
      exact hwoken
  · exact le_rfl

/-! ### The count of busy workers -/

/-- `busyThreadCount` is the number of the workers between its two changes. -/
def CountsBusy (s : ThreadPool ω τ) : Prop :=
  s.busyThreadCount = (count Worker.isBusy s.worker : ℕ)

omit [DecidableEq ω] in
theorem initThreads_countsBusy : (initThreads : ThreadPool ω τ).CountsBusy := by
  have hnobody : count Worker.isBusy (initThreads : ThreadPool ω τ).worker = 0 :=
    tally_eq_zero.mpr fun _ => rfl
  rw [CountsBusy, hnobody]
  rfl

omit [DecidableEq ω] in
theorem CountsBusy.of_count (hs : s.CountsBusy) (hbusy : t.busyThreadCount = s.busyThreadCount)
    (hcount : count Worker.isBusy t.worker = count Worker.isBusy s.worker) : t.CountsBusy := by
  rw [CountsBusy, hbusy, hcount]
  exact hs

theorem CountsBusy.set (hs : s.CountsBusy) {w : ω} {p : Worker τ}
    (hp : p.isBusy = (s.worker w).isBusy) : (s.set w p).CountsBusy := by
  refine hs.of_count (t := s.set w p) rfl ?_
  have hmoved := tally_set (fun q => (Worker.isBusy q).toNat) s w p
  rw [hp] at hmoved
  exact Nat.add_right_cancel hmoved

theorem CountsBusy.work {nullIndex : τ → Bool} (hs : s.CountsBusy) {w : ω}
    (h : s.WorkResult nullIndex w t) : t.CountsBusy := by
  cases h with
  | started hw =>
      apply hs.set
      rw [hw]
      split <;> rfl
  | locked hw =>
      have hset : (s.set w .sizing).CountsBusy := by
        apply hs.set
        rcases hw with hw | hw <;> rw [hw] <;> rfl
      exact hset.of_count rfl rfl
  | sized hw => exact hs.set (by rw [hw]; rfl)
  | checked hw =>
      apply hs.set
      rw [hw]
      split <;> rfl
  | blocked hw =>
      have hset : (s.set w .blocked).CountsBusy := hs.set (by rw [hw]; rfl)
      exact hset.of_count rfl rfl
  | @unlocked task hw =>
      have hset : (s.set w (.received task)).CountsBusy := hs.set (by rw [hw]; rfl)
      exact hset.of_count rfl rfl
  | exited hw => exact hs.set (by rw [hw]; rfl)
  | @called task hw =>
      have hmoved := tally_set (fun q => (Worker.isBusy q).toNat) s w (.handling task)
      rw [hw] at hmoved
      have hup : count Worker.isBusy (s.set w (.handling task)).worker =
          count Worker.isBusy s.worker + 1 := hmoved
      show s.busyThreadCount + 1 = (count Worker.isBusy (s.set w (.handling task)).worker : ℕ)
      rw [hup, hs, Nat.cast_add, Nat.cast_one]
  | left hw =>
      have hmoved := tally_set (fun q => (Worker.isBusy q).toNat) s w .starting
      rw [hw] at hmoved
      have hdown : count Worker.isBusy (s.set w .starting).worker + 1 =
          count Worker.isBusy s.worker := hmoved
      show s.busyThreadCount - 1 = (count Worker.isBusy (s.set w .starting).worker : ℕ)
      rw [hs, ← hdown, Nat.cast_add, Nat.cast_one, add_sub_cancel_right]

variable [DecidableEq τ] {nullIndex : τ → Bool} {c : Command ω τ}

theorem CountsBusy.step (hs : s.CountsBusy) (h : s.step nullIndex c = some t) : t.CountsBusy := by
  have hnotify : ∀ {s t : ThreadPool ω τ}, s.CountsBusy → s.NotifyResult t → t.CountsBusy :=
    fun hs h => hs.of_count h.kept.2.2 (h.tally_eq rfl)
  cases step_result h with
  | addTask | shutdown | finish => exact hs.of_count rfl rfl
  | notify _ hresult =>
      exact hnotify (s := { s with notifying := s.notifying - 1 }) (hs.of_count rfl rfl) hresult
  | notifyAll =>
      refine hs.of_count (t := { s with
        broadcasting := s.broadcasting - 1
        worker := fun v => if (s.worker v).isBlocked then .woken else s.worker v }) rfl ?_
      apply Finset.sum_congr rfl
      intro v _
      show (Worker.isBusy (if (s.worker v).isBlocked then _ else s.worker v)).toNat = _
      split
      · next hblocked =>
          rw [Worker.eq_blocked hblocked]
          rfl
      · rfl
  | work hwork => exact hs.work hwork
  | @take w hw =>
      have hset : (s.set w (.returning s.tasks.getLast?)).CountsBusy := hs.set (by rw [hw]; rfl)
      exact hset.of_count rfl rfl
  | handled hw result =>
      apply hs.set
      rw [hw]
      split <;> rfl
  | @retry w task hw =>
      have hset : (s.set w .notifying).CountsBusy := hs.set (by rw [hw]; rfl)
      exact hset.of_count rfl rfl
  | renotify hw hresult => exact hnotify (hs.set (by rw [hw]; rfl)) hresult
  | wake hw => exact hs.set (by rw [hw]; rfl)

/-- In every interleaving `getBusyThreadCount` returns the number of the workers that run the task
handler or put its task back, which is never negative and never more than the number of workers. -/
theorem run_busyThreadCount {cs : List (Command ω τ)}
    (hrun : Machine.run (step nullIndex) initThreads cs = some s) :
    s.busyThreadCount = (count Worker.isBusy s.worker : ℕ) ∧
      0 ≤ s.busyThreadCount ∧ s.busyThreadCount ≤ Fintype.card ω ∧
        ((∀ w, s.worker w = .exited) → s.busyThreadCount = 0) := by
  have hcount : s.CountsBusy := Machine.run_history (fun _ s => s.CountsBusy)
    initThreads_countsBusy (fun _ _ _ _ _ hs hstep => hs.step hstep) hrun
  have hle : count Worker.isBusy s.worker ≤ Fintype.card ω := by
    have hone : tally (fun q => (Worker.isBusy q).toNat) s.worker ≤ tally (fun _ => 1) s.worker :=
      Tally.tally_le fun _ => Bool.toNat_le _
    rwa [show tally (fun _ => 1) s.worker = Fintype.card ω by simp [tally]] at hone
  rw [CountsBusy] at hcount
  refine ⟨hcount, by omega, by omega, fun hexited => ?_⟩
  rw [hcount, count, tally_eq_zero.mpr fun w => by rw [hexited w]; rfl]
  rfl

/-- One worker is running the handler while the other waits for `lkm`. -/
def oneBusy : List (Command Bool ℕ) :=
  [.work false, .addTask 1, .work true, .work false, .notify none, .work false, .work false,
    .take false (some 1), .work false, .work false]

theorem oneBusy_busyThreadCount : ∃ s,
    Machine.run (step fun _ => false) initThreads oneBusy = some s ∧
      s.busyThreadCount = (count Worker.isBusy s.worker : ℕ) ∧ 0 ≤ s.busyThreadCount ∧
        s.busyThreadCount ≤ Fintype.card Bool ∧
          ((∀ w, s.worker w = .exited) → s.busyThreadCount = 0) := by
  obtain ⟨s, hrun⟩ : ∃ s, Machine.run (step fun _ => false) initThreads oneBusy = some s :=
    Option.isSome_iff_exists.mp (by decide)
  exact ⟨s, hrun, run_busyThreadCount hrun⟩

/-! ### The steps behind `FINISH` -/

inductive Advances : Command ω τ → Worker τ → Worker τ → Prop
  | started (w : ω) : Advances (.work w) .starting .exited
  | locked (w : ω) : Advances (.work w) .locking .sizing
  | relocked (w : ω) : Advances (.work w) .woken .sizing
  | sized (w : ω) (size : ℕ) : Advances (.work w) .sizing (.checking size)
  | checked (w : ω) (size : ℕ) : Advances (.work w) (.checking size) .taking
  | blocked (w : ω) : Advances (.work w) .dozing .blocked
  | take (w : ω) (task : Option τ) : Advances (.take w task) .taking (.returning task)
  | unlocked (w : ω) (task : Option τ) : Advances (.work w) (.returning task) (.received task)
  | exited (w : ω) (task : Option τ) : Advances (.work w) (.received task) .exited
  | called (w : ω) (task : τ) : Advances (.work w) (.received (some task)) (.handling task)
  | handled (w : ω) (result : Int) (task : τ) :
      Advances (.handled w result) (.handling task)
        (if result = -1 then .retrying task else .leaving)
  | retry (w : ω) (task : τ) : Advances (.retry w task) (.retrying task) .notifying
  | renotify (w : ω) (target : Option ω) : Advances (.renotify w target) .notifying .leaving
  | left (w : ω) : Advances (.work w) .leaving .starting
  | wake (w : ω) : Advances (.wake w) .blocked .woken

def Rouses (f g : ω → Worker τ) : Prop := ∀ v, g v = f v ∨ f v = .blocked ∧ g v = .woken

omit [Fintype ω] [DecidableEq ω] [DecidableEq τ] in
theorem Rouses.refl (f : ω → Worker τ) : Rouses f f := fun _ => .inl rfl

omit [Fintype ω] [DecidableEq ω] [DecidableEq τ] in
theorem Rouses.weight_le {f g : ω → Worker τ} (h : Rouses f g) (weight : Worker τ → ℕ)
    (hwoken : weight .woken ≤ weight .blocked) (v : ω) : weight (g v) ≤ weight (f v) := by
  rcases h v with hsame | ⟨hf, hg⟩
  · rw [hsame]
  · rw [hf, hg]
    exact hwoken

omit [Fintype ω] [DecidableEq τ] in
theorem NotifyResult.rouses (h : s.NotifyResult t) : Rouses s.worker t.worker := by
  cases h with
  | nobody => exact .refl _
  | @woken v hv =>
      intro u
      by_cases huv : u = v
      · subst huv
        exact .inr ⟨hv, Function.update_self _ _ _⟩
      · exact .inl (Function.update_of_ne huv _ _)

/-- A command moves the worker that takes it, if there is one, and wakes some of the others. -/
theorem advances_of_step (hfinish : s.finish = true) (h : s.step nullIndex c = some t) :
    (c.taker = none ∧ Rouses s.worker t.worker) ∨
      ∃ w q, c.taker = some w ∧ Advances c (s.worker w) q ∧
        Rouses (Function.update s.worker w q) t.worker := by
  cases step_result h with
  | addTask | shutdown | finish => exact .inl ⟨rfl, .refl _⟩
  | notify _ hresult => exact .inl ⟨rfl, hresult.rouses⟩
  | notifyAll =>
      refine .inl ⟨rfl, fun v => ?_⟩
      show (if (s.worker v).isBlocked then Worker.woken else s.worker v) = s.worker v ∨
        s.worker v = .blocked ∧ (if (s.worker v).isBlocked then _ else s.worker v) = .woken
      split
      · next hblocked => exact .inr ⟨Worker.eq_blocked hblocked, rfl⟩
      · exact .inl rfl
  | @work w _ hwork =>
      right
      cases hwork with
      | started hw =>
          exact ⟨w, .exited, rfl, hw ▸ .started w, by rw [if_pos hfinish]; exact .refl _⟩
      | locked hw =>
          refine ⟨w, .sizing, rfl, ?_, .refl _⟩
          rcases hw with hw | hw
          · exact hw ▸ .locked w
          · exact hw ▸ .relocked w
      | sized hw => exact ⟨w, _, rfl, hw ▸ .sized w _, .refl _⟩
      | checked hw =>
          refine ⟨w, .taking, rfl, hw ▸ .checked w _, ?_⟩
          rw [if_neg (by rw [hfinish]; exact fun h => Bool.noConfusion h.2)]
          exact .refl _
      | blocked hw => exact ⟨w, _, rfl, hw ▸ .blocked w, .refl _⟩
      | unlocked hw => exact ⟨w, _, rfl, hw ▸ .unlocked w _, .refl _⟩
      | exited hw => exact ⟨w, _, rfl, hw ▸ .exited w _, .refl _⟩
      | called hw => exact ⟨w, _, rfl, hw ▸ .called w _, .refl _⟩
      | left hw => exact ⟨w, _, rfl, hw ▸ .left w, .refl _⟩
  | @take w hw => exact .inr ⟨w, _, rfl, hw ▸ .take w _, .refl _⟩
  | @handled w _ hw result => exact .inr ⟨w, _, rfl, hw ▸ .handled w result _, .refl _⟩
  | @retry w task hw => exact .inr ⟨w, _, rfl, hw ▸ .retry w task, .refl _⟩
  | @renotify w target _ hw hresult =>
      exact .inr ⟨w, _, rfl, hw ▸ .renotify w target, hresult.rouses⟩
  | @wake w hw => exact .inr ⟨w, _, rfl, hw ▸ .wake w, .refl _⟩

omit [Fintype ω] [DecidableEq ω] [DecidableEq τ] in
theorem Advances.stepsLeft_lt {c : Command ω τ} {p q : Worker τ} (h : Advances c p q) :
    q.stepsLeft < p.stepsLeft := by
  cases h with
  | handled w result task =>
      show Worker.stepsLeft (if result = -1 then Worker.retrying task else .leaving) < 5
      split <;> simp [Worker.stepsLeft]
  | _ => simp [Worker.stepsLeft]

theorem stepsLeft_of_step (hfinish : s.finish = true) (h : s.step nullIndex c = some t) :
    tally Worker.stepsLeft t.worker + (if c.taker.isSome then 1 else 0) ≤
      tally Worker.stepsLeft s.worker := by
  rcases advances_of_step hfinish h with ⟨htaker, hrouses⟩ | ⟨w, q, htaker, hadvances, hrouses⟩
  · rw [htaker]
    exact Tally.tally_le (hrouses.weight_le Worker.stepsLeft (Nat.le_succ 11))
  · have hmoved := tally_update Worker.stepsLeft s.worker w q
    have hle := Tally.tally_le (hrouses.weight_le Worker.stepsLeft (Nat.le_succ 11))
    have hlt := hadvances.stepsLeft_lt
    rw [htaker, Option.isSome_some, if_pos rfl]
    omega

omit [Fintype ω] [DecidableEq τ] in
theorem Advances.takesLeft_le {c : Command ω τ} {p q : Worker τ} (h : Advances c p q) (w : ω) :
    q.takesLeft + (if c.takes w then 1 else 0) ≤ p.takesLeft := by
  cases h with
  | take v task =>
      show 0 + _ ≤ 1
      split <;> omega
  | handled v result task =>
      show Worker.takesLeft (if result = -1 then Worker.retrying task else .leaving) + 0 ≤ 0
      split <;> exact le_rfl
  | _ => simp [Worker.takesLeft, Command.takes]

theorem takesLeft_of_step (hfinish : s.finish = true) (h : s.step nullIndex c = some t) (w : ω) :
    (t.worker w).takesLeft + (if c.takes w then 1 else 0) ≤ (s.worker w).takesLeft := by
  rcases advances_of_step hfinish h with ⟨htaker, hrouses⟩ | ⟨v, q, htaker, hadvances, hrouses⟩
  · rw [if_neg fun htakes => by rw [taker_of_takes htakes] at htaker; cases htaker]
    exact hrouses.weight_le Worker.takesLeft le_rfl w
  have hle := hrouses.weight_le Worker.takesLeft le_rfl w
  by_cases hwv : w = v
  · subst hwv
    rw [Function.update_self] at hle
    exact (Nat.add_le_add_right hle _).trans (hadvances.takesLeft_le w)
  · rw [Function.update_of_ne hwv] at hle
    rw [if_neg fun htakes => hwv (Option.some.inj ((taker_of_takes htakes).symm.trans htaker))]
    exact hle

/-! ### There is a next step -/

/-- Whoever `lkm` belongs to stands where its owner stands. -/
def Owned (s : ThreadPool ω τ) : Prop := ∀ w, s.lkm = some w → (s.worker w).Holds

omit [Fintype ω] [DecidableEq ω] [DecidableEq τ] in
theorem initThreads_owned : (initThreads : ThreadPool ω τ).Owned := by
  intro w h
  cases h

omit [Fintype ω] [DecidableEq τ] in
theorem Owned.set (hs : s.Owned) {w : ω} {p : Worker τ} (hp : (s.worker w).Holds → p.Holds) :
    (s.set w p).Owned := by
  intro v hv
  show (Function.update s.worker w p v).Holds
  by_cases hvw : v = w
  · subst hvw
    rw [Function.update_self]
    exact hp (hs v hv)
  · rw [Function.update_of_ne hvw]
    exact hs v hv

omit [Fintype ω] [DecidableEq τ] in
theorem Owned.work {w : ω} (hs : s.Owned) (h : s.WorkResult nullIndex w t) : t.Owned := by
  cases h with
  | started hw => exact hs.set fun hholds => by rw [hw] at hholds; exact hholds.elim
  | locked =>
      intro v hv
      cases hv
      show (Function.update s.worker w .sizing w).Holds
      rw [Function.update_self]
      trivial
  | sized => exact hs.set fun _ => trivial
  | checked => exact hs.set fun _ => by split <;> trivial
  | blocked =>
      intro v hv
      cases hv
  | unlocked =>
      intro v hv
      cases hv
  | exited hw => exact hs.set fun hholds => by rw [hw] at hholds; exact hholds.elim
  | @called task hw =>
      exact (hs.set (p := .handling task) fun hholds => by rw [hw] at hholds; exact hholds.elim :)
  | left hw =>
      exact (hs.set (p := .starting) fun hholds => by rw [hw] at hholds; exact hholds.elim :)

omit [Fintype ω] [DecidableEq τ] in
theorem Owned.notify (hs : s.Owned) (h : s.NotifyResult t) : t.Owned := by
  cases h with
  | nobody => exact hs
  | woken hv => exact hs.set fun hholds => by rw [hv] at hholds; exact hholds.elim

theorem Owned.step (hs : s.Owned) (h : s.step nullIndex c = some t) : t.Owned := by
  cases step_result h with
  | addTask | shutdown | finish => exact hs
  | notify _ hresult => exact Owned.notify (s := { s with notifying := s.notifying - 1 }) hs hresult
  | notifyAll =>
      intro v hv
      show (if (s.worker v).isBlocked then Worker.woken else s.worker v).Holds
      split
      · next hblocked =>
          have hholds := hs v hv
          rw [Worker.eq_blocked hblocked] at hholds
          exact hholds.elim
      · exact hs v hv
  | work hwork => exact hs.work hwork
  | @take w hw => exact (hs.set (p := .returning s.tasks.getLast?) fun _ => trivial :)
  | handled hw => exact hs.set fun hholds => by rw [hw] at hholds; exact hholds.elim
  | @retry w task hw =>
      exact (hs.set (p := .notifying) fun hholds => by rw [hw] at hholds; exact hholds.elim :)
  | renotify hw hresult =>
      exact (hs.set fun hholds => by rw [hw] at hholds; exact hholds.elim).notify hresult
  | wake hw => exact hs.set fun hholds => by rw [hw] at hholds; exact hholds.elim

omit [DecidableEq τ] in
theorem exists_notifyOne (s : ThreadPool ω τ) : ∃ target, (s.notifyOne target).isSome := by
  by_cases hawake : ∀ v, (s.worker v).isBlocked = false
  · exact ⟨none, by rw [notifyOne, if_pos hawake]; rfl⟩
  · obtain ⟨v, hv⟩ := not_forall.mp hawake
    exact ⟨some v, by rw [notifyOne, if_pos (Bool.eq_true_of_not_eq_false hv)]; rfl⟩

def Command.isWake : Command ω τ → Bool
  | .wake _ => true
  | _ => false

/-- The owner of `lkm` is held up by nobody. -/
theorem exists_step_of_holds (nullIndex : τ → Bool) {w : ω} (hw : (s.worker w).Holds) :
    ∃ c, c.taker = some w ∧ c.isWake = false ∧ (s.step nullIndex c).isSome := by
  cases hp : s.worker w with
  | sizing | checking | dozing | returning =>
      exact ⟨.work w, rfl, rfl, by simp [ThreadPool.step, ThreadPool.work, hp]⟩
  | taking => exact ⟨.take w s.tasks.getLast?, rfl, rfl, by simp [ThreadPool.step, hp]⟩
  | _ =>
      rw [hp] at hw
      exact hw.elim

/-- A worker that is neither blocked nor back from `workFunction` takes a step, or the owner of the
`lkm` that it waits for does. -/
theorem Owned.goes_on (hs : s.Owned) (nullIndex : τ → Bool) {w : ω} (hexited : s.worker w ≠ .exited)
    (hblocked : s.worker w ≠ .blocked) :
    ∃ c, c.taker.isSome ∧ c.isWake = false ∧ (s.step nullIndex c).isSome := by
  have hlock : (s.worker w = .locking ∨ s.worker w = .woken) →
      ∃ c, c.taker.isSome ∧ c.isWake = false ∧ (s.step nullIndex c).isSome := by
    intro hw
    cases hlkm : s.lkm with
    | none =>
        refine ⟨.work w, rfl, rfl, ?_⟩
        rcases hw with hw | hw
        · simp [ThreadPool.step, ThreadPool.work, hw, hlkm]
        · simp [ThreadPool.step, ThreadPool.work, hw, hlkm]
    | some v =>
        obtain ⟨c, htaker, hstep⟩ := exists_step_of_holds nullIndex (hs v hlkm)
        exact ⟨c, by rw [htaker]; rfl, hstep⟩
  cases hp : s.worker w with
  | locking => exact hlock (.inl hp)
  | woken => exact hlock (.inr hp)
  | starting | leaving =>
      exact ⟨.work w, rfl, rfl, by simp [ThreadPool.step, ThreadPool.work, hp]⟩
  | sizing | checking | dozing | taking | returning =>
      obtain ⟨c, htaker, hstep⟩ := exists_step_of_holds (s := s) nullIndex (w := w) (by
        rw [hp]
        trivial)
      exact ⟨c, by rw [htaker]; rfl, hstep⟩
  | received task =>
      refine ⟨.work w, rfl, rfl, ?_⟩
      cases task with
      | none => simp [ThreadPool.step, ThreadPool.work, hp]
      | some task =>
          simp only [ThreadPool.step, ThreadPool.work, hp]
          split <;> rfl
  | handling task => exact ⟨.handled w 0, rfl, rfl, by simp [ThreadPool.step, hp]⟩
  | retrying task => exact ⟨.retry w task, rfl, rfl, by simp [ThreadPool.step, hp]⟩
  | notifying =>
      obtain ⟨target, htarget⟩ := (s.set w .leaving).exists_notifyOne
      exact ⟨.renotify w target, rfl, rfl, by rw [ThreadPool.step, if_pos hp]; exact htarget⟩
  | blocked => exact absurd hp hblocked
  | exited => exact absurd hp hexited

end ThreadPool

end IndexServer
