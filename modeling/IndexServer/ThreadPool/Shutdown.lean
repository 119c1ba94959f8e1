import IndexServer.ThreadPool.Session
import IndexServer.ThreadPool.Steps

/-!
# What `shutdown` stores

Only `joinAll` can undo the `FINISH` that `shutdown` stores, and it stores `WORK` once. So `FINISH`
stands until every worker has returned if `shutdown` comes to it after `joinAll` has stored `WORK`.
-/

namespace IndexServer

namespace ThreadPool

variable {ω τ : Type} [DecidableEq ω]

/-- A step that loses no `FINISH` and brings no worker back. -/
def Keeps (s t : ThreadPool ω τ) : Prop :=
  (s.finish = true → t.finish = true) ∧ ∀ v, s.worker v = .exited → t.worker v = .exited

variable {s t : ThreadPool ω τ}

theorem keeps_of_update {w : ω} (hw : s.worker w ≠ .exited) {p : Worker τ}
    (hfinish : s.finish = true → t.finish = true)
    (hworker : t.worker = Function.update s.worker w p) : s.Keeps t := by
  refine ⟨hfinish, fun v hv => ?_⟩
  have hvw : v ≠ w := by
    rintro rfl
    exact hw hv
  rw [hworker, Function.update_of_ne hvw]
  exact hv

theorem keeps_of_work {nullIndex : τ → Bool} {w : ω} (h : s.WorkResult nullIndex w t) :
    s.Keeps t := by
  cases h with
  | locked hw =>
      rcases hw with hw | hw
      · exact keeps_of_update (by simp [hw]) id rfl
      · exact keeps_of_update (by simp [hw]) id rfl
  | started hw | sized hw | checked hw | blocked hw | unlocked hw | exited hw | called hw
  | left hw => exact keeps_of_update (by simp [hw]) id rfl

theorem keeps_of_notify (h : s.NotifyResult t) : s.Keeps t := by
  cases h with
  | nobody => exact ⟨id, fun _ => id⟩
  | woken hv => exact keeps_of_update (by simp [hv]) id rfl

variable [Fintype ω] [DecidableEq τ] {nullIndex : τ → Bool}

/-- No step of the pool stores `WORK`, and no worker comes back. -/
theorem keeps_of_step {c : Command ω τ} (h : s.step nullIndex c = some t) : s.Keeps t := by
  cases step_result h with
  | addTask | shutdown => exact ⟨id, fun _ => id⟩
  | notify _ hnotify => exact keeps_of_notify (s := { s with notifying := s.notifying - 1 }) hnotify
  | finish => exact ⟨fun _ => rfl, fun _ => id⟩
  | notifyAll =>
      refine ⟨id, fun v hv => ?_⟩
      show (if (s.worker v).isBlocked then Worker.woken else s.worker v) = .exited
      rw [hv]
      rfl
  | work hwork => exact keeps_of_work hwork
  | take hw | handled hw | retry hw | wake hw => exact keeps_of_update (by simp [hw]) id rfl
  | @renotify w _ _ hw hnotify =>
      have hset : s.Keeps (s.set w .leaving) := keeps_of_update (by simp [hw]) id rfl
      have hkept := keeps_of_notify hnotify
      exact ⟨fun hfinish => hkept.1 (hset.1 hfinish), fun v hv => hkept.2 v (hset.2 v hv)⟩

end ThreadPool

namespace Session

variable {n : ℕ} {τ : Type} {s t : Session n τ}

/-- What an ordered run keeps: once `FINISH` is stored, `joinAll` has no more to store, or every
worker has returned. -/
def Settled (s : Session n τ) : Prop :=
  s.Stored → s.Returned ∨ s.Joined ∧ s.pool.finish = true

theorem Settled.kept (hs : s.Settled) : s.Kept :=
  fun hstored => (hs hstored).symm.imp_left And.right

theorem settled_of_not_stored (h : ¬ s.Stored) : s.Settled := fun hstored => absurd hstored h

theorem Settled.advance (hs : s.Settled) (h : s.advance = some t) : t.Settled := by
  rw [Session.advance] at h
  cases hmain : s.main with
  | starting =>
      simp only [hmain, Option.some.injEq] at h
      subst h
      exact settled_of_not_stored id
  | creating i =>
      simp only [hmain, Option.some.injEq] at h
      subst h
      apply settled_of_not_stored
      by_cases hi : i < n
      · rw [Stored, if_pos hi]
        exact id
      · rw [Stored, if_neg hi]
        exact id
  | launching =>
      simp only [hmain, Option.some.injEq] at h
      subst h
      exact settled_of_not_stored id
  | awaiting =>
      simp only [hmain] at h
      split at h
      · cases h
        have hstored : s.Stored := by
          rw [Stored, hmain]
          trivial
        exact fun _ => hs hstored
      · cases h
  | ending =>
      simp only [hmain, Option.some.injEq] at h
      subst h
      have hstored : s.Stored := by
        rw [Stored, hmain]
        trivial
      exact fun _ => (hs hstored).imp_right fun hjoined => ⟨hjoined.1, rfl⟩
  | serving => simp only [hmain, reduceCtorEq] at h
  | notifying => simp only [hmain, reduceCtorEq] at h
  | closing => simp only [hmain, reduceCtorEq] at h
  | broadcasting => simp only [hmain, reduceCtorEq] at h
  | finished => simp only [hmain, reduceCtorEq] at h

theorem Settled.keeps (hs : s.Settled) {pool : ThreadPool (Fin n) τ} (hkeeps : s.pool.Keeps pool)
    {main : Main} (hstored : Stored { s with pool, main } → s.Stored) :
    Settled { s with pool, main } := by
  intro h
  apply (hs (hstored h)).imp
  · exact fun hreturned v => hkeeps.2 v (hreturned v)
  · exact fun hjoined => ⟨hjoined.1, hkeeps.1 hjoined.2⟩

variable [DecidableEq τ] {nullIndex : τ → Bool}

theorem Settled.next (hs : s.Settled) {c : ThreadPool.Command (Fin n) τ}
    (hc : s.Ordered (.pool c)) {main : Main} (hnext : s.main.next c = some main)
    {pool : ThreadPool (Fin n) τ} (h : s.pool.step nullIndex c = some pool) :
    Settled { s with pool, main } := by
  have hkeeps := ThreadPool.keeps_of_step h
  unfold Main.next at hnext
  split at hnext
  case h_4 =>
    cases hnext
    cases ThreadPool.step_result h
    exact fun _ => hc.symm.imp_right fun hjoined => ⟨hjoined, rfl⟩
  case h_5 hmain =>
    cases hnext
    apply hs.keeps hkeeps
    intro _
    rw [Stored, hmain]
    trivial
  all_goals
    cases hnext
    try exact settled_of_not_stored id

theorem Settled.join (hs : s.Settled) (h : s.joinAll = some t) : t.Settled := by
  rw [joinAll] at h
  cases hjoiner : s.joiner with
  | absent => simp only [hjoiner, reduceCtorEq] at h
  | launched =>
      simp only [hjoiner, Option.some.injEq] at h
      subst h
      have hnot : ¬ s.Joined := by
        rw [Joined, hjoiner]
        exact id
      exact fun hstored => .inl ((hs hstored).resolve_right fun hjoined => hnot hjoined.1)
  | joining i =>
      have hjoined : s.Joined := by
        rw [Joined, hjoiner]
        trivial
      have hkept : ∀ joiner, Joined { s with joiner } → Settled { s with joiner } :=
        fun joiner hjoiner hstored => (hs hstored).imp_right fun h => ⟨hjoiner, h.2⟩
      simp only [hjoiner] at h
      split at h
      · split at h
        · cases h
          exact hkept _ trivial
        · cases h
      · cases h
        exact hkept _ trivial
  | returned => simp only [hjoiner, reduceCtorEq] at h

theorem Settled.step (hs : s.Settled) {c : Command n τ} (hc : s.Ordered c)
    (h : s.step nullIndex c = some t) : t.Settled := by
  cases c with
  | main => exact hs.advance h
  | pool c =>
      rw [Session.step] at h
      split at h
      · split at h
        · obtain ⟨pool, hpool, rfl⟩ := Option.map_eq_some_iff.mp h
          exact hs.keeps (ThreadPool.keeps_of_step hpool) id
        · cases h
      · split at h
        · rename_i hnext
          obtain ⟨pool, hpool, rfl⟩ := Option.map_eq_some_iff.mp h
          exact hs.next hc hnext hpool
        · cases h
  | join => exact hs.join h

/-- If `shutdown` comes to its store after `joinAll`, what it stores stands until every worker has
returned. -/
theorem run_kept {cs : List (Command n τ)}
    (hcs : Machine.Meets (step nullIndex) Ordered new cs)
    (hrun : Machine.run (step nullIndex) new cs = some s) : s.Kept :=
  (Machine.run_invariant_of_meets Settled (fun _ _ _ hs hc h => hs.step hc h)
    (settled_of_not_stored id) hcs hrun).kept

/-- One worker, and `joinAll` gets to its store before `shutdown`. -/
def joinedFirst : List (Command 1 ℕ) :=
  [.main, .main, .main, .main, .join, .pool (.shutdown false), .pool .finish]

instance (s : Session n τ) : Decidable s.Returned := Fintype.decidableForallFintype

instance (s : Session n τ) : Decidable s.Joined :=
  match h : s.joiner with
  | .joining _ | .returned => isTrue (by rw [Joined, h]; trivial)
  | .absent | .launched => isFalse (by rw [Joined, h]; exact id)

instance (s : Session n τ) : ∀ c, Decidable (s.Ordered c)
  | .pool .finish => inferInstanceAs (Decidable (s.Joined ∨ s.Returned))
  | .main | .join | .pool (.addTask _) | .pool (.notify _) | .pool (.shutdown _)
  | .pool .notifyAll | .pool (.work _) | .pool (.take _ _) | .pool (.handled _ _)
  | .pool (.retry _ _) | .pool (.renotify _ _) | .pool (.wake _) => isTrue trivial

theorem joinedFirst_kept : ∃ s,
    Machine.run (step fun _ => false) new joinedFirst = some s ∧ s.Kept := by
  have hmeets : Machine.Meets (step fun _ => false) Ordered new joinedFirst := by decide
  exact ⟨_, rfl, run_kept hmeets rfl⟩

/-- `joinAll` gets to its store behind `shutdown`. -/
theorem joinedLast_not_kept : ¬ ∀ (n : ℕ) (cs : List (Command n ℕ)) (s : Session n ℕ),
    Machine.run (step fun _ => false) new cs = some s → s.Kept := by
  intro h
  have hkept := h 1
    [.main, .main, .main, .main, .pool (.shutdown false), .pool .finish, .join] _ rfl
  rcases hkept trivial with hfinish | hreturned
  · exact Bool.false_ne_true hfinish
  · exact absurd (hreturned 0) (by decide)

end Session

end IndexServer
