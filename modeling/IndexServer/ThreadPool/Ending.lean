import IndexServer.ThreadPool.Shutdown
import IndexServer.ThreadPool.Wakeup
import IndexServer.ThreadPool.Workers

/-!
# The session comes to its end

From the store of `FINISH` in `shutdown` on, `Server::loop` and `Server::test` only wait: for the
workers, by way of `joinAll`, and for `joinAll`. If `joinAll` has stored `WORK` by then and no
worker blocks behind a notification, they wait for a bounded number of steps, whichever thread takes
them, and no thread is left waiting for another. What is in the queue by then is mostly dropped:
each worker takes one more task at most.
-/

namespace IndexServer

def Main.launched : Main → Prop
  | .starting | .creating _ | .launching => False
  | _ => True

/-- The `notify_all` that the main thread still owes. -/
def Main.announces : Main → ℕ
  | .broadcasting => 1
  | _ => 0

def Main.stepsLeft : Main → ℕ
  | .broadcasting => 3
  | .awaiting => 2
  | .ending => 1
  | _ => 0

def Joiner.stepsLeft (n : ℕ) : Joiner → ℕ
  | .launched => n + 2
  | .joining i => n - i + 1
  | _ => 0

namespace ThreadPool

variable {ω τ : Type} [DecidableEq ω] [Fintype ω] [DecidableEq τ] {nullIndex : τ → Bool}
  {s t : ThreadPool ω τ} {c : Command ω τ}

/-- Nothing else stores `FINISH` or announces it. -/
theorem kept_of_step (hfinish : c ≠ .finish) (hnotifyAll : c ≠ .notifyAll)
    (h : s.step nullIndex c = some t) :
    t.finish = s.finish ∧ t.broadcasting = s.broadcasting := by
  cases step_result h with
  | finish => exact absurd rfl hfinish
  | notifyAll => exact absurd rfl hnotifyAll
  | notify _ hresult =>
      have hkept := hresult.kept
      exact ⟨hkept.1, hkept.2.1⟩
  | renotify _ hresult =>
      have hkept := hresult.kept
      exact ⟨hkept.1, hkept.2.1⟩
  | work hwork => cases hwork <;> exact ⟨rfl, rfl⟩
  | _ => exact ⟨rfl, rfl⟩

theorem step_of_exited {w : ω} (hw : s.worker w = .exited) (htaker : c.taker = some w) :
    s.step nullIndex c = none := by
  cases c with
  | work v =>
      cases htaker
      simp only [step, work, hw]
  | take v task =>
      cases htaker
      simp [step, hw]
  | handled v result =>
      cases htaker
      simp [step, hw]
  | retry v task =>
      cases htaker
      simp [step, hw]
  | renotify v target =>
      cases htaker
      simp [step, hw]
  | wake v =>
      cases htaker
      simp [step, hw, Worker.isBlocked]
  | _ => cases htaker

end ThreadPool

namespace Session

variable {n : ℕ} {τ : Type} {s t : Session n τ}

/-- What a session keeps whose workers block only in time. -/
structure Sane (nullIndex : τ → Bool) (s : Session n τ) : Prop where
  attended : s.pool.Attended nullIndex
  owned : s.pool.Owned
  countsBusy : s.pool.CountsBusy
  settled : s.Settled
  working : ¬ s.Stored → s.pool.finish = false
  launched : s.main.launched → s.joiner ≠ .absent
  joined : ∀ i, s.joiner = .joining i → ∀ w : Fin n, w < i → s.pool.worker w = .exited
  returned : s.joiner = .returned → s.Returned
  broadcasting : s.pool.broadcasting = s.main.announces
  ended : s.main = .ending ∨ s.main = .finished → s.joiner = .returned

theorem new_sane (nullIndex : τ → Bool) : (new : Session n τ).Sane nullIndex where
  attended := ThreadPool.initThreads_attended nullIndex
  owned := ThreadPool.initThreads_owned
  countsBusy := ThreadPool.initThreads_countsBusy
  settled := settled_of_not_stored id
  working _ := rfl
  launched h := h.elim
  joined i h := by cases h
  returned h := by cases h
  broadcasting := rfl
  ended h := by rcases h with h | h <;> cases h

theorem Returned.awake (hs : s.Returned) : s.pool.Awake := by
  intro w
  rw [hs w]
  rfl

theorem Returned.store (hs : s.Returned) (nullIndex : τ → Bool) (finish : Bool) :
    ({ s.pool with finish } : ThreadPool (Fin n) τ).Attended nullIndex where
  finish _ := .inl hs.awake
  tasks _ := .inl hs.awake

theorem Sane.pool_of_working {nullIndex : τ → Bool} (hs : s.Sane nullIndex) (h : ¬ s.Stored) :
    { s.pool with finish := false } = s.pool := by
  have hfinish := hs.working h
  obtain ⟨⟨finish, _, _, _, _, _, _, _⟩, _, _⟩ := s
  dsimp only at hfinish ⊢
  rw [hfinish]

theorem Sane.advance {nullIndex : τ → Bool} (hs : s.Sane nullIndex) (h : s.advance = some t) :
    t.Sane nullIndex := by
  have hsettled := hs.settled.advance h
  rw [Session.advance] at h
  cases hmain : s.main with
  | starting =>
      have hnot : ¬ s.Stored := by rw [Stored, hmain]; exact id
      have hbroadcasting := hs.broadcasting
      rw [hmain] at hbroadcasting
      simp only [hmain, Option.some.injEq] at h
      subst h
      rw [hs.pool_of_working hnot] at hsettled ⊢
      exact ⟨hs.attended, hs.owned, hs.countsBusy, hsettled, fun _ => hs.working hnot,
        fun h => h.elim, hs.joined, hs.returned, hbroadcasting,
        fun h => by rcases h with h | h <;> cases h⟩
  | creating i =>
      have hnot : ¬ s.Stored := by rw [Stored, hmain]; exact id
      have hbroadcasting := hs.broadcasting
      rw [hmain] at hbroadcasting
      simp only [hmain, Option.some.injEq] at h
      subst h
      refine ⟨hs.attended, hs.owned, hs.countsBusy, hsettled, fun _ => hs.working hnot, ?_,
        hs.joined, hs.returned, ?_, ?_⟩
      · intro h
        dsimp only at h
        split at h <;> exact h.elim
      · dsimp only
        rw [hbroadcasting]
        split <;> rfl
      · intro h
        dsimp only at h
        split at h <;> rcases h with h | h <;> cases h
  | launching =>
      have hnot : ¬ s.Stored := by rw [Stored, hmain]; exact id
      have hbroadcasting := hs.broadcasting
      rw [hmain] at hbroadcasting
      simp only [hmain, Option.some.injEq] at h
      subst h
      exact ⟨hs.attended, hs.owned, hs.countsBusy, hsettled, fun _ => hs.working hnot,
        fun _ h => (by cases h), fun i h => (by cases h), fun h => (by cases h), hbroadcasting,
        fun h => by rcases h with h | h <;> cases h⟩
  | awaiting =>
      have hbroadcasting := hs.broadcasting
      rw [hmain] at hbroadcasting
      simp only [hmain] at h
      split at h
      · next hjoiner =>
          cases h
          exact ⟨hs.attended, hs.owned, hs.countsBusy, hsettled, fun h => absurd trivial h,
            fun _ => hs.launched (by rw [hmain]; trivial), hs.joined, hs.returned, hbroadcasting,
            fun _ => hjoiner⟩
      · cases h
  | ending =>
      have hbroadcasting := hs.broadcasting
      rw [hmain] at hbroadcasting
      have hjoiner := hs.ended (.inl hmain)
      simp only [hmain, Option.some.injEq] at h
      subst h
      exact ⟨(hs.returned hjoiner).store nullIndex true, hs.owned, hs.countsBusy, hsettled,
        fun h => absurd trivial h, fun _ => hs.launched (by rw [hmain]; trivial), hs.joined,
        hs.returned, hbroadcasting, fun _ => hjoiner⟩
  | serving | notifying | closing | broadcasting | finished => simp only [hmain, reduceCtorEq] at h

variable [DecidableEq τ] {nullIndex : τ → Bool}

theorem Sane.join (hs : s.Sane nullIndex) (h : s.joinAll = some t) : t.Sane nullIndex := by
  have hsettled := hs.settled.join h
  rw [joinAll] at h
  cases hjoiner : s.joiner with
  | launched =>
      simp only [hjoiner, Option.some.injEq] at h
      subst h
      have hnot : ¬ s.Joined := by rw [Joined, hjoiner]; exact id
      have hended : s.main = .ending ∨ s.main = .finished → False := by
        intro hmain
        rw [hs.ended hmain] at hjoiner
        cases hjoiner
      by_cases hstored : s.Stored
      · have hreturned : s.Returned :=
          (hs.settled hstored).resolve_right fun hjoined => hnot hjoined.1
        exact ⟨hreturned.store nullIndex false, hs.owned, hs.countsBusy, hsettled,
          fun h => absurd hstored h, fun _ h => (by cases h), fun i _ w _ => hreturned w,
          fun h => (by cases h), hs.broadcasting, fun h => (hended h).elim⟩
      · rw [hs.pool_of_working hstored] at hsettled ⊢
        refine ⟨hs.attended, hs.owned, hs.countsBusy, hsettled, fun _ => hs.working hstored,
          fun _ h => (by cases h), ?_, fun h => (by cases h), hs.broadcasting,
          fun h => (hended h).elim⟩
        rintro i ⟨⟩ w hw
        exact absurd hw (Nat.not_lt_zero _)
  | joining i =>
      have hended : s.main = .ending ∨ s.main = .finished → False := by
        intro hmain
        rw [hs.ended hmain] at hjoiner
        cases hjoiner
      simp only [hjoiner] at h
      split at h
      · next hi =>
          split at h
          · next hexited =>
              cases h
              refine ⟨hs.attended, hs.owned, hs.countsBusy, hsettled, hs.working,
                fun _ h => (by cases h), ?_, fun h => (by cases h), hs.broadcasting,
                fun h => (hended h).elim⟩
              rintro j ⟨⟩ w hw
              rcases Nat.lt_succ_iff_lt_or_eq.mp hw with hlt | heq
              · exact hs.joined i hjoiner w hlt
              · have hsame : w = ⟨i, hi⟩ := Fin.ext heq
                rw [hsame]
                exact hexited
          · cases h
      · next hi =>
          cases h
          have hall : s.Returned := fun w =>
            hs.joined i hjoiner w (lt_of_lt_of_le w.isLt (Nat.not_lt.mp hi))
          exact ⟨hs.attended, hs.owned, hs.countsBusy, hsettled, hs.working,
            fun _ h => (by cases h), fun j h => (by cases h), fun _ => hall, hs.broadcasting,
            fun _ => rfl⟩
  | absent | returned => simp only [hjoiner, reduceCtorEq] at h

theorem Sane.work (hs : s.Sane nullIndex) {c : ThreadPool.Command (Fin n) τ}
    (hc : s.pool.Timely nullIndex c) {pool : ThreadPool (Fin n) τ}
    (h : s.pool.step nullIndex c = some pool) {main : Main} (hfinish : c ≠ .finish)
    (hnotifyAll : c ≠ .notifyAll) (hstored : Stored { s with pool, main } ↔ s.Stored)
    (hlaunched : s.main.launched ↔ main.launched) (hannounces : main.announces = s.main.announces)
    (hended : main = .ending ∨ main = .finished → s.main = .ending ∨ s.main = .finished) :
    Sane nullIndex { s with pool, main } := by
  have hkeeps := ThreadPool.keeps_of_step h
  obtain ⟨hsame, hbroadcasting⟩ := ThreadPool.kept_of_step hfinish hnotifyAll h
  exact {
    attended := hs.attended.step hc h
    owned := hs.owned.step h
    countsBusy := hs.countsBusy.step h
    settled := hs.settled.keeps hkeeps hstored.mp
    working := fun hnot => hsame.trans (hs.working fun h => hnot (hstored.mpr h))
    launched := fun h => hs.launched (hlaunched.mpr h)
    joined := fun i hi w hw => hkeeps.2 w (hs.joined i hi w hw)
    returned := fun hjoiner w => hkeeps.2 w (hs.returned hjoiner w)
    broadcasting := (hbroadcasting.trans hs.broadcasting).trans hannounces.symm
    ended := fun h => hs.ended (hended h) }

theorem Sane.next (hs : s.Sane nullIndex) {c : ThreadPool.Command (Fin n) τ}
    (hordered : s.Ordered (.pool c)) (htimely : s.pool.Timely nullIndex c) {main : Main}
    (hnext : s.main.next c = some main) {pool : ThreadPool (Fin n) τ}
    (h : s.pool.step nullIndex c = some pool) : Sane nullIndex { s with pool, main } := by
  have hsettled := hs.settled.next hordered hnext h
  have hkeeps := ThreadPool.keeps_of_step h
  have hattended := hs.attended.step htimely h
  have howned := hs.owned.step h
  have hcounts := hs.countsBusy.step h
  unfold Main.next at hnext
  split at hnext
  case h_4 hmain =>
    cases hnext
    have hbroadcasting := hs.broadcasting
    rw [hmain] at hbroadcasting
    have hjoiner := hs.launched (by rw [hmain]; trivial)
    cases ThreadPool.step_result h
    exact ⟨hattended, howned, hcounts, hsettled, fun hnot => absurd trivial hnot, fun _ => hjoiner,
      fun i hi w hw => hkeeps.2 w (hs.joined i hi w hw), fun hr w => hkeeps.2 w (hs.returned hr w),
      congrArg (· + 1) hbroadcasting, fun h => by rcases h with h | h <;> cases h⟩
  case h_5 hmain =>
    cases hnext
    have hbroadcasting := hs.broadcasting
    rw [hmain] at hbroadcasting
    have hjoiner := hs.launched (by rw [hmain]; trivial)
    cases ThreadPool.step_result h
    exact ⟨hattended, howned, hcounts, hsettled, fun hnot => absurd trivial hnot, fun _ => hjoiner,
      fun i hi w hw => hkeeps.2 w (hs.joined i hi w hw), fun hr w => hkeeps.2 w (hs.returned hr w),
      congrArg (· - 1) hbroadcasting, fun h => by rcases h with h | h <;> cases h⟩
  case h_6 => cases hnext
  all_goals
    rename_i hmain
    cases hnext
    refine hs.work htimely h (fun h => by cases h) (fun h => by cases h) ?_ ?_ ?_ ?_
    · rw [Stored, Stored, hmain]
    · rw [hmain]
      exact Iff.rfl
    · rw [hmain]
      rfl
    · intro h
      rcases h with h | h <;> cases h

/-- `shutdown` stores `FINISH` when `joinAll` has stored `WORK`, or when every worker has returned,
and the workers block only in time. -/
def Punctual (nullIndex : τ → Bool) (s : Session n τ) (c : Command n τ) : Prop :=
  s.Ordered c ∧
    match c with
    | .pool c => s.pool.Timely nullIndex c
    | _ => True

instance (s : Session n τ) (c : Command n τ) : Decidable (s.Punctual nullIndex c) :=
  match c with
  | .pool c => inferInstanceAs (Decidable (s.Ordered (.pool c) ∧ s.pool.Timely nullIndex c))
  | .main => inferInstanceAs (Decidable (s.Ordered .main ∧ True))
  | .join => inferInstanceAs (Decidable (s.Ordered .join ∧ True))

/-- A step of the pool is that of a worker that has been started, or the next one of the main
thread. -/
theorem step_pool_eq_some {c : ThreadPool.Command (Fin n) τ}
    (h : s.step nullIndex (.pool c) = some t) :
    ∃ pool, s.pool.step nullIndex c = some pool ∧
      ((∃ w, c.taker = some w ∧ t = { s with pool }) ∨
        c.taker = none ∧ ∃ main, s.main.next c = some main ∧ t = { s with pool, main }) := by
  rw [Session.step] at h
  split at h
  · next w htaker =>
      split at h
      · obtain ⟨pool, hpool, rfl⟩ := Option.map_eq_some_iff.mp h
        exact ⟨pool, hpool, .inl ⟨w, htaker, rfl⟩⟩
      · cases h
  · next htaker =>
      split at h
      · next main hnext =>
          obtain ⟨pool, hpool, rfl⟩ := Option.map_eq_some_iff.mp h
          exact ⟨pool, hpool, .inr ⟨htaker, main, hnext, rfl⟩⟩
      · cases h

theorem Sane.step (hs : s.Sane nullIndex) {c : Command n τ} (hc : s.Punctual nullIndex c)
    (h : s.step nullIndex c = some t) : t.Sane nullIndex := by
  cases c with
  | main => exact hs.advance h
  | join => exact hs.join h
  | pool c =>
      obtain ⟨hordered, htimely⟩ := hc
      obtain ⟨pool, hpool, ⟨w, htaker, rfl⟩ | ⟨_, main, hnext, rfl⟩⟩ := step_pool_eq_some h
      · refine hs.work htimely hpool ?_ ?_ Iff.rfl Iff.rfl rfl id
        · rintro rfl
          cases htaker
        · rintro rfl
          cases htaker
      · exact hs.next hordered htimely hnext hpool

/-! ### Behind the store of `FINISH` -/

open Tally ThreadPool

def stepsLeft (s : Session n τ) : ℕ :=
  tally Worker.stepsLeft s.pool.worker + s.main.stepsLeft + s.joiner.stepsLeft n

def Command.takes (w : Fin n) : Command n τ → Bool
  | .pool c => c.takes w
  | _ => false

omit [DecidableEq τ] in
theorem next_of_stored (hstored : s.Stored) {c : ThreadPool.Command (Fin n) τ} {main : Main}
    (hnext : s.main.next c = some main) :
    s.main = .broadcasting ∧ c = .notifyAll ∧ main = .awaiting := by
  unfold Main.next at hnext
  split at hnext
  case h_5 hmain =>
    cases hnext
    exact ⟨hmain, rfl, rfl⟩
  case h_6 => cases hnext
  all_goals
    rename_i hmain
    rw [Stored, hmain] at hstored
    exact hstored.elim

/-- Behind `FINISH` every step counts, and every task taken is the last of its worker. -/
theorem Sane.lowers (hs : s.Sane nullIndex) (hstored : s.Stored) {c : Command n τ}
    (h : s.step nullIndex c = some t) :
    t.Stored ∧ t.stepsLeft + 1 ≤ s.stepsLeft ∧ ∀ w,
      (t.pool.worker w).takesLeft + (if c.takes w then 1 else 0) ≤
        (s.pool.worker w).takesLeft := by
  cases c with
  | main =>
      rw [Session.step, Session.advance] at h
      cases hmain : s.main with
      | awaiting =>
          simp only [hmain] at h
          split at h
          · cases h
            refine ⟨trivial, ?_, fun _ => le_rfl⟩
            rw [stepsLeft, stepsLeft, hmain]
            exact le_of_eq (Nat.add_right_comm _ _ _)
          · cases h
      | ending =>
          simp only [hmain, Option.some.injEq] at h
          subst h
          refine ⟨trivial, ?_, fun _ => le_rfl⟩
          rw [stepsLeft, stepsLeft, hmain]
          exact le_of_eq (Nat.add_right_comm _ _ _)
      | starting | creating | launching =>
          rw [Stored, hmain] at hstored
          exact hstored.elim
      | serving | notifying | closing | broadcasting | finished =>
          simp only [hmain, reduceCtorEq] at h
  | join =>
      rw [Session.step, joinAll] at h
      cases hjoiner : s.joiner with
      | launched =>
          simp only [hjoiner, Option.some.injEq] at h
          subst h
          refine ⟨hstored, ?_, fun _ => le_rfl⟩
          rw [stepsLeft, stepsLeft, hjoiner]
          exact le_rfl
      | joining i =>
          simp only [hjoiner] at h
          split at h
          · next hi =>
              split at h
              · cases h
                refine ⟨hstored, ?_, fun _ => le_rfl⟩
                rw [stepsLeft, stepsLeft, hjoiner, Joiner.stepsLeft, Joiner.stepsLeft]
                dsimp only
                omega
              · cases h
          · cases h
            refine ⟨hstored, ?_, fun _ => le_rfl⟩
            rw [stepsLeft, stepsLeft, hjoiner]
            exact Nat.add_le_add_left (Nat.le_add_left 1 _) _
      | absent | returned => simp only [hjoiner, reduceCtorEq] at h
  | pool c =>
      obtain ⟨pool, hpool, ⟨w, htaker, rfl⟩ | ⟨htaker, main, hnext, rfl⟩⟩ := step_pool_eq_some h
      · have hfinish : s.pool.finish = true := by
          refine (hs.settled.kept hstored).resolve_right fun hreturned => ?_
          rw [step_of_exited (hreturned w) htaker] at hpool
          cases hpool
        have hsteps := stepsLeft_of_step hfinish hpool
        rw [htaker, Option.isSome_some, if_pos rfl] at hsteps
        refine ⟨hstored, ?_, takesLeft_of_step hfinish hpool⟩
        rw [stepsLeft, stepsLeft]
        dsimp only
        omega
      · obtain ⟨hmain, rfl, rfl⟩ := next_of_stored hstored hnext
        cases step_result hpool
        have hsteps := Tally.tally_le (weight_notifyAll Worker.stepsLeft (Nat.le_succ 11) s.pool)
        refine ⟨trivial, ?_, weight_notifyAll Worker.takesLeft le_rfl s.pool⟩
        rw [stepsLeft, stepsLeft, hmain]
        dsimp only [Main.stepsLeft]
        omega

/-- Nobody waits for somebody who waits. -/
theorem Sane.goes_on (hs : s.Sane nullIndex) (hstored : s.Stored) (hmain : s.main ≠ .finished) :
    ∃ c, (s.step nullIndex c).isSome := by
  cases hposition : s.main with
  | broadcasting =>
      have hbroadcasting : s.pool.broadcasting = 1 := by
        rw [hs.broadcasting, hposition]
        rfl
      refine ⟨.pool .notifyAll, ?_⟩
      simp [Session.step, ThreadPool.step, ThreadPool.Command.taker, Main.next, hposition,
        hbroadcasting]
  | awaiting =>
      cases hjoiner : s.joiner with
      | absent => exact absurd hjoiner (hs.launched (by rw [hposition]; trivial))
      | launched => exact ⟨.join, by simp [Session.step, joinAll, hjoiner]⟩
      | returned => exact ⟨.main, by simp [Session.step, Session.advance, hposition, hjoiner]⟩
      | joining i =>
          by_cases hi : i < n
          · by_cases hexited : s.pool.worker ⟨i, hi⟩ = .exited
            · exact ⟨.join, by simp [Session.step, joinAll, hjoiner, hi, hexited]⟩
            · have hfinish : s.pool.finish = true :=
                (hs.settled.kept hstored).resolve_right fun hreturned =>
                  hexited (hreturned ⟨i, hi⟩)
              have hbroadcasting : s.pool.broadcasting = 0 := by
                rw [hs.broadcasting, hposition]
                rfl
              have hawake : s.pool.Awake :=
                (hs.attended.finish hfinish).resolve_right (by omega)
              have hblocked : s.pool.worker ⟨i, hi⟩ ≠ .blocked := by
                intro hblocked
                have hawakened := hawake ⟨i, hi⟩
                rw [hblocked] at hawakened
                cases hawakened
              obtain ⟨c, htaker, _, hstep⟩ := hs.owned.goes_on nullIndex hexited hblocked
              obtain ⟨w, hw⟩ := Option.isSome_iff_exists.mp htaker
              obtain ⟨pool, hpool⟩ := Option.isSome_iff_exists.mp hstep
              refine ⟨.pool c, ?_⟩
              simp [Session.step, hw, hposition, Main.created, hpool]
          · exact ⟨.join, by simp [Session.step, joinAll, hjoiner, hi]⟩
  | ending => exact ⟨.main, by simp [Session.step, Session.advance, hposition]⟩
  | finished => exact absurd hposition hmain
  | starting | creating | launching | serving | notifying | closing =>
      rw [Stored, hposition] at hstored
      exact hstored.elim

theorem Sane.run_lowers (hs : s.Sane nullIndex) (hstored : s.Stored) (rank : Session n τ → ℕ)
    (cost : Command n τ → ℕ)
    (hlower : ∀ s c t, Sane nullIndex s → Stored s → s.step nullIndex c = some t →
      rank t + cost c ≤ rank s) {cs : List (Command n τ)}
    (hcs : Machine.Meets (Session.step nullIndex) (Punctual nullIndex) s cs)
    (hrun : Machine.run (Session.step nullIndex) s cs = some t) :
    (t.Sane nullIndex ∧ t.Stored) ∧ rank t + (cs.map cost).sum ≤ rank s := by
  have hrun := Machine.run_amortized (fun s => Sane nullIndex s ∧ Stored s) rank cost (fun _ => 0)
    (fun s c t hs hc h =>
      ⟨⟨hs.1.step hc h, (hs.1.lowers hs.2 h).1⟩, hlower s c t hs.1 hs.2 h⟩)
    ⟨hs, hstored⟩ hcs hrun
  simpa using hrun

omit [DecidableEq τ] in
theorem tally_le_mul {weight : Worker τ → ℕ} {k : ℕ} (h : ∀ p, weight p ≤ k) (s : Session n τ) :
    tally weight s.pool.worker ≤ n * k := by
  have hle : tally weight s.pool.worker ≤ tally (fun _ => k) s.pool.worker :=
    Tally.tally_le fun w => h (s.pool.worker w)
  simpa [tally] using hle

/-- The one worker is about to look at the queue when `FINISH` is stored, and still takes the task
in it. -/
def beforeEnd : List (Command 1 ℕ) :=
  [.main, .main, .main, .main, .join, .pool (.work (Fin.last 0)), .pool (.work (Fin.last 0)),
    .pool (.addTask 7), .pool (.notify none), .pool (.shutdown true), .pool .finish]

def untilEnd : List (Command 1 ℕ) :=
  [.pool .notifyAll, .pool (.work (Fin.last 0)), .pool (.work (Fin.last 0)),
    .pool (.take (Fin.last 0) (some 7)), .pool (.work (Fin.last 0)), .pool (.work (Fin.last 0)),
    .pool (.handled (Fin.last 0) 0), .pool (.work (Fin.last 0)), .pool (.work (Fin.last 0)),
    .join, .join, .main, .main]

end Session

end IndexServer
