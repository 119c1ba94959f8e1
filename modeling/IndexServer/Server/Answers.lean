import IndexServer.Server.Interact

/-!
# Every query comes to its answer

As long as no worker blocks in front of a task, the query that `interact` has added comes to its
handler after a bounded number of steps, not counting wake-ups without a notification, and some
thread can always take one of them. And when the user leaves, nothing is left in the pool.
-/

namespace IndexServer

namespace Interaction

open ThreadPool

variable {n : ℕ} {s t : Interaction n} {c : Command n}

def Punctual (s : Interaction n) : Command n → Prop
  | .session c => s.session.Punctual nullIndex c
  | _ => True

instance (s : Interaction n) (c : Command n) : Decidable (s.Punctual c) :=
  match c with
  | .session c => inferInstanceAs (Decidable (s.session.Punctual nullIndex c))
  | .read _ | .store _ _ _ | .notice | .print _ _ | .clear => isTrue trivial

/-- A wake-up without a notification. -/
def Command.isWake (c : Command n) : Bool := c.ofSession.any Session.Command.isWake

structure Open (s : Interaction n) : Prop where
  sane : s.session.Sane nullIndex
  serving : s.session.Serving
  handles : s.session.pool.Handles s.stored
  main : s.session.main = .serving ∨ s.session.main = .notifying
  waiting : ∃ query, s.dialogue = .waiting query ∧ s.pending = {query}
  result : s.result = []

theorem Open.card_pending (hs : s.Open) : s.pending.card = 1 := by
  obtain ⟨query, _, hpending⟩ := hs.waiting
  rw [hpending, Multiset.card_singleton]

theorem Open.carry (hs : s.Open) (hn : 0 < n) {c : Session.Command n WString}
    (hc : s.session.Punctual nullIndex c) (hproceeds : c.proceeds)
    (h : s.session.step nullIndex c = some t.session) (hdialogue : t.dialogue = s.dialogue)
    (hresult : t.result = s.result) (hhandles : t.session.pool.Handles t.stored)
    (hpending : t.pending = s.pending) :
    t.Open ∧ t.session.untilBlocked + 1 ≤ s.session.untilBlocked + if c.isWake then 7 else 0 := by
  obtain ⟨hmain, hlower⟩ := hs.serving.lowers hs.sane hn hs.main hproceeds h
  have hleft : t.session.main.left = false := by
    rcases hmain with hmain | hmain <;> rw [hmain] <;> rfl
  refine ⟨⟨hs.sane.step hc h, hs.serving.step hleft h, hhandles, hmain, ?_, ?_⟩, hlower⟩
  · rw [hdialogue, hpending]
    exact hs.waiting
  · rw [hresult]
    exact hs.result

theorem Open.step (hs : s.Open) (hn : 0 < n) (hc : s.Punctual c) (hasked : c.asked = none)
    (hanswered : c.answered = none) (h : s.step c = some t) :
    t.Open ∧ t.session.untilBlocked + 1 ≤ s.session.untilBlocked + if c.isWake then 7 else 0 := by
  obtain ⟨query, hwaiting, hpending⟩ := hs.waiting
  have hother : ∀ {dialogue : Dialogue}, s.dialogue = dialogue → .waiting query = dialogue :=
    fun h => hwaiting.symm.trans h
  cases step_result h with
  | read _ hasking => cases hother hasking
  | ask => cases hasked
  | @handled w session hw hsession =>
      obtain ⟨pool, hpool, ⟨_, _, rfl⟩ | ⟨htaker, _⟩⟩ := Session.step_pool_eq_some hsession
      · cases ThreadPool.step_result hpool with
        | handled =>
            obtain ⟨hhandles, hsame⟩ := hs.handles.handled hw
            have hfinal : (0 : Int) ≠ -1 := by decide
            exact hs.carry hn hc ⟨hfinal, by simp, by simp⟩ hsession rfl rfl hhandles hsame
      · cases htaker
  | @carry c session hcarries hshutdown hsession =>
      obtain ⟨hhandles, hsame⟩ := handles_of_carries hs.handles hs.card_pending.le hcarries hsession
      refine hs.carry hn hc ?_ hsession rfl rfl hhandles hsame
      cases c with
      | main | join => trivial
      | pool c =>
          refine ⟨?_, ?_, ?_⟩
          · cases c with
            | handled => cases hcarries
            | retry w task =>
                obtain ⟨pool, hpool, _⟩ := Session.step_pool_eq_some hsession
                cases ThreadPool.step_result hpool with
                | retry hw => exact absurd hw (hs.handles.once w task)
            | _ => trivial
          · rintro task rfl
            cases hcarries
          · rintro evenNonEmptyQueue rfl
            cases hother (hshutdown evenNonEmptyQueue rfl)
  | store => cases hanswered
  | notice _ hresult => exact absurd hs.result hresult
  | print hprinting => cases hother hprinting
  | clear hclearing => cases hother hclearing

/-- Where the session takes a step that neither adds a task nor shuts the pool down, a thread takes
one; a handler that has not stored an answer stores one first. -/
theorem exists_step_of_session {c : Session.Command n WString}
    (hadd : ∀ query, c ≠ .pool (.addTask query))
    (hshutdown : ∀ evenNonEmptyQueue, c ≠ .pool (.shutdown evenNonEmptyQueue))
    (h : (s.session.step nullIndex c).isSome) :
    ∃ c' : Command n, c'.isWake = c.isWake ∧ (s.step c').isSome := by
  obtain ⟨session, hsession⟩ := Option.isSome_iff_exists.mp h
  have hcarry : s.step (.session c) =
      (s.session.step nullIndex c).map (fun session => { s with session }) →
        ∃ c' : Command n, c'.isWake = c.isWake ∧ (s.step c').isSome :=
    fun hstep => ⟨.session c, rfl, by rw [hstep, hsession]; rfl⟩
  cases c with
  | main | join => exact hcarry rfl
  | pool c =>
      cases c with
      | addTask query => exact absurd rfl (hadd query)
      | shutdown evenNonEmptyQueue => exact absurd rfl (hshutdown evenNonEmptyQueue)
      | handled w result =>
          obtain ⟨pool, hpool, _⟩ := Session.step_pool_eq_some hsession
          cases ThreadPool.step_result hpool with
          | @handled _ query hw =>
              cases hstored : s.stored w with
              | false => exact ⟨.store w query [], rfl, by simp [step, hw, hstored]⟩
              | true =>
                  refine ⟨.session (.pool (.handled w 0)), rfl, ?_⟩
                  have hcreated : w < s.session.main.created n := by
                    by_contra hcreated
                    simp [Session.step, ThreadPool.Command.taker, hcreated] at h
                  simp [step, hstored, Session.step, ThreadPool.Command.taker, ThreadPool.step, hw,
                    hcreated]
      | _ => exact hcarry rfl

theorem Open.goes_on (hs : s.Open) (hn : 0 < n) :
    ∃ c : Command n, c.isWake = false ∧ (s.step c).isSome := by
  rcases hs.main with hmain | hmain
  · have htask : s.session.pool.tasks ≠ [] ∨
        ∃ w, (s.session.pool.worker w).isBlocked = false := by
      by_contra hnone
      obtain ⟨htasks, hblocked⟩ := not_or.mp hnone
      have hidle : ∀ w, (s.session.pool.worker w).undone (s.stored w) = 0 := by
        intro w
        have hw : s.session.pool.worker w = .blocked := Worker.eq_blocked
          (Bool.eq_true_of_not_eq_false (not_exists.mp hblocked w))
        rw [hw, Worker.undone]
        split <;> rfl
      have hempty : s.pending = 0 := by
        rw [pending, ThreadPool.pending, not_not.mp htasks, Finset.sum_eq_zero fun w _ => hidle w]
        rfl
      have hone := hs.card_pending
      rw [hempty] at hone
      cases hone
    obtain ⟨c, htaker, hwake, hstep⟩ := hs.serving.goes_on hs.sane hn hmain htask
    have hadd : ∀ query, Session.Command.pool c ≠ .pool (.addTask query) := by
      rintro query h
      cases h
      cases htaker
    have hshutdown : ∀ evenNonEmptyQueue,
        Session.Command.pool c ≠ .pool (.shutdown evenNonEmptyQueue) := by
      rintro evenNonEmptyQueue h
      cases h
      cases htaker
    obtain ⟨c', hwake', hstep'⟩ := exists_step_of_session hadd hshutdown hstep
    exact ⟨c', hwake'.trans hwake, hstep'⟩
  · have hnotifying : 0 < s.session.pool.notifying := by
      rw [hs.serving.notifying, hmain]
      exact Nat.one_pos
    obtain ⟨target, htarget⟩ := ThreadPool.exists_notifyOne
      { s.session.pool with notifying := s.session.pool.notifying - 1 }
    obtain ⟨pool, hpool⟩ := Option.isSome_iff_exists.mp htarget
    refine exists_step_of_session (c := .pool (.notify target)) (by simp) (by simp) ?_
    simp [Session.step, ThreadPool.Command.taker, Main.next, hmain, ThreadPool.step, hnotifying,
      hpool]

theorem Punctual.ofSession (hc : s.Punctual c) :
    ∀ b ∈ c.ofSession, s.session.Punctual nullIndex b := by
  cases c with
  | session c =>
      intro b hb
      cases hb
      exact hc
  | _ =>
      intro b hb
      cases hb

theorem run_sane {cs : List (Command n)} (hcs : Machine.Meets step Punctual new cs)
    (hrun : Machine.run step new cs = some s) : s.session.Sane nullIndex :=
  Machine.run_invariant_of_meets (Session.Sane nullIndex) (fun _ _ _ hs hc h => hs.step hc h)
    (Session.new_sane nullIndex)
    (projects.meets (hcs.mono fun _ _ hc => hc.ofSession) hrun) (projects.run hrun)

theorem run_serving {cs : List (Command n)} (hrun : Machine.run step new cs = some s)
    (hleft : ¬ s.session.main.left = true) : s.session.Serving := by
  refine Machine.run_history (fun _ (s : Session n WString) => ¬ s.main.left = true → s.Serving)
    (fun _ => Session.new_serving) ?_ (projects.run hrun) hleft
  intro _ s c t _ hs h hleft
  exact (hs (mt (Session.left_of_step h).1 hleft)).step (Bool.eq_false_of_not_eq_true hleft) h

theorem open_of_run {cs : List (Command n)} (hcs : Machine.Meets step Punctual new cs)
    (hrun : Machine.run step new cs = some s)
    (hopen : (answered cs).length < (asked cs).length) :
    s.Open ∧ (asked cs).length = (answered cs).length + 1 := by
  have hs := run_paced hrun
  cases hs.phase with
  | idle _ _ _ hasked | shown _ _ hasked | answered _ _ hasked =>
      rw [hasked, List.length_map] at hopen
      exact absurd hopen (Nat.lt_irrefl _)
  | @unanswered query hdialogue hresult hpending hasked =>
      have hleft := hs.not_left (by simp [hdialogue])
      have hmain := Session.serving_or_notifying (hs.entered (by simp [hdialogue])) hleft
      refine ⟨⟨run_sane hcs hrun, run_serving hrun hleft, hs.handles, hmain,
        ⟨query, hdialogue, hpending⟩, hresult⟩, ?_⟩
      rw [hasked, List.length_append, List.length_map, List.length_singleton]

/-- The steps that are left before the handler of the last query stores its answer are bounded,
apart from wake-ups without a notification, and one of them can be taken. -/
theorem run_answers {before after : List (Command n)} (hn : 0 < n)
    (hcs : Machine.Meets step Punctual new (before ++ after))
    (hbefore : Machine.run step new before = some s) (hafter : Machine.run step s after = some t)
    (hlast : asked after = [])
    (hopen : (answered (before ++ after)).length < (asked before).length) :
    after.length ≤ 15 * n + 17 + 7 * after.countP Command.isWake ∧
      ∃ c : Command n, c.isWake = false ∧ (t.step c).isSome := by
  have hrun : Machine.run step new (before ++ after) = some t :=
    Machine.run_append_eq_some.mpr ⟨s, hbefore, hafter⟩
  have hasked : asked (before ++ after) = asked before := by
    rw [asked, List.filterMap_append, ← asked, ← asked, hlast, List.append_nil]
  have hanswered : (answered (before ++ after)).length =
      (answered before).length + (answered after).length := by
    rw [answered, List.filterMap_append, List.length_append]
    rfl
  obtain ⟨ht, hlength⟩ := open_of_run hcs hrun (by rwa [hasked])
  obtain ⟨hs, hbeforeLength⟩ := open_of_run (Machine.meets_append.mp hcs).1 hbefore (by omega)
  refine ⟨?_, ht.goes_on hn⟩
  rw [hasked] at hlength
  have hnone : answered after = [] := List.eq_nil_of_length_eq_zero (by omega)
  have hquiet : ∀ c ∈ after, c.asked = none ∧ c.answered = none := fun c hc =>
    ⟨List.filterMap_eq_nil_iff.mp hlast c hc, List.filterMap_eq_nil_iff.mp hnone c hc⟩
  have hmeets : Machine.Meets step
      (fun s c => s.Punctual c ∧ c.asked = none ∧ c.answered = none) s after :=
    ((Machine.meets_append.mp hcs).2 s hbefore).and (Machine.meets_label hquiet)
  obtain ⟨_, hsteps⟩ := Machine.run_amortized Open (fun s => s.session.untilBlocked) (fun _ => 1)
    (fun c => if c.isWake then 7 else 0)
    (fun _ _ _ hs hc h => hs.step hn hc.1 hc.2.1 hc.2.2 h) hs hmeets hafter
  rw [List.map_const', List.sum_replicate, Nat.nsmul_eq_mul, mul_one, Machine.sum_map_ite] at hsteps
  have hbound := s.session.untilBlocked_le
  have htasks : s.session.pool.tasks.length ≤ 1 :=
    ThreadPool.length_tasks_le.trans hs.card_pending.le
  omega

def untilAsked : List (Command 1) := untilHandling.take 6

def untilTaken : List (Command 1) := .session .join :: (untilHandling.drop 6).take 6

theorem oneQuery_answers : ∃ s t, Machine.run step new untilAsked = some s ∧
    Machine.run step s untilTaken = some t ∧
      untilTaken.length ≤ 15 * 1 + 17 + 7 * untilTaken.countP Command.isWake ∧
        ∃ c : Command 1, c.isWake = false ∧ (t.step c).isSome := by
  have hmeets : Machine.Meets step Punctual new (untilAsked ++ untilTaken) := by decide
  exact ⟨_, _, rfl, rfl, run_answers Nat.one_pos hmeets rfl rfl rfl (by decide)⟩

/-! ### The end -/

theorem Phase.of_leaving {cs : List (Command n)} (h : s.Phase cs)
    (hleaving : s.dialogue = .leaving) :
    s.pending = 0 ∧ asked cs = (printed cs).map Prod.fst := by
  cases h with
  | idle _ _ hpending hasked hprinted => exact ⟨hpending, hprinted ▸ hasked⟩
  | unanswered h | shown h =>
      rw [hleaving] at h
      cases h
  | answered h =>
      rw [hleaving] at h
      simp at h

theorem session_of_left {cs : List (Command n)} (hs : s.Paced cs)
    (hleft : s.session.main.left = true) (h : s.step c = some t) : c.ofSession.isSome := by
  have hleaving := hs.leaving hleft
  have hother : ∀ {dialogue : Dialogue}, s.dialogue = dialogue → .leaving = dialogue :=
    fun h => hleaving.symm.trans h
  cases step_result h with
  | read _ hasking => cases hother hasking
  | ask hasked => cases hother hasked
  | handled | carry => rfl
  | store answer hw hopen =>
      have hdone := ThreadPool.pending_done hw hopen
      rw [← pending, (hs.phase.of_leaving hleaving).1] at hdone
      simp at hdone
  | notice hwaiting => cases hother hwaiting
  | print hprinting => cases hother hprinting
  | clear hclearing => cases hother hclearing

theorem left_of_stored (hs : s.session.Stored) : s.session.main.left = true := by
  rw [Session.Stored] at hs
  split at hs
  case h_5 => exact hs.elim
  all_goals
    rename_i hmain
    rw [hmain]
    rfl

theorem proceeds_of_left (hleft : s.session.main.left = true) {c : Session.Command n WString}
    (h : (s.session.step nullIndex c).isSome) : (∀ query, c ≠ .pool (.addTask query)) ∧
      ∀ evenNonEmptyQueue, c ≠ .pool (.shutdown evenNonEmptyQueue) := by
  have hnext : ∀ query evenNonEmptyQueue,
      s.session.main.next (.addTask query : ThreadPool.Command (Fin n) WString) = none ∧
        s.session.main.next (.shutdown evenNonEmptyQueue : ThreadPool.Command (Fin n) WString) =
          none := by
    intro query evenNonEmptyQueue
    cases hmain : s.session.main with
    | serving =>
        rw [hmain] at hleft
        cases hleft
    | _ => exact ⟨rfl, rfl⟩
  constructor
  · rintro query rfl
    simp [Session.step, ThreadPool.Command.taker, (hnext query false).1] at h
  · rintro evenNonEmptyQueue rfl
    simp [Session.step, ThreadPool.Command.taker, (hnext [] evenNonEmptyQueue).2] at h

def untilPrinted : List (Command 1) :=
  answeredQuery ++ [.session .join, .read exitLine, .session (.pool (.shutdown false)),
    .session (.pool .finish)]

def untilFinished : List (Command 1) :=
  [.session (.pool .notifyAll), .session (.pool (.handled (Fin.last 0) 0)),
    .session (.pool (.work (Fin.last 0))), .session (.pool (.work (Fin.last 0))), .session .join,
    .session .join, .session .main, .session .main]

end Interaction

end IndexServer
