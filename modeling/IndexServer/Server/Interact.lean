import IndexServer.ThreadPool.Holding
import IndexServer.ThreadPool.Serving
import IndexServer.Base

/-!
# The dialogue of `interact`

`Server::interact` is a session whose main thread adds one task, waits until the handler has stored
its answer in `result`, prints the answer, clears `result` and asks for the next query. The other
fields of the tasks are always the same, so a task is its query; the handler is
`consoleTaskHandler`, which assigns to `result` once and returns zero.
-/

namespace IndexServer

/-- Where the main thread stands in the loop of `interact`. -/
inductive Dialogue where
  | asking
  | asked (query : WString)
  | waiting (query : WString)
  | printing (query : WString)
  | clearing
  | leaving
  deriving DecidableEq, Repr

structure Interaction (n : ℕ) where
  session : Session n WString
  dialogue : Dialogue
  result : WString
  /-- The handler that the worker runs has stored its answer. -/
  stored : Fin n → Bool

namespace Interaction

variable {n : ℕ}

def new : Interaction n where
  session := Session.new
  dialogue := .asking
  result := []
  stored _ := false

inductive Command (n : ℕ) where
  /-- `getline` returns a line. -/
  | read (query : WString)
  /-- A step of the session, taken by any of its threads. -/
  | session (c : Session.Command n WString)
  /-- The handler of a query assigns to `result`. -/
  | store (w : Fin n) (query answer : WString)
  /-- The main thread finds that `result` is not empty. -/
  | notice
  | print (query answer : WString)
  | clear

def nullIndex (_ : WString) : Bool := false

def exitLine : WString := [101, 120, 105, 116]

def step (s : Interaction n) : Command n → Option (Interaction n)
  | .read query =>
      if s.dialogue = .asking ∧ s.session.main = .serving then
        some { s with dialogue := if query = exitLine then .leaving else .asked query }
      else none
  | .session (.pool (.addTask query)) =>
      if s.dialogue = .asked query then
        (s.session.step nullIndex (.pool (.addTask query))).map fun session =>
          { s with session, dialogue := .waiting query }
      else none
  | .session (.pool (.shutdown evenNonEmptyQueue)) =>
      if s.dialogue = .leaving ∧ evenNonEmptyQueue = false then
        (s.session.step nullIndex (.pool (.shutdown evenNonEmptyQueue))).map fun session =>
          { s with session }
      else none
  | .session (.pool (.handled w result)) =>
      if s.stored w = true ∧ result = 0 then
        (s.session.step nullIndex (.pool (.handled w result))).map fun session =>
          { s with session, stored := Function.update s.stored w false }
      else none
  | .session c => (s.session.step nullIndex c).map fun session => { s with session }
  | .store w query answer =>
      if s.session.pool.worker w = .handling query ∧ s.stored w = false then
        some { s with result := answer, stored := Function.update s.stored w true }
      else none
  | .notice =>
      match s.dialogue with
      | .waiting query =>
          if s.session.main = .serving ∧ s.result ≠ [] then
            some { s with dialogue := .printing query }
          else none
      | _ => none
  | .print query answer =>
      if s.dialogue = .printing query ∧ answer = s.result then
        some { s with dialogue := .clearing }
      else none
  | .clear =>
      if s.dialogue = .clearing then some { s with dialogue := .asking, result := [] } else none

/-! ### What a run asks and prints -/

def Command.asked : Command n → Option WString
  | .session (.pool (.addTask query)) => some query
  | _ => none

def Command.answered : Command n → Option (WString × WString)
  | .store _ query answer => some (query, answer)
  | _ => none

def Command.printed : Command n → Option (WString × WString)
  | .print query answer => some (query, answer)
  | _ => none

def asked (cs : List (Command n)) : List WString := cs.filterMap Command.asked

/-- The queries whose handlers have stored an answer, with it, in the order of the stores. -/
def answered (cs : List (Command n)) : List (WString × WString) := cs.filterMap Command.answered

/-- What is printed, with the query that the main thread has read last. -/
def printed (cs : List (Command n)) : List (WString × WString) := cs.filterMap Command.printed

theorem asked_snoc (cs : List (Command n)) (c : Command n) :
    asked (cs ++ [c]) = asked cs ++ c.asked.toList := by
  cases h : c.asked <;> simp [asked, h]

theorem answered_snoc (cs : List (Command n)) (c : Command n) :
    answered (cs ++ [c]) = answered cs ++ c.answered.toList := by
  cases h : c.answered <;> simp [answered, h]

theorem printed_snoc (cs : List (Command n)) (c : Command n) :
    printed (cs ++ [c]) = printed cs ++ c.printed.toList := by
  cases h : c.printed <;> simp [printed, h]

/-! ### What a step does -/

/-- The steps of a session that leave every task where it is. -/
def carries : Session.Command n WString → Bool
  | .pool c => c.carries
  | .main | .join => true

inductive StepResult (s : Interaction n) : Command n → Interaction n → Prop
  | read (query : WString) (hasking : s.dialogue = .asking)
      (hmain : s.session.main = .serving) :
      StepResult s (.read query)
        { s with dialogue := if query = exitLine then .leaving else .asked query }
  | ask {query : WString} {session : Session n WString} (hasked : s.dialogue = .asked query)
      (h : s.session.step nullIndex (.pool (.addTask query)) = some session) :
      StepResult s (.session (.pool (.addTask query)))
        { s with session, dialogue := .waiting query }
  | handled {w : Fin n} {session : Session n WString} (hw : s.stored w = true)
      (h : s.session.step nullIndex (.pool (.handled w 0)) = some session) :
      StepResult s (.session (.pool (.handled w 0)))
        { s with session, stored := Function.update s.stored w false }
  | carry {c : Session.Command n WString} {session : Session n WString} (hc : carries c)
      (hshutdown : ∀ evenNonEmptyQueue, c = .pool (.shutdown evenNonEmptyQueue) →
        s.dialogue = .leaving)
      (h : s.session.step nullIndex c = some session) :
      StepResult s (.session c) { s with session }
  | store {w : Fin n} {query : WString} (answer : WString)
      (hw : s.session.pool.worker w = .handling query) (hopen : s.stored w = false) :
      StepResult s (.store w query answer)
        { s with result := answer, stored := Function.update s.stored w true }
  | notice {query : WString} (hwaiting : s.dialogue = .waiting query) (hresult : s.result ≠ []) :
      StepResult s .notice { s with dialogue := .printing query }
  | print {query : WString} (hprinting : s.dialogue = .printing query) :
      StepResult s (.print query s.result) { s with dialogue := .clearing }
  | clear (hclearing : s.dialogue = .clearing) :
      StepResult s .clear { s with dialogue := .asking, result := [] }

variable {s t : Interaction n}

theorem step_result {c : Command n} (h : s.step c = some t) : s.StepResult c t := by
  cases c with
  | read query =>
      rw [step] at h
      split at h
      · next hasking =>
          cases h
          exact .read query hasking.1 hasking.2
      · cases h
  | session c =>
      rw [step.eq_def] at h
      split at h
      case h_2 hc =>
        cases hc
        split at h
        · next hasked =>
            obtain ⟨session, hsession, rfl⟩ := Option.map_eq_some_iff.mp h
            exact .ask hasked hsession
        · cases h
      case h_3 hc =>
        cases hc
        split at h
        · next hleaving =>
            obtain ⟨session, hsession, rfl⟩ := Option.map_eq_some_iff.mp h
            exact .carry rfl (fun _ _ => hleaving.1) hsession
        · cases h
      case h_4 hc =>
        cases hc
        split at h
        · next hstored =>
            obtain ⟨hw, rfl⟩ := hstored
            obtain ⟨session, hsession, rfl⟩ := Option.map_eq_some_iff.mp h
            exact .handled hw hsession
        · cases h
      case h_5 c' hadd hshutdown hhandled hc =>
        cases hc
        obtain ⟨session, hsession, rfl⟩ := Option.map_eq_some_iff.mp h
        refine .carry ?_ (fun _ hc => absurd hc (hshutdown _)) hsession
        cases c with
        | main | join => rfl
        | pool c =>
            cases c with
            | addTask query => exact absurd rfl (hadd query)
            | handled w result => exact absurd rfl (hhandled w result)
            | _ => rfl
      all_goals
        rename_i hc
        cases hc
  | store w query answer =>
      rw [step] at h
      split at h
      · next hw =>
          cases h
          exact .store answer hw.1 hw.2
      · cases h
  | notice =>
      rw [step] at h
      split at h
      · next query hwaiting =>
          split at h
          · next hresult =>
              cases h
              exact .notice hwaiting hresult.2
          · cases h
      · cases h
  | print query answer =>
      rw [step] at h
      split at h
      · next hprinting =>
          obtain ⟨hprinting, rfl⟩ := hprinting
          cases h
          exact .print hprinting
      · cases h
  | clear =>
      rw [step] at h
      split at h
      · next hclearing =>
          cases h
          exact .clear hclearing
      · cases h

def Command.ofSession : Command n → Option (Session.Command n WString)
  | .session c => some c
  | _ => none

theorem projects : Machine.Projects step (Session.step nullIndex) session
    (Command.ofSession (n := n)) := by
  intro s c t h
  cases step_result h with
  | ask _ hsession => exact hsession
  | handled _ hsession => exact hsession
  | carry _ _ hsession => exact hsession
  | read | store | notice | print | clear => rfl

/-! ### One query at a time -/

/-- The queries that are not answered yet. -/
def pending (s : Interaction n) : Multiset WString := s.session.pool.pending s.stored

inductive Phase (cs : List (Command n)) (s : Interaction n) : Prop
  | idle (hdialogue : s.dialogue = .asking ∨ (∃ query, s.dialogue = .asked query) ∨
        s.dialogue = .leaving)
      (hresult : s.result = []) (hpending : s.pending = 0)
      (hasked : asked cs = (answered cs).map Prod.fst) (hprinted : answered cs = printed cs)
  | unanswered {query : WString} (hdialogue : s.dialogue = .waiting query) (hresult : s.result = [])
      (hpending : s.pending = {query})
      (hasked : asked cs = (answered cs).map Prod.fst ++ [query])
      (hprinted : answered cs = printed cs)
  | answered {query : WString}
      (hdialogue : s.dialogue = .waiting query ∨ s.dialogue = .printing query ∧ s.result ≠ [])
      (hpending : s.pending = 0) (hasked : asked cs = (answered cs).map Prod.fst)
      (hprinted : answered cs = printed cs ++ [(query, s.result)])
  | shown (hdialogue : s.dialogue = .clearing) (hpending : s.pending = 0)
      (hasked : asked cs = (answered cs).map Prod.fst) (hprinted : answered cs = printed cs)

structure Paced (cs : List (Command n)) (s : Interaction n) : Prop where
  handles : s.session.pool.Handles s.stored
  entered : s.dialogue ≠ .asking → s.session.main.entered = true
  leaving : s.session.main.left = true → s.dialogue = .leaving
  shown : ∀ shown ∈ printed cs, shown.2 ≠ []
  phase : s.Phase cs

theorem new_paced : (new : Interaction n).Paced [] where
  handles := ThreadPool.initThreads_handles
  entered h := absurd rfl h
  leaving h := by cases h
  shown _ h := by cases h
  phase := .idle (.inl rfl) rfl ThreadPool.initThreads_pending rfl rfl

variable {cs : List (Command n)} {c : Command n}

theorem Paced.not_left (hs : s.Paced cs) (h : s.dialogue ≠ .leaving) :
    ¬ s.session.main.left = true :=
  fun hleft => h (hs.leaving hleft)

theorem Phase.card_pending_le (h : s.Phase cs) : s.pending.card ≤ 1 := by
  cases h with
  | idle _ _ hpending | answered _ hpending | shown _ hpending =>
      rw [hpending]
      exact Nat.zero_le 1
  | unanswered _ _ hpending =>
      rw [hpending]
      exact le_rfl

theorem Phase.carry (h : s.Phase cs) (hdialogue : t.dialogue = s.dialogue)
    (hresult : t.result = s.result) (hpending : t.pending = s.pending) (hasked : c.asked = none)
    (hanswered : c.answered = none) (hprinted : c.printed = none) : t.Phase (cs ++ [c]) := by
  have hasked' : asked (cs ++ [c]) = asked cs := by simp [asked_snoc, hasked]
  have hanswered' : Interaction.answered (cs ++ [c]) = Interaction.answered cs := by
    simp [answered_snoc, hanswered]
  have hprinted' : printed (cs ++ [c]) = printed cs := by simp [printed_snoc, hprinted]
  cases h with
  | idle h₁ h₂ h₃ h₄ h₅ =>
      refine .idle ?_ (hresult.trans h₂) (hpending.trans h₃) ?_ ?_
      · rwa [hdialogue]
      · rwa [hasked', hanswered']
      · rwa [hanswered', hprinted']
  | unanswered h₁ h₂ h₃ h₄ h₅ =>
      refine .unanswered (hdialogue.trans h₁) (hresult.trans h₂) (hpending.trans h₃) ?_ ?_
      · rwa [hasked', hanswered']
      · rwa [hanswered', hprinted']
  | @answered query h₁ h₂ h₃ h₄ =>
      have h₁' : t.dialogue = .waiting query ∨ t.dialogue = .printing query ∧ t.result ≠ [] := by
        rwa [hdialogue, hresult]
      refine .answered h₁' (hpending.trans h₂) ?_ ?_
      · rwa [hasked', hanswered']
      · rwa [hanswered', hprinted', hresult]
  | shown h₁ h₂ h₃ h₄ =>
      refine .shown (hdialogue.trans h₁) (hpending.trans h₂) ?_ ?_
      · rwa [hasked', hanswered']
      · rwa [hanswered', hprinted']

theorem handles_of_carries {s t : Session n WString} {done : Fin n → Bool}
    (hs : s.pool.Handles done) (hone : (s.pool.pending done).card ≤ 1)
    {c : Session.Command n WString} (hc : carries c) (h : s.step nullIndex c = some t) :
    t.pool.Handles done ∧ t.pool.pending done = s.pool.pending done := by
  cases c with
  | main =>
      obtain ⟨finish, hpool, _⟩ := Session.pool_of_advance h
      rw [hpool]
      exact ⟨⟨hs.done, hs.once⟩, rfl⟩
  | join =>
      obtain ⟨finish, hpool, _⟩ := Session.pool_of_joinAll h
      rw [hpool]
      exact ⟨⟨hs.done, hs.once⟩, rfl⟩
  | pool c =>
      obtain ⟨pool, hpool, ⟨w, _, rfl⟩ | ⟨_, main, _, rfl⟩⟩ := Session.step_pool_eq_some h
      · exact hs.step hone hc hpool
      · exact hs.step hone hc hpool

theorem Phase.store (h : s.Phase cs) {w : Fin n} {query : WString} (answer : WString)
    (hw : s.session.pool.worker w = .handling query) (hopen : s.stored w = false) :
    Phase (cs ++ [.store w query answer])
      { s with result := answer, stored := Function.update s.stored w true } := by
  have hdone : s.session.pool.pending (Function.update s.stored w true) + {query} = s.pending :=
    ThreadPool.pending_done hw hopen
  cases h with
  | idle _ _ hpending | answered _ hpending | shown _ hpending =>
      rw [hpending] at hdone
      simp at hdone
  | @unanswered asked hdialogue _ hpending hasked hprinted =>
      have hzero : s.session.pool.pending (Function.update s.stored w true) = 0 := by
        have hcard := congrArg Multiset.card (hdone.trans hpending)
        rw [Multiset.card_add, Multiset.card_singleton, Multiset.card_singleton] at hcard
        exact Multiset.card_eq_zero.mp (Nat.succ.inj hcard)
      rw [hzero, zero_add, hpending, Multiset.singleton_inj] at hdone
      subst hdone
      refine .answered (.inl hdialogue) hzero ?_ ?_
      · rw [asked_snoc, answered_snoc, hasked]
        simp [Command.asked, Command.answered]
      · rw [answered_snoc, printed_snoc, hprinted]
        simp [Command.printed, Command.answered]

theorem Phase.ask (h : s.Phase cs) {query : WString} {session : Session n WString}
    (hdialogue : s.dialogue = .asked query)
    (hpending : session.pool.pending s.stored = s.pending + {query}) :
    Phase (cs ++ [.session (.pool (.addTask query))])
      { s with session, dialogue := .waiting query } := by
  cases h with
  | idle _ hresult hnone hasked hprinted =>
      refine .unanswered rfl hresult (hpending.trans ?_) ?_ ?_
      · rw [hnone, zero_add]
      · rw [asked_snoc, answered_snoc, hasked]
        simp [Command.asked, Command.answered]
      · rw [answered_snoc, printed_snoc, hprinted]
        simp [Command.printed, Command.answered]
  | unanswered h | shown h =>
      rw [hdialogue] at h
      cases h
  | answered h =>
      rw [hdialogue] at h
      simp at h

theorem Phase.read (h : s.Phase cs) (hasking : s.dialogue = .asking) (query : WString) :
    Phase (cs ++ [.read query])
      { s with dialogue := if query = exitLine then .leaving else .asked query } := by
  cases h with
  | idle _ hresult hpending hasked hprinted =>
      refine .idle ?_ hresult hpending ?_ ?_
      · by_cases hexit : query = exitLine
        · exact .inr (.inr (if_pos hexit))
        · exact .inr (.inl ⟨query, if_neg hexit⟩)
      · rw [asked_snoc, answered_snoc, hasked]
        simp [Command.asked, Command.answered]
      · rw [answered_snoc, printed_snoc, hprinted]
        simp [Command.printed, Command.answered]
  | unanswered h | shown h =>
      rw [hasking] at h
      cases h
  | answered h =>
      rw [hasking] at h
      simp at h

theorem Phase.notice (h : s.Phase cs) {query : WString} (hwaiting : s.dialogue = .waiting query)
    (hresult : s.result ≠ []) : Phase (cs ++ [.notice]) { s with dialogue := .printing query } := by
  cases h with
  | idle h =>
      rw [hwaiting] at h
      simp at h
  | unanswered _ hempty => exact absurd hempty hresult
  | shown h =>
      rw [hwaiting] at h
      cases h
  | @answered answeredQuery hdialogue hpending hasked hprinted =>
      obtain rfl : query = answeredQuery := by
        rw [hwaiting] at hdialogue
        simpa using hdialogue
      refine .answered (.inr ⟨rfl, hresult⟩) hpending ?_ ?_
      · rw [asked_snoc, answered_snoc, hasked]
        simp [Command.asked, Command.answered]
      · rw [answered_snoc, printed_snoc, hprinted]
        simp [Command.printed, Command.answered]

theorem Phase.print (h : s.Phase cs) {query : WString} (hprinting : s.dialogue = .printing query) :
    s.result ≠ [] ∧ Phase (cs ++ [.print query s.result]) { s with dialogue := .clearing } := by
  cases h with
  | idle h =>
      rw [hprinting] at h
      simp at h
  | unanswered h | shown h =>
      rw [hprinting] at h
      cases h
  | @answered answeredQuery hdialogue hpending hasked hprinted =>
      rw [hprinting] at hdialogue
      obtain ⟨hquery, hresult⟩ : query = answeredQuery ∧ s.result ≠ [] := by simpa using hdialogue
      subst hquery
      refine ⟨hresult, .shown rfl hpending ?_ ?_⟩
      · rw [asked_snoc, answered_snoc, hasked]
        simp [Command.asked, Command.answered]
      · rw [answered_snoc, printed_snoc, hprinted]
        simp [Command.printed, Command.answered]

theorem Phase.clear (h : s.Phase cs) (hclearing : s.dialogue = .clearing) :
    Phase (cs ++ [.clear]) { s with dialogue := .asking, result := [] } := by
  cases h with
  | idle h | answered h =>
      rw [hclearing] at h
      simp at h
  | unanswered h =>
      rw [hclearing] at h
      cases h
  | shown _ hpending hasked hprinted =>
      refine .idle (.inl rfl) rfl hpending ?_ ?_
      · rw [asked_snoc, answered_snoc, hasked]
        simp [Command.asked, Command.answered]
      · rw [answered_snoc, printed_snoc, hprinted]
        simp [Command.printed, Command.answered]

theorem shown_snoc (hs : ∀ shown ∈ printed cs, shown.2 ≠ []) (hc : c.printed = none) :
    ∀ shown ∈ printed (cs ++ [c]), shown.2 ≠ [] := by
  rwa [printed_snoc, hc, Option.toList_none, List.append_nil]

theorem Paced.step (hs : s.Paced cs) (h : s.step c = some t) : t.Paced (cs ++ [c]) := by
  have hone := hs.phase.card_pending_le
  cases step_result h with
  | @carry c session hc hshutdown hsession =>
      obtain ⟨hhandles, hpending⟩ := handles_of_carries hs.handles hone hc hsession
      have hasked : (Command.session c).asked = none := by
        cases c with
        | main | join => rfl
        | pool c => cases c <;> first | rfl | cases hc
      refine ⟨hhandles, fun hdialogue => Session.entered_of_step (hs.entered hdialogue) hsession,
        fun hleft => ?_, shown_snoc hs.shown rfl, hs.phase.carry rfl rfl hpending hasked rfl rfl⟩
      rcases (Session.left_of_step hsession).2 hleft with hleft | ⟨evenNonEmptyQueue, rfl⟩
      · exact hs.leaving hleft
      · exact hshutdown evenNonEmptyQueue rfl
  | @handled w session hw hsession =>
      obtain ⟨pool, hpool, ⟨_, _, rfl⟩ | ⟨htaker, _⟩⟩ := Session.step_pool_eq_some hsession
      · cases ThreadPool.step_result hpool with
        | handled =>
            obtain ⟨hhandles, hpending⟩ := hs.handles.handled hw
            exact ⟨hhandles, hs.entered, hs.leaving, shown_snoc hs.shown rfl,
              hs.phase.carry rfl rfl hpending rfl rfl rfl⟩
      · cases htaker
  | @ask query session hasked hsession =>
      obtain ⟨pool, hpool, ⟨_, htaker, _⟩ | ⟨_, main, _, rfl⟩⟩ := Session.step_pool_eq_some hsession
      · cases htaker
      · cases ThreadPool.step_result hpool
        refine ⟨⟨hs.handles.done, hs.handles.once⟩, fun _ => Session.entered_of_step
          (hs.entered (by simp [hasked])) hsession, fun hleft => ?_, shown_snoc hs.shown rfl,
          hs.phase.ask hasked (ThreadPool.pending_addTask rfl rfl)⟩
        rcases (Session.left_of_step hsession).2 hleft with hleft | ⟨_, hc⟩
        · exact absurd hleft (hs.not_left (by simp [hasked]))
        · cases hc
  | read query hasking hmain =>
      exact ⟨hs.handles, fun _ => by rw [hmain]; rfl,
        fun hleft => absurd hleft (hs.not_left (by simp [hasking])),
        shown_snoc hs.shown rfl, hs.phase.read hasking query⟩
  | @store w query answer hw hopen =>
      exact ⟨hs.handles.finish hw, hs.entered, hs.leaving, shown_snoc hs.shown rfl,
        hs.phase.store answer hw hopen⟩
  | @notice query hwaiting hresult =>
      exact ⟨hs.handles, fun _ => hs.entered (by simp [hwaiting]),
        fun hleft => absurd hleft (hs.not_left (by simp [hwaiting])),
        shown_snoc hs.shown rfl, hs.phase.notice hwaiting hresult⟩
  | @print query hprinting =>
      obtain ⟨hresult, hphase⟩ := hs.phase.print hprinting
      refine ⟨hs.handles, fun _ => hs.entered (by simp [hprinting]),
        fun hleft => absurd hleft (hs.not_left (by simp [hprinting])),
        fun shown hshown => ?_, hphase⟩
      rw [printed_snoc] at hshown
      rcases List.mem_append.mp hshown with hold | hnew
      · exact hs.shown shown hold
      · cases List.mem_singleton.mp hnew
        exact hresult
  | clear hclearing =>
      exact ⟨hs.handles, fun h => absurd rfl h,
        fun hleft => absurd hleft (hs.not_left (by simp [hclearing])),
        shown_snoc hs.shown rfl, hs.phase.clear hclearing⟩

theorem run_paced (hrun : Machine.run step new cs = some s) : s.Paced cs :=
  Machine.run_history Paced new_paced (fun _ _ _ _ _ hs h => hs.step h) hrun

/-- Whatever the threads do, there is never more than one task in the queue, every query is answered
once, and what is printed are the answers to the queries in their order. When the main thread asks
again, or leaves, every query has been printed with its answer. -/
theorem run_interact (hrun : Machine.run step new cs = some s) :
    s.session.pool.tasks.length ≤ 1 ∧ printed cs <+: answered cs ∧
      (answered cs).map Prod.fst <+: asked cs ∧ (asked cs).length ≤ (printed cs).length + 1 ∧
        (s.dialogue = .asking ∨ s.dialogue = .leaving →
          asked cs = (printed cs).map Prod.fst) := by
  have hs := run_paced hrun
  refine ⟨ThreadPool.length_tasks_le.trans hs.phase.card_pending_le, ?_⟩
  cases hs.phase with
  | idle _ _ _ hasked hprinted | shown _ _ hasked hprinted =>
      rw [hasked, hprinted, List.length_map]
      exact ⟨List.prefix_rfl, List.prefix_rfl, Nat.le_succ _, fun _ => rfl⟩
  | unanswered hdialogue _ _ hasked hprinted =>
      rw [hasked, hprinted, List.length_append, List.length_map]
      refine ⟨List.prefix_rfl, List.prefix_append _ _, le_rfl, fun h => ?_⟩
      rw [hdialogue] at h
      simp at h
  | answered hdialogue _ hasked hprinted =>
      rw [hasked, hprinted, List.length_map, List.length_append]
      refine ⟨List.prefix_append _ _, List.prefix_rfl, le_rfl, fun h => ?_⟩
      rcases hdialogue with hdialogue | ⟨hdialogue, _⟩
      · rw [hdialogue] at h
        simp at h
      · rw [hdialogue] at h
        simp at h

def untilHandling : List (Command 1) :=
  [.session .main, .session .main, .session .main, .session .main, .read [97],
    .session (.pool (.addTask [97])), .session (.pool (.notify none)),
    .session (.pool (.work (Fin.last 0))), .session (.pool (.work (Fin.last 0))),
    .session (.pool (.work (Fin.last 0))), .session (.pool (.work (Fin.last 0))),
    .session (.pool (.take (Fin.last 0) (some [97]))), .session (.pool (.work (Fin.last 0))),
    .session (.pool (.work (Fin.last 0)))]

def answeredQuery : List (Command 1) :=
  untilHandling ++ [.store (Fin.last 0) [97] [98], .notice, .print [97] [98], .clear]

theorem answeredQuery_interact : ∃ s, Machine.run step new answeredQuery = some s ∧
    s.session.pool.tasks.length ≤ 1 ∧ printed answeredQuery <+: answered answeredQuery ∧
      (answered answeredQuery).map Prod.fst <+: asked answeredQuery ∧
        (asked answeredQuery).length ≤ (printed answeredQuery).length + 1 ∧
          (s.dialogue = .asking ∨ s.dialogue = .leaving →
            asked answeredQuery = (printed answeredQuery).map Prod.fst) :=
  ⟨_, rfl, run_interact rfl⟩

/-- Once a handler has stored an empty answer, the main thread waits for ever: no further query is
added and no further handler runs. -/
theorem run_emptyAnswer {query : WString} (hrun : Machine.run step new cs = some s)
    (hempty : (query, []) ∈ answered cs) :
    s.dialogue = .waiting query ∧ s.result = [] ∧ s.pending = 0 ∧
      answered cs = printed cs ++ [(query, [])] := by
  have hs := run_paced hrun
  have hunprinted : (query, []) ∉ printed cs := fun h => hs.shown _ h rfl
  cases hs.phase with
  | idle _ _ _ _ hprinted | unanswered _ _ _ _ hprinted | shown _ _ _ hprinted =>
      rw [hprinted] at hempty
      exact absurd hempty hunprinted
  | @answered answeredQuery hdialogue hpending hasked hprinted =>
      rw [hprinted] at hempty
      rcases List.mem_append.mp hempty with hempty | hempty
      · exact absurd hempty hunprinted
      · obtain ⟨rfl, hresult⟩ := Prod.mk.inj (List.mem_singleton.mp hempty)
        refine ⟨hdialogue.resolve_right fun h => h.2 hresult.symm, hresult.symm, hpending, ?_⟩
        rw [hprinted, ← hresult]

def emptyAnswer : List (Command 1) := untilHandling ++ [.store (Fin.last 0) [97] []]

theorem emptyAnswer_waits : ∃ s, Machine.run step new emptyAnswer = some s ∧
    s.dialogue = .waiting [97] ∧ s.result = [] ∧ s.pending = 0 ∧
      answered emptyAnswer = printed emptyAnswer ++ [([97], [])] :=
  ⟨_, rfl, run_emptyAnswer rfl (List.mem_singleton.mpr rfl)⟩

end Interaction

end IndexServer
