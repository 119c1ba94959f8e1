import IndexServer.InvertedIndex.ServiceDrain
import IndexServer.InvertedIndex.ServiceThreads
import IndexServer.Lib.Tally

/-!
# The service comes to its end

Behind the `FINISH` of `shutdownService` a caller of `serviceLoop` still drains the queue, and what
is pushed meanwhile, and returns. It would not if `FINISH` came before its own store of `WORK`, or
if it blocked when the notification had already come. Each exception pays for the rounds that it can
cause, so the steps are bounded by what waits in the queue and what is pushed.
-/

namespace IndexServer

namespace Exception

/-- A push adds rounds for itself, and at most two for the exception that it hides. -/
theorem rounds_concat_le (queue : List Exception) (e : Exception) :
    rounds (queue ++ [e]) ≤ rounds queue + 5 := by
  have hle := e.escalations_le
  rw [rounds_of_back List.getLast?_concat, List.length_append, List.length_singleton,
    Nat.add_sub_cancel]
  cases hback : queue.getLast? with
  | none =>
      rw [List.getLast?_eq_none_iff.mp hback]
      simp only [List.length_nil]
      omega
  | some b =>
      have hpos := b.escalations_pos
      rw [rounds_of_back hback]
      omega

/-- The rounds that are left at most while the handler of an exception runs. -/
def roundsBehind (queue : List Exception) (e : Exception) : ℕ :=
  3 * (queue.length - 1) + e.escalations

theorem rounds_tail_lt (queue : List Exception) (e : Exception) :
    rounds queue.tail < roundsBehind queue e := by
  have hle := rounds_le queue.tail
  have hpos := e.escalations_pos
  rw [List.length_tail] at hle
  rw [roundsBehind]
  omega

theorem rounds_tail_concat_lt {queue : List Exception} {e e' : Exception} (hqueue : queue ≠ [])
    (hraises : e.raises = some e') : rounds (queue ++ [e']).tail < roundsBehind queue e := by
  have hlt := escalations_lt hraises
  rw [List.tail_append_of_ne_nil hqueue, rounds_of_back List.getLast?_concat, roundsBehind,
    List.length_append, List.length_tail, List.length_singleton]
  omega

end Exception

open Exception

/-- The steps in the loop that are left at most behind `FINISH`, with what is in the queue. -/
def Keeper.stepsLeft (queue : List Exception) : Keeper → ℕ
  | .trying | .refused | .returned => 0
  | .storing | .unlocking => 1
  | .testing => 2
  | .reading => 5 * rounds queue + 2
  | .draining _ => 5 * rounds queue + 3
  | .entering => 5 * rounds queue + 4
  | .deciding _ => 5 * rounds queue + 5
  | .sizing => 5 * rounds queue + 6
  | .woken => 5 * rounds queue + 7
  | .blocked => 5 * rounds queue + 8
  | .dozing => 5 * rounds queue + 9
  | .selected e => 5 * roundsBehind queue e + 1
  | .handling e => 5 * roundsBehind queue e
  | .popping => 5 * rounds queue.tail + 4

def Keeper.isTrying : Keeper → Bool
  | .trying => true
  | _ => false

theorem Keeper.stepsLeft_concat_le {queue : List Exception} {p : Keeper} (e : Exception)
    (hp : p.Counts → queue ≠ []) :
    p.stepsLeft (queue ++ [e]) ≤ p.stepsLeft queue + 25 := by
  have hrounds := rounds_concat_le queue e
  have hbehind : ∀ e', queue ≠ [] → roundsBehind (queue ++ [e]) e' ≤ roundsBehind queue e' + 5 := by
    intro e' hqueue
    have hpos := List.length_pos_iff.mpr hqueue
    rw [roundsBehind, roundsBehind, List.length_append, List.length_singleton]
    omega
  cases p with
  | popping =>
      have hqueue := hp trivial
      have htail := rounds_concat_le queue.tail e
      rw [stepsLeft, stepsLeft, List.tail_append_of_ne_nil hqueue]
      omega
  | selected e' =>
      have hle := hbehind e' (hp trivial)
      rw [stepsLeft, stepsLeft]
      omega
  | handling e' =>
      have hle := hbehind e' (hp trivial)
      rw [stepsLeft, stepsLeft]
      omega
  | trying | refused | returned | storing | unlocking | testing =>
      rw [stepsLeft, stepsLeft]
      omega
  | reading | draining | entering | deciding | sizing | woken | blocked | dozing =>
      rw [stepsLeft, stepsLeft]
      omega

theorem Keeper.stepsLeft_le {queue : List Exception} {p : Keeper} (hp : p.Counts → queue ≠ []) :
    p.stepsLeft queue ≤ 15 * queue.length + 9 := by
  have hrounds := rounds_le queue
  have hbehind : ∀ e, queue ≠ [] → roundsBehind queue e ≤ 3 * queue.length := by
    intro e hqueue
    have hpos := List.length_pos_iff.mpr hqueue
    have hle := e.escalations_le
    rw [roundsBehind]
    omega
  cases p with
  | popping =>
      have htail := rounds_le queue.tail
      rw [List.length_tail] at htail
      rw [stepsLeft]
      omega
  | selected e =>
      have hle := hbehind e (hp trivial)
      rw [stepsLeft]
      omega
  | handling e =>
      have hle := hbehind e (hp trivial)
      rw [stepsLeft]
      omega
  | trying | refused | returned | storing | unlocking | testing =>
      rw [stepsLeft]
      omega
  | reading | draining | entering | deciding | sizing | woken | blocked | dozing =>
      rw [stepsLeft]
      omega

namespace ServiceThreads

open Tally

variable {ι : Type} [DecidableEq ι] [Fintype ι] {s t : ServiceThreads ι} {c : Command ι} {i : ι}

def Command.pushed : Command ι → Option Exception
  | .push e => some e
  | _ => none

/-- No caller stores `WORK` over `FINISH`, and none blocks while an exception or `FINISH` is there
unless its notification is still to come. -/
def Punctual (s : ServiceThreads ι) : Command ι → Prop
  | .work i => (s.keeper i = .storing → s.serviceFinish = false) ∧
      (s.keeper i = .dozing → (s.exceptionQueue ≠ [] → 0 < s.notifying) ∧
        (s.serviceFinish = true → 0 < s.announcing))
  | _ => True

omit [DecidableEq ι] [Fintype ι] in
instance (s : ServiceThreads ι) (c : Command ι) : Decidable (s.Punctual c) :=
  match c with
  | .work i => inferInstanceAs (Decidable ((s.keeper i = .storing → s.serviceFinish = false) ∧ _))
  | .push _ | .notify _ | .shutdownService _ | .finish | .announce _ | .read _ _ | .call _ _
  | .raise _ _ | .pop _ | .wake _ => isTrue trivial

def Attended (s : ServiceThreads ι) : Prop :=
  ∀ i, s.keeper i = .blocked → (s.exceptionQueue ≠ [] → 0 < s.notifying) ∧
    (s.serviceFinish = true → 0 < s.announcing)

omit [DecidableEq ι] [Fintype ι] in
theorem new_attended : (new : ServiceThreads ι).Attended := by
  intro i hi
  cases hi

omit [Fintype ι] in
/-- Where one caller of the loop moves, no other is blocked. -/
theorem Owned.attended (hs : s.Owned) {p : Keeper} (hi : (s.keeper i).inLoop = true)
    (hp : p ≠ .blocked) (hkeeper : t.keeper = Function.update s.keeper i p) : t.Attended := by
  intro j hj
  rw [hkeeper] at hj
  by_cases hji : j = i
  · rw [hji, Function.update_self] at hj
    exact absurd hj hp
  · rw [Function.update_of_ne hji] at hj
    have hjLoop : (s.keeper j).inLoop = true := by rw [hj]; rfl
    have hboth := ((hs.inLoop j).mp hjLoop).symm.trans ((hs.inLoop i).mp hi)
    exact absurd (Option.some.inj hboth) hji

omit [Fintype ι] in
theorem Owned.attended_notify (hs : s.Owned) (h : s.NotifyResult t) : t.Attended := by
  cases h with
  | nobody hawake => exact fun i hi => absurd hi (hawake i)
  | woken hi => exact hs.attended (p := .woken) (by rw [hi]; rfl) (by decide) rfl

omit [Fintype ι] in
theorem Attended.work (hs : s.Attended) (howned : s.Owned) (hc : s.Punctual (.work i))
    (h : s.WorkResult i t) : t.Attended := by
  cases h with
  | taken hi hfree =>
      intro j hj
      have hsame : Function.update s.keeper i .storing j = .blocked := hj
      by_cases hji : j = i
      · rw [hji, Function.update_self] at hsame
        cases hsame
      · rw [Function.update_of_ne hji] at hsame
        have howner := (howned.inLoop j).mp (by rw [hsame]; rfl)
        rw [hfree] at howner
        cases howner
  | refused hi =>
      intro j hj
      have hsame : Function.update s.keeper i .refused j = .blocked := hj
      by_cases hji : j = i
      · rw [hji, Function.update_self] at hsame
        cases hsame
      · rw [Function.update_of_ne hji] at hsame
        exact hs j hsame
  | blocked hi =>
      intro j hj
      by_cases hji : j = i
      · exact hc.2 hi
      · have hsame : Function.update s.keeper i .blocked j = .blocked := hj
        rw [Function.update_of_ne hji] at hsame
        exact hs j hsame
  | stored hi => exact howned.attended (p := .testing) (by rw [hi]; rfl) (by decide) rfl
  | tested hi => exact howned.attended (by rw [hi]; rfl) (by split <;> simp) rfl
  | sized hi => exact howned.attended (by rw [hi]; rfl) (by simp) rfl
  | decided hi => exact howned.attended (by rw [hi]; rfl) (by split <;> simp) rfl
  | again hi => exact howned.attended (by rw [hi]; rfl) (by simp) rfl
  | entered hi => exact howned.attended (by rw [hi]; rfl) (by simp) rfl
  | drained hi => exact howned.attended (by rw [hi]; rfl) (by split <;> simp) rfl
  | quiet hi => exact howned.attended (by rw [hi]; rfl) (by simp) rfl
  | unlocked hi => exact howned.attended (p := .returned) (by rw [hi]; rfl) (by simp) rfl

theorem Attended.step (hs : s.Attended) (howned : s.Owned) (hc : s.Punctual c)
    (h : s.step c = some t) : t.Attended := by
  cases step_result h with
  | push =>
      intro i hi
      exact ⟨fun _ => Nat.succ_pos _, (hs i hi).2⟩
  | notify hresult =>
      exact Owned.attended_notify (s := { s with notifying := s.notifying - 1 })
        ⟨howned.inLoop, howned.counts⟩ hresult
  | shutdownService => exact hs
  | finish =>
      intro i hi
      exact ⟨(hs i hi).1, fun _ => Nat.succ_pos _⟩
  | announce hresult =>
      exact Owned.attended_notify (s := { s with announcing := s.announcing - 1 })
        ⟨howned.inLoop, howned.counts⟩ hresult
  | work hwork => exact hs.work howned hc hwork
  | read hi => exact howned.attended (by rw [hi]; rfl) (by simp) rfl
  | call hi => exact howned.attended (by rw [hi]; rfl) (by simp) rfl
  | raise hi => exact howned.attended (p := .popping) (by rw [hi]; rfl) (by simp) rfl
  | pop hi => exact howned.attended (p := .draining _) (by rw [hi]; rfl) (by simp) rfl
  | wake hi => exact howned.attended (by rw [hi]; rfl) (by simp) rfl

/-! ### Behind `FINISH` -/

/-- The steps in the loop that its owner takes at most. -/
def left (s : ServiceThreads ι) : ℕ :=
  match s.serviceHandle with
  | some i => (s.keeper i).stepsLeft s.exceptionQueue
  | none => 0

/-- The steps that the callers take at most: two for each that has not come to `try_lock`. -/
def rank (s : ServiceThreads ι) : ℕ := s.left + 2 * count Keeper.isTrying s.keeper

omit [DecidableEq ι] [Fintype ι] in
theorem left_of_owner (h : s.serviceHandle = some i) :
    s.left = (s.keeper i).stepsLeft s.exceptionQueue := by
  rw [left, h]

theorem count_of_update {p : Keeper} (hkeeper : t.keeper = Function.update s.keeper i p) :
    count Keeper.isTrying t.keeper + (s.keeper i).isTrying.toNat =
      count Keeper.isTrying s.keeper + p.isTrying.toNat := by
  rw [hkeeper]
  exact tally_update (fun q => (Keeper.isTrying q).toNat) s.keeper i p

theorem Owned.rank_move (hs : s.Owned) {p : Keeper} (hi : (s.keeper i).inLoop = true)
    (hp : p.inLoop = true) (hkeeper : t.keeper = Function.update s.keeper i p)
    (hhandle : t.serviceHandle = s.serviceHandle) {k : ℕ}
    (hlower : p.stepsLeft t.exceptionQueue + k ≤ (s.keeper i).stepsLeft s.exceptionQueue) :
    t.rank + k ≤ s.rank := by
  have hout : ∀ q : Keeper, q.inLoop = true → q.isTrying = false := by
    intro q hq
    cases q <;> first | rfl | cases hq
  have howner := (hs.inLoop i).mp hi
  have hcount := count_of_update hkeeper
  rw [hout _ hi, hout _ hp] at hcount
  have hnew : t.keeper i = p := by rw [hkeeper, Function.update_self]
  rw [rank, rank, left_of_owner howner, left_of_owner (hhandle.trans howner), hnew]
  omega

theorem Owned.rank_set (hs : s.Owned) {p q : Keeper} (hi : s.keeper i = q)
    (hq : q.inLoop = true) (hp : p.inLoop = true)
    (hlower : p.stepsLeft s.exceptionQueue + 1 ≤ q.stepsLeft s.exceptionQueue) :
    (s.set i p).rank + 1 ≤ s.rank :=
  hs.rank_move (t := s.set i p) (hi ▸ hq) hp rfl rfl (hi ▸ hlower)

theorem Owned.rank_work (hs : s.Owned) (hfinish : s.serviceFinish = true)
    (hc : s.Punctual (.work i)) (h : s.WorkResult i t) :
    t.serviceFinish = true ∧ t.rank + 1 ≤ s.rank := by
  cases h with
  | taken hi hfree =>
      refine ⟨hfinish, ?_⟩
      have hcount := count_of_update (s := s)
        (t := { s.set i .storing with serviceHandle := some i }) rfl
      rw [hi] at hcount
      have hold : s.left = 0 := by rw [left, hfree]
      have hnew : ({ s.set i .storing with
          serviceHandle := some i } : ServiceThreads ι).left = 1 := by
        rw [left_of_owner rfl]
        show Keeper.stepsLeft _ (Function.update s.keeper i .storing i) = 1
        rw [Function.update_self]
        rfl
      rw [rank, rank, hold, hnew]
      change _ + 1 = _ + 0 at hcount
      omega
  | refused hi =>
      refine ⟨hfinish, ?_⟩
      have hcount := count_of_update (s := s) (t := s.set i .refused) rfl
      rw [hi] at hcount
      have hsame : (s.set i .refused).left = s.left := by
        cases hhandle : s.serviceHandle with
        | none =>
            have hfree : (s.set i .refused).serviceHandle = none := hhandle
            rw [left, left, hfree, hhandle]
        | some j =>
            have hji : j ≠ i := by
              rintro rfl
              have hj := (hs.inLoop j).mpr hhandle
              rw [hi] at hj
              cases hj
            have hnew : (s.set i .refused).left =
                ((s.set i .refused).keeper j).stepsLeft s.exceptionQueue := left_of_owner hhandle
            rw [hnew, left_of_owner hhandle]
            exact congrArg _ (Function.update_of_ne hji _ _)
      rw [rank, rank, hsame]
      change _ + 1 = _ + 0 at hcount
      omega
  | stored hi =>
      have hworking := hc.1 hi
      rw [hfinish] at hworking
      cases hworking
  | tested hi =>
      rw [if_pos hfinish]
      exact ⟨hfinish, hs.rank_set hi rfl rfl le_rfl⟩
  | sized hi => exact ⟨hfinish, hs.rank_set hi rfl rfl le_rfl⟩
  | decided hi =>
      rw [if_neg (by rw [hfinish]; exact fun h => Bool.noConfusion h.2)]
      exact ⟨hfinish, hs.rank_set hi rfl rfl le_rfl⟩
  | blocked hi => exact ⟨hfinish, hs.rank_set hi rfl rfl le_rfl⟩
  | again hi => exact ⟨hfinish, hs.rank_set hi rfl rfl le_rfl⟩
  | entered hi => exact ⟨hfinish, hs.rank_set hi rfl rfl le_rfl⟩
  | drained hi =>
      refine ⟨hfinish, hs.rank_set hi rfl (by split <;> rfl) ?_⟩
      split
      · exact le_rfl
      · exact Nat.le_add_left 3 _
  | @quiet e hi =>
      refine ⟨hfinish, hs.rank_set hi rfl rfl ?_⟩
      have hlt := rounds_tail_lt s.exceptionQueue e
      change 5 * rounds s.exceptionQueue.tail + 4 + 1 ≤ 5 * roundsBehind s.exceptionQueue e
      omega
  | unlocked hi =>
      refine ⟨hfinish, ?_⟩
      have hcount := count_of_update (s := s)
        (t := { s.set i .returned with serviceHandle := none }) rfl
      rw [hi] at hcount
      have howner := (hs.inLoop i).mp (by rw [hi]; rfl)
      have hold : s.left = 1 := by rw [left_of_owner howner, hi]; rfl
      rw [rank, rank, hold]
      change _ + 0 = _ + 0 at hcount
      show 0 + 2 * _ + 1 ≤ _
      omega

theorem Owned.rank_notify (hs : s.Owned) (h : s.NotifyResult t) :
    t.serviceFinish = s.serviceFinish ∧ t.rank ≤ s.rank := by
  cases h with
  | nobody => exact ⟨rfl, le_rfl⟩
  | woken hi => exact ⟨rfl, Nat.le_of_succ_le (hs.rank_set hi rfl rfl le_rfl)⟩

/-- Behind `FINISH` every step of a caller counts, and every push pays. -/
theorem Owned.lowers (hs : s.Owned) (hfinish : s.serviceFinish = true) (hc : s.Punctual c)
    (h : s.step c = some t) :
    t.serviceFinish = true ∧
      t.rank + (if c.taker.isSome then 1 else 0) ≤ s.rank + if c.pushed.isSome then 25 else 0 := by
  cases step_result h with
  | @push e =>
      refine ⟨hfinish, ?_⟩
      have hleft : (⟨s.serviceHandle, s.serviceFinish, s.exceptionQueue ++ [e], s.keeper,
          s.notifying + 1, s.closing, s.announcing⟩ : ServiceThreads ι).left ≤ s.left + 25 := by
        cases hhandle : s.serviceHandle with
        | none => exact Nat.zero_le _
        | some i =>
            rw [left_of_owner hhandle]
            exact Keeper.stepsLeft_concat_le e (hs.counts i)
      rw [rank, rank]
      change _ + 2 * count Keeper.isTrying s.keeper + 0 ≤ _ + 25
      omega
  | notify hresult =>
      obtain ⟨hsame, hle⟩ := Owned.rank_notify (s := { s with notifying := s.notifying - 1 })
        ⟨hs.inLoop, hs.counts⟩ hresult
      exact ⟨hsame.trans hfinish, hle⟩
  | announce hresult =>
      obtain ⟨hsame, hle⟩ := Owned.rank_notify (s := { s with announcing := s.announcing - 1 })
        ⟨hs.inLoop, hs.counts⟩ hresult
      exact ⟨hsame.trans hfinish, hle⟩
  | shutdownService => exact ⟨hfinish, le_rfl⟩
  | finish => exact ⟨rfl, le_rfl⟩
  | work hwork => exact hs.rank_work hfinish hc hwork
  | @read i e hi hback =>
      refine ⟨hfinish, hs.rank_set hi rfl rfl ?_⟩
      change 5 * roundsBehind s.exceptionQueue e + 1 + 1 ≤ 5 * rounds s.exceptionQueue + 2
      rw [rounds_of_back hback]
      exact le_rfl
  | call hi => exact ⟨hfinish, hs.rank_set hi rfl rfl le_rfl⟩
  | @raise i e e' hi hraises =>
      refine ⟨hfinish, hs.rank_move
        (t := { s.set i .popping with exceptionQueue := s.exceptionQueue ++ [e'] })
        (p := .popping) (k := 1) (by rw [hi]; rfl) rfl rfl rfl ?_⟩
      have hlt := rounds_tail_concat_lt (hs.counts i (by rw [hi]; trivial)) hraises
      rw [hi]
      change 5 * rounds (s.exceptionQueue ++ [e']).tail + 4 + 1 ≤
        5 * roundsBehind s.exceptionQueue e
      omega
  | @pop i hi =>
      refine ⟨hfinish, hs.rank_move
        (t := { s.set i (.draining s.exceptionQueue.tail.length) with
          exceptionQueue := s.exceptionQueue.tail })
        (p := .draining s.exceptionQueue.tail.length) (k := 1) (by rw [hi]; rfl) rfl rfl rfl ?_⟩
      rw [hi]
      exact le_rfl
  | wake hi => exact ⟨hfinish, hs.rank_set hi rfl rfl le_rfl⟩

/-- A caller that has not come back takes a step, or else `shutdownService` has still to wake it. -/
theorem Owned.goes_on_or_announces (hs : s.Owned) (hattended : s.Attended)
    (hfinish : s.serviceFinish = true)
    (hi : ¬ (s.keeper i = .refused ∨ s.keeper i = .returned)) :
    ∃ c, (s.step c).isSome ∧ (c.taker.isSome ∨ ∃ target, c = .announce target) := by
  obtain ⟨hrefused, hreturned⟩ := not_or.mp hi
  by_cases hloop : (s.keeper i).inLoop = true
  · by_cases hblocked : s.keeper i = .blocked
    · have hannouncing := (hattended i hblocked).2 hfinish
      refine ⟨.announce (some i), ?_, .inr ⟨_, rfl⟩⟩
      rw [ServiceThreads.step, if_pos hannouncing, notifyOne, if_pos hblocked]
      rfl
    · obtain ⟨c, htaker, hstep⟩ := hs.goes_on hloop hblocked
      exact ⟨c, hstep, .inl (by rw [htaker]; rfl)⟩
  · refine ⟨.work i, ?_, .inl rfl⟩
    cases hp : s.keeper i with
    | trying =>
        rw [ServiceThreads.step, ServiceThreads.work, hp]
        cases s.serviceHandle <;> rfl
    | refused => exact absurd hp hrefused
    | returned => exact absurd hp hreturned
    | _ =>
        rw [hp] at hloop
        exact absurd rfl hloop

theorem Owned.step_of_empty (hs : s.Owned) (hqueue : s.exceptionQueue = [])
    (hc : c.pushed = none) (h : s.step c = some t) :
    t.exceptionQueue = [] ∧ ∀ i e, c ≠ .call i e := by
  have hidle : ∀ i, ¬ (s.keeper i).Counts := fun i hi => hs.counts i hi hqueue
  have hquiet : ∀ {s t : ServiceThreads ι}, s.NotifyResult t →
      t.exceptionQueue = s.exceptionQueue := by
    intro s t h
    cases h <;> rfl
  cases step_result h with
  | push => cases hc
  | notify hresult => exact ⟨(hquiet hresult).trans hqueue, fun _ _ h => by cases h⟩
  | announce hresult => exact ⟨(hquiet hresult).trans hqueue, fun _ _ h => by cases h⟩
  | shutdownService | finish => exact ⟨hqueue, fun _ _ h => by cases h⟩
  | work hwork =>
      refine ⟨?_, fun _ _ h => by cases h⟩
      cases hwork <;> exact hqueue
  | @read i e hi => exact absurd (by rw [hi]; trivial) (hidle i)
  | @call i e hi => exact absurd (by rw [hi]; trivial) (hidle i)
  | @raise i e e' hi => exact absurd (by rw [hi]; trivial) (hidle i)
  | @pop i hi => exact absurd (by rw [hi]; trivial) (hidle i)
  | wake => exact ⟨hqueue, fun _ _ h => by cases h⟩

/-- `FINISH` comes while the caller is about to test for it. -/
def beforeFinish : List (Command Unit) :=
  [.work (), .work (), .shutdownService true, .finish]

def behindFinish : List (Command Unit) :=
  [.push .fullTable, .announce none, .work (), .work ()]

end ServiceThreads

end IndexServer
