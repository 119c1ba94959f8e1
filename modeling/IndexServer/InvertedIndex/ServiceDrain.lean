import IndexServer.InvertedIndex.Service

/-!
# The queue is drained

The inner loop of `serviceLoop` while no other thread pushes. A round drops one exception and adds
at most one, the one that the exception handled escalates to. The back of the queue, which is
handled, then comes later in the order in which the exceptions escalate, or else the queue is
shorter. The queue stays shorter than the `2 ^ 31` entries that `exceptionQueueSize` can count.
-/

namespace IndexServer

namespace Exception

/-- How many handlers can follow one another when one is run for this exception. -/
def escalations : Exception → ℕ
  | .fullTable => 3
  | .fullDict | .maxTable => 2
  | .ok | .maxDict | .maxMemory => 1

theorem escalations_pos (e : Exception) : 0 < e.escalations := by
  cases e <;> decide

theorem escalations_le (e : Exception) : e.escalations ≤ 3 := by
  cases e <;> decide

theorem escalations_lt {e e' : Exception} (h : e.raises = some e') :
    e'.escalations < e.escalations := by
  cases e <;> cases h <;> decide

/-- The rounds that are left at most: three for every exception that waits before the back, and for
the back as many as it escalates. -/
def rounds (queue : List Exception) : ℕ :=
  match queue.getLast? with
  | some e => 3 * (queue.length - 1) + e.escalations
  | none => 0

variable {queue : List Exception} {e e' : Exception}

theorem rounds_of_back (h : queue.getLast? = some e) :
    rounds queue = 3 * (queue.length - 1) + e.escalations := by
  rw [rounds, h]

theorem rounds_le (queue : List Exception) : rounds queue ≤ 3 * queue.length := by
  cases hback : queue.getLast? with
  | none =>
      rw [rounds, hback]
      exact Nat.zero_le _
  | some e =>
      have hpos : 0 < queue.length := List.length_pos_of_mem (List.mem_of_getLast? hback)
      have hle := e.escalations_le
      rw [rounds_of_back hback]
      omega

theorem rounds_tail (h : queue.getLast? = some e) : rounds queue.tail < rounds queue := by
  have hpos := e.escalations_pos
  cases queue with
  | nil => cases h
  | cons first rest =>
      cases rest with
      | nil =>
          rw [rounds_of_back h]
          change 0 < _
          omega
      | cons second rest =>
          have hrest : (second :: rest).getLast? = some e := by
            rw [← h, List.getLast?_cons_cons]
          rw [rounds_of_back h, List.tail_cons, rounds_of_back hrest]
          simp only [List.length_cons]
          omega

theorem rounds_raise (h : queue.getLast? = some e) (hraises : e.raises = some e') :
    rounds (queue ++ [e']).tail < rounds queue := by
  have hlt := escalations_lt hraises
  cases queue with
  | nil => cases h
  | cons first rest =>
      have hback : (rest ++ [e']).getLast? = some e' := List.getLast?_concat
      rw [rounds_of_back h, List.cons_append, List.tail_cons, rounds_of_back hback]
      simp only [List.length_append, List.length_cons, List.length_nil]
      omega

end Exception

def Servant.inDrain : Servant → Bool
  | .entering | .draining _ | .reading | .selected _ | .handling _ | .popping => true
  | _ => false

namespace ServiceLoop

open Exception

/-- A step of the thread that runs the loop. -/
def Command.ofLoop : Command → Bool
  | .work | .read _ | .call _ | .raise _ | .pop => true
  | .push _ | .finish => false

/-- The steps until the inner loop is left, when no other thread pushes. -/
def drain (s : ServiceLoop) : Command → Option ServiceLoop
  | .push _ => none
  | c => if s.servant.inDrain then s.step c else none

inductive Drained (s : ServiceLoop) : Command → ServiceLoop → Prop
  | finish (hin : s.servant.inDrain) : Drained s .finish { s with serviceFinish := true }
  | enter (hservant : s.servant = .entering) :
      Drained s .work { s with servant := .draining s.exceptionQueue.length }
  | leave (hservant : s.servant = .draining 0) : Drained s .work { s with servant := .starting }
  | go {size : ℕ} (hservant : s.servant = .draining (size + 1)) :
      Drained s .work { s with servant := .reading }
  | read {e : Exception} (hservant : s.servant = .reading)
      (hback : s.exceptionQueue.getLast? = some e) :
      Drained s (.read e) { s with servant := .selected e }
  | call {e : Exception} (hservant : s.servant = .selected e) :
      Drained s (.call e) { s with servant := .handling e }
  | quiet {e : Exception} (hservant : s.servant = .handling e) :
      Drained s .work { s with servant := .popping }
  | raise {e e' : Exception} (hservant : s.servant = .handling e) (hraises : e.raises = some e') :
      Drained s (.raise e')
        { s with exceptionQueue := s.exceptionQueue ++ [e'], servant := .popping }
  | pop (hservant : s.servant = .popping) :
      Drained s .pop { s with
        exceptionQueue := s.exceptionQueue.tail
        servant := .draining s.exceptionQueue.tail.length }

variable {s t : ServiceLoop} {c : Command}

theorem drained_of_drain (h : s.drain c = some t) : Drained s c t := by
  obtain ⟨queue, finish, servant⟩ := s
  cases c with
  | push e => cases h
  | finish =>
      simp only [drain] at h
      split at h
      · cases h
        exact .finish (by assumption)
      · cases h
  | work =>
      cases servant with
      | entering =>
          cases h
          exact .enter rfl
      | draining exceptionQueueSize =>
          cases exceptionQueueSize with
          | zero =>
              cases h
              exact .leave rfl
          | succ size =>
              cases h
              exact .go rfl
      | handling e =>
          cases h
          exact .quiet rfl
      | _ => cases h
  | read e =>
      simp only [drain, step] at h
      split at h
      · split at h
        · obtain ⟨hservant, hback⟩ := ‹servant = .reading ∧ _›
          cases h
          exact .read hservant hback
        · cases h
      · cases h
  | call e =>
      simp only [drain, step] at h
      split at h
      · split at h
        · cases h
          exact .call (by assumption)
        · cases h
      · cases h
  | raise e' =>
      cases servant with
      | handling e =>
          simp only [drain, step] at h
          split at h
          · split at h
            · cases h
              exact .raise rfl (by assumption)
            · cases h
          · cases h
      | _ => cases h
  | pop =>
      simp only [drain, step] at h
      split at h
      · split at h
        · cases h
          exact .pop (by assumption)
        · cases h
      · cases h

def Knows (s : ServiceLoop) : Prop :=
  match s.servant with
  | .entering => True
  | .draining exceptionQueueSize => exceptionQueueSize = s.exceptionQueue.length
  | .reading | .popping => s.exceptionQueue ≠ []
  | .selected e | .handling e => s.exceptionQueue.getLast? = some e
  | .starting => s.exceptionQueue = []
  | _ => False

def remaining (s : ServiceLoop) : ℕ :=
  match s.servant with
  | .entering => 5 * rounds s.exceptionQueue + 2
  | .draining _ => 5 * rounds s.exceptionQueue + 1
  | .reading => 5 * rounds s.exceptionQueue
  | .selected _ => 5 * rounds s.exceptionQueue - 1
  | .handling _ => 5 * rounds s.exceptionQueue - 2
  | .popping => 5 * rounds s.exceptionQueue.tail + 2
  | _ => 0

def Command.cost (c : Command) : ℕ := if c.ofLoop then 1 else 0

theorem sum_cost (cs : List Command) :
    (cs.map Command.cost).sum = (cs.filter Command.ofLoop).length := by
  induction cs with
  | nil => rfl
  | cons c cs ih =>
      rw [List.map_cons, List.sum_cons, ih, Command.cost, List.filter_cons]
      split
      · exact Nat.add_comm _ _
      · exact Nat.zero_add _

theorem Drained.knows (h : Drained s c t) (hs : s.Knows) :
    t.Knows ∧ t.remaining + c.cost ≤ s.remaining := by
  obtain ⟨queue, finish, servant⟩ := s
  cases h with
  | finish hin => exact ⟨hs, le_refl _⟩
  | enter hservant =>
      subst hservant
      exact ⟨rfl, le_refl _⟩
  | leave hservant =>
      subst hservant
      exact ⟨List.length_eq_zero_iff.mp hs.symm, Nat.le_add_left _ _⟩
  | @go size hservant =>
      subst hservant
      have hlength : size + 1 = queue.length := hs
      have hpos : 0 < queue.length := hlength ▸ Nat.succ_pos size
      exact ⟨List.length_pos_iff.mp hpos, le_refl _⟩
  | read hservant hback =>
      subst hservant
      have hpos : 0 < rounds queue := Nat.zero_lt_of_lt (rounds_tail hback)
      refine ⟨hback, ?_⟩
      change 5 * rounds queue - 1 + 1 ≤ 5 * rounds queue
      omega
  | @call e hservant =>
      subst hservant
      have hback : queue.getLast? = some e := hs
      have hpos : 0 < rounds queue := Nat.zero_lt_of_lt (rounds_tail hback)
      refine ⟨hback, ?_⟩
      change 5 * rounds queue - 2 + 1 ≤ 5 * rounds queue - 1
      omega
  | @quiet e hservant =>
      subst hservant
      have hback : queue.getLast? = some e := hs
      have hlt := rounds_tail hback
      refine ⟨List.ne_nil_of_mem (List.mem_of_getLast? hback), ?_⟩
      change 5 * rounds queue.tail + 2 + 1 ≤ 5 * rounds queue - 2
      omega
  | @raise e e' hservant hraises =>
      subst hservant
      have hback : queue.getLast? = some e := hs
      have hlt := rounds_raise hback hraises
      refine ⟨List.append_ne_nil_of_right_ne_nil _ (List.cons_ne_nil _ _), ?_⟩
      change 5 * rounds (queue ++ [e']).tail + 2 + 1 ≤ 5 * rounds queue - 2
      omega
  | pop hservant =>
      subst hservant
      exact ⟨rfl, le_refl _⟩

/-- Inside the loop there is a next step, whatever the handlers do. -/
theorem Knows.goes_on (h : s.Knows) (hin : s.servant.inDrain) :
    ∃ c, c.ofLoop ∧ (s.drain c).isSome := by
  obtain ⟨queue, finish, servant⟩ := s
  cases servant with
  | entering => exact ⟨.work, rfl, rfl⟩
  | draining exceptionQueueSize => exact ⟨.work, rfl, rfl⟩
  | reading =>
      obtain ⟨e, hback⟩ := Option.ne_none_iff_exists'.mp (mt List.getLast?_eq_none_iff.mp h)
      refine ⟨.read e, rfl, ?_⟩
      simp [drain, step, Servant.inDrain, hback]
  | selected e =>
      refine ⟨.call e, rfl, ?_⟩
      simp [drain, step, Servant.inDrain]
  | handling e => exact ⟨.work, rfl, rfl⟩
  | popping =>
      refine ⟨.pop, rfl, ?_⟩
      simp [drain, step, Servant.inDrain]
  | _ => cases hin

theorem Knows.inDrain_or_drained (h : s.Knows) :
    s.servant.inDrain ∨ s.servant = .starting ∧ s.exceptionQueue = [] := by
  obtain ⟨queue, finish, servant⟩ := s
  cases servant with
  | starting => exact .inr ⟨rfl, h⟩
  | sizing | deciding _ | waiting | finished => exact h.elim
  | _ => exact .inl rfl

/-- The table cannot grow, and what it saves exceeds the folder: the bound is reached. -/
def escalation : List Command :=
  [.work, .work, .read .fullTable, .call .fullTable, .raise .maxTable, .pop,
    .work, .read .maxTable, .call .maxTable, .raise .maxMemory, .pop,
    .work, .read .maxMemory, .call .maxMemory, .work, .pop, .work]

end ServiceLoop

end IndexServer
