import IndexServer.InvertedIndex.Service

/-!
# The order in which exceptions are handled

The loop reads the back of `exceptionQueue`, runs a handler and pops the front. Whenever the queue
is empty, the handlers have been run for the exceptions pushed, each one once and in their order,
exactly if every reading has met a queue whose back is its front.
-/

namespace IndexServer

open ServiceQueue

namespace Servant

/-- One if an exception has been read and its removal is still to come. -/
def pending : Servant → ℕ
  | .selected _ | .handling _ | .popping => 1
  | _ => 0

def awaited : Servant → Option Exception
  | .selected e => some e
  | _ => none

def Finds : Servant → Prop
  | .draining exceptionQueueSize => 0 < exceptionQueueSize
  | .reading | .selected _ | .handling _ | .popping => True
  | _ => False

end Servant

namespace ServiceLoop

/-- A reading meets a queue whose back, which is handled, is its front, which is popped. -/
def ReadsFront (s : ServiceLoop) : Command → Prop
  | .read _ => s.exceptionQueue.getLast? = s.exceptionQueue.head?
  | _ => True

structure Accounted (cs : List Command) (s : ServiceLoop) : Prop where
  finds : s.servant.Finds → s.exceptionQueue ≠ []
  account : Account s.exceptionQueue (pushed cs) (chosen cs) s.servant.pending
  called : chosen cs = handled cs ++ s.servant.awaited.toList
  inOrder_iff : InOrder (pushed cs) (chosen cs) ↔ Machine.Meets step ReadsFront start cs

theorem start_accounted : Accounted [] start where
  finds h := h.elim
  account := account_nil
  called := rfl
  inOrder_iff := iff_of_true inOrder_nil trivial

theorem pushed_snoc (cs : List Command) (c : Command) :
    pushed (cs ++ [c]) = pushed cs ++ c.pushed.toList := by
  rw [pushed, List.filterMap_append]
  cases hc : c.pushed <;> simp [pushed, hc]

theorem chosen_snoc (cs : List Command) (c : Command) :
    chosen (cs ++ [c]) = chosen cs ++ c.chosen.toList := by
  rw [chosen, List.filterMap_append]
  cases hc : c.chosen <;> simp [chosen, hc]

theorem handled_snoc (cs : List Command) (c : Command) :
    handled (cs ++ [c]) = handled cs ++ c.called.toList := by
  rw [handled, List.filterMap_append]
  cases hc : c.called <;> simp [handled, hc]

/-- The steps of `work` neither touch the queue nor begin or end the handling of an exception. -/
theorem work_effect {s t : ServiceLoop} (h : s.work = some t) :
    t.exceptionQueue = s.exceptionQueue ∧ t.servant.pending = s.servant.pending ∧
      s.servant.awaited = none ∧ t.servant.awaited = none ∧
      (t.servant.Finds → s.servant.Finds ∨ s.exceptionQueue ≠ []) := by
  obtain ⟨queue, finish, servant⟩ := s
  cases servant with
  | starting =>
      cases h
      dsimp only
      split <;> exact ⟨rfl, rfl, rfl, rfl, fun hfinds => hfinds.elim⟩
  | sizing =>
      cases h
      exact ⟨rfl, rfl, rfl, rfl, fun hfinds => hfinds.elim⟩
  | deciding size =>
      cases h
      dsimp only
      split <;> exact ⟨rfl, rfl, rfl, rfl, fun hfinds => hfinds.elim⟩
  | waiting =>
      cases h
      exact ⟨rfl, rfl, rfl, rfl, fun hfinds => hfinds.elim⟩
  | entering =>
      cases h
      exact ⟨rfl, rfl, rfl, rfl, fun hfinds => .inr (List.length_pos_iff.mp hfinds)⟩
  | draining exceptionQueueSize =>
      cases h
      dsimp only
      split
      · exact ⟨rfl, rfl, rfl, rfl, fun _ => .inl (by assumption)⟩
      · exact ⟨rfl, rfl, rfl, rfl, fun hfinds => hfinds.elim⟩
  | handling e =>
      cases h
      exact ⟨rfl, rfl, rfl, rfl, fun _ => .inl trivial⟩
  | reading => cases h
  | selected e => cases h
  | popping => cases h
  | finished => cases h

namespace Accounted

variable {cs : List Command} {s t : ServiceLoop} {c : Command}

theorem pending_le (h : Accounted cs s) : s.servant.pending ≤ s.exceptionQueue.length := by
  have hpos : s.servant.Finds → 0 < s.exceptionQueue.length :=
    fun hfinds => List.length_pos_iff.mpr (h.finds hfinds)
  cases hservant : s.servant with
  | selected e => exact hpos (hservant ▸ trivial)
  | handling e => exact hpos (hservant ▸ trivial)
  | popping => exact hpos (hservant ▸ trivial)
  | _ => exact Nat.zero_le _

theorem keep (h : Accounted cs s) (hrun : Machine.run step start cs = some s)
    (hqueue : t.exceptionQueue = s.exceptionQueue ++ c.pushed.toList) (hchosen : c.chosen = none)
    (hpending : t.servant.pending = s.servant.pending)
    (hcalled : s.servant.awaited.toList = c.called.toList ++ t.servant.awaited.toList)
    (hfinds : t.servant.Finds → t.exceptionQueue ≠ []) : Accounted (cs ++ [c]) t := by
  have hfront : ReadsFront s c := by
    cases c with
    | read e => cases hchosen
    | _ => exact trivial
  have hsame : chosen (cs ++ [c]) = chosen cs := by
    rw [chosen_snoc, hchosen]
    exact List.append_nil _
  refine ⟨hfinds, ?_, ?_, ?_⟩
  · rw [hsame, pushed_snoc, hqueue, hpending]
    exact h.account.pushes c.pushed.toList
  · rw [hsame, handled_snoc, h.called, hcalled, List.append_assoc]
  · rw [hsame, pushed_snoc, h.account.inOrder_pushes_iff h.pending_le, h.inOrder_iff,
      Machine.meets_snoc hrun]
    exact (and_iff_left hfront).symm

theorem step (h : Accounted cs s) (hrun : Machine.run step start cs = some s)
    (hstep : s.step c = some t) : Accounted (cs ++ [c]) t := by
  cases c with
  | push e =>
      rw [ServiceLoop.step] at hstep
      split at hstep
      · cases hstep
        exact h.keep hrun rfl rfl rfl rfl fun _ => by simp
      · cases hstep
  | finish =>
      cases hstep
      exact h.keep hrun (List.append_nil _).symm rfl rfl rfl h.finds
  | work =>
      obtain ⟨hqueue, hpending, hawaited, hawaited', hfinds⟩ := work_effect hstep
      refine h.keep hrun ?_ rfl hpending ?_ fun hfound => ?_
      · rw [hqueue]
        exact (List.append_nil _).symm
      · rw [hawaited, hawaited']
        rfl
      · rw [hqueue]
        exact (hfinds hfound).elim h.finds id
  | read e =>
      rw [ServiceLoop.step] at hstep
      split at hstep
      · obtain ⟨hservant, hback⟩ := ‹s.servant = .reading ∧ _›
        cases hstep
        have hpending : s.servant.pending = 0 := hservant ▸ rfl
        have hawaited : s.servant.awaited = none := hservant ▸ rfl
        have haccount := h.account
        rw [hpending] at haccount
        have hchosen : chosen (cs ++ [.read e]) = chosen cs ++ [e] := chosen_snoc cs _
        have hpushed : pushed (cs ++ [.read e]) = pushed cs :=
          (pushed_snoc cs _).trans (List.append_nil _)
        have hfront : ReadsFront s (.read e) ↔ s.exceptionQueue.head? = some e := by
          rw [ReadsFront, hback]
          exact eq_comm
        refine ⟨fun _ => h.finds (hservant ▸ trivial), ?_, ?_, ?_⟩
        · rw [hchosen, hpushed]
          exact haccount.read e
        · rw [hchosen, handled_snoc, h.called, hawaited]
          simp [Command.called, Servant.awaited]
        · rw [hchosen, hpushed, haccount.inOrder_read_iff, h.inOrder_iff,
            Machine.meets_snoc hrun, hfront]
      · cases hstep
  | call e =>
      rw [ServiceLoop.step] at hstep
      split at hstep
      · have hservant : s.servant = .selected e := by assumption
        cases hstep
        refine h.keep hrun (List.append_nil _).symm rfl (hservant ▸ rfl) ?_ fun _ => ?_
        · rw [hservant]
          rfl
        · exact h.finds (hservant ▸ trivial)
      · cases hstep
  | raise e' =>
      rw [ServiceLoop.step] at hstep
      cases hservant : s.servant with
      | handling e =>
          simp only [hservant] at hstep
          split at hstep
          · cases hstep
            exact h.keep hrun rfl rfl (hservant ▸ rfl) (hservant ▸ rfl) fun _ => by simp
          · cases hstep
      | _ => simp only [hservant, reduceCtorEq] at hstep
  | pop =>
      rw [ServiceLoop.step] at hstep
      split at hstep
      · have hservant : s.servant = .popping := by assumption
        cases hstep
        have hpending : s.servant.pending = 1 := hservant ▸ rfl
        have hawaited : s.servant.awaited = none := hservant ▸ rfl
        obtain ⟨e, rest, hqueue⟩ := List.exists_cons_of_ne_nil (h.finds (hservant ▸ trivial))
        have haccount := h.account
        rw [hpending, hqueue] at haccount
        have hchosen : chosen (cs ++ [.pop]) = chosen cs :=
          (chosen_snoc cs _).trans (List.append_nil _)
        have hpushed : pushed (cs ++ [.pop]) = pushed cs :=
          (pushed_snoc cs _).trans (List.append_nil _)
        refine ⟨fun hfinds => List.length_pos_iff.mp hfinds, ?_, ?_, ?_⟩
        · rw [hchosen, hpushed]
          dsimp only
          rw [hqueue]
          exact haccount.drop
        · rw [hchosen, handled_snoc, h.called, hawaited]
          simp [Command.called, Servant.awaited]
        · rw [hchosen, hpushed, h.inOrder_iff, Machine.meets_snoc hrun]
          exact (and_iff_left trivial).symm
      · cases hstep

end Accounted

theorem run_accounted {s : ServiceLoop} {cs : List Command}
    (hrun : Machine.run step start cs = some s) : Accounted cs s :=
  Machine.run_history Accounted start_accounted
    (fun _ _ _ _ hrun h hstep => h.step hrun hstep) hrun

theorem run_handled_iff {s : ServiceLoop} {cs : List Command}
    (hrun : Machine.run step start cs = some s) (hempty : s.exceptionQueue = []) :
    handled cs = pushed cs ↔ Machine.Meets step ReadsFront start cs := by
  have h := run_accounted hrun
  have hfinds : ¬ s.servant.Finds := fun hfinds => h.finds hfinds hempty
  have hpending : s.servant.pending = 0 := by
    cases hservant : s.servant with
    | selected e => exact absurd (hservant ▸ trivial) hfinds
    | handling e => exact absurd (hservant ▸ trivial) hfinds
    | popping => exact absurd (hservant ▸ trivial) hfinds
    | _ => rfl
  have hawaited : s.servant.awaited = none := by
    cases hservant : s.servant with
    | selected e => exact absurd (hservant ▸ trivial) hfinds
    | _ => rfl
  have haccount := h.account
  rw [hpending] at haccount
  have hcalled := h.called
  rw [hawaited, Option.toList_none, List.append_nil] at hcalled
  rw [← h.inOrder_iff, haccount.inOrder_iff, hempty, List.append_nil, hcalled]

/-- Two callers push before the loop reads: the first exception is never handled, and the second one
twice. -/
def twoExceptions : List Command :=
  [.push .fullTable, .push .fullDict, .work, .work, .work, .work, .work,
    .read .fullDict, .call .fullDict, .work, .pop, .work,
    .read .fullDict, .call .fullDict, .work, .pop]

theorem twoExceptions_handled_iff : handled twoExceptions = pushed twoExceptions ↔
    Machine.Meets step ReadsFront start twoExceptions :=
  run_handled_iff (s := ⟨[], false, .draining 0⟩) (by decide) rfl

theorem twoExceptions_lost : ¬ ∀ (cs : List Command) (s : ServiceLoop),
    Machine.run step start cs = some s → s.exceptionQueue = [] → handled cs = pushed cs := by
  intro h
  exact absurd (h twoExceptions ⟨[], false, .draining 0⟩ (by decide) rfl) (by decide)

end ServiceLoop

end IndexServer
