import IndexServer.Lib.Machine
import Mathlib.Data.Fintype.Basic
import Mathlib.Algebra.Order.Ring.Int
import Mathlib.Logic.Function.Basic

/-!
# The thread pool

`ThreadPool.h` as a machine whose steps are the sections under a mutex, the atomic accesses and the
notifications. Callers of `addTask` and `shutdown` from outside the pool have no state of their own
between these steps, so they are counted. A worker keeps `lkm` from the moment it enters `wait`
until it blocks there or `removeTask` returns; it evaluates the predicate of `wait` in two steps,
and blocking is a third.
-/

namespace IndexServer

/-- Where a worker stands in `workFunction` and, inside it, in `removeTask`. A variable `task` that
`removeTask` leaves as it was constructed is `none`. -/
inductive Worker (τ : Type) where
  | starting
  | locking
  | sizing
  | checking (size : ℕ)
  | dozing
  | blocked
  | woken
  | taking
  | returning (task : Option τ)
  | received (task : Option τ)
  | handling (task : τ)
  | retrying (task : τ)
  | notifying
  | leaving
  | exited
  deriving DecidableEq, Repr

def Worker.isBlocked {τ : Type} : Worker τ → Bool
  | .blocked => true
  | _ => false

/-- The members of `ThreadPool`, the position of every worker, and how many calls stand between the
steps of `addTask` and of `shutdown`. -/
structure ThreadPool (ω τ : Type) where
  finish : Bool
  tasks : List τ
  lkm : Option ω
  busyThreadCount : Int
  worker : ω → Worker τ
  notifying : ℕ
  closing : ℕ
  broadcasting : ℕ

namespace ThreadPool

variable {ω τ : Type}

/-- The pool when its workers have been started and `finish` is `WORK`. -/
def initThreads : ThreadPool ω τ where
  finish := false
  tasks := []
  lkm := none
  busyThreadCount := 0
  worker _ := .starting
  notifying := 0
  closing := 0
  broadcasting := 0

inductive Command (ω τ : Type) where
  /-- The locked section of `addTask`, called from outside. -/
  | addTask (task : τ)
  /-- `notify_one` of such a call, with the worker it wakes. -/
  | notify (target : Option ω)
  /-- A call of `shutdown` leaves its waiting loop. -/
  | shutdown (evenNonEmptyQueue : Bool)
  /-- A call of `shutdown` stores `FINISH`. -/
  | finish
  | notifyAll
  /-- The next step of a worker, where there is one only. -/
  | work (w : ω)
  /-- The locked section at the end of `removeTask`, with the value of `task` after it. -/
  | take (w : ω) (task : Option τ)
  | handled (w : ω) (result : Int)
  /-- The locked section of `addTask`, called by a worker. -/
  | retry (w : ω) (task : τ)
  | renotify (w : ω) (target : Option ω)
  /-- `wait` wakes up without a notification. -/
  | wake (w : ω)

variable [DecidableEq ω]

def set (s : ThreadPool ω τ) (w : ω) (p : Worker τ) : ThreadPool ω τ :=
  { s with worker := Function.update s.worker w p }

/-- `notify_one` wakes one of the blocked workers, if there is one. -/
def notifyOne [Fintype ω] (s : ThreadPool ω τ) : Option ω → Option (ThreadPool ω τ)
  | some v => if (s.worker v).isBlocked then some (s.set v .woken) else none
  | none => if ∀ v, (s.worker v).isBlocked = false then some s else none

/-- The steps of a worker that leave nothing open. -/
def work (nullIndex : τ → Bool) (s : ThreadPool ω τ) (w : ω) : Option (ThreadPool ω τ) :=
  match s.worker w with
  | .starting => some (s.set w (if s.finish then .exited else .locking))
  | .locking | .woken =>
      if s.lkm.isNone then some { s.set w .sizing with lkm := some w } else none
  | .sizing => some (s.set w (.checking s.tasks.length))
  | .checking size =>
      some (s.set w (if size = 0 ∧ s.finish = false then .dozing else .taking))
  | .dozing => some { s.set w .blocked with lkm := none }
  | .returning task => some { s.set w (.received task) with lkm := none }
  | .received none => some (s.set w .exited)
  | .received (some task) =>
      if nullIndex task then some (s.set w .exited)
      else some { s.set w (.handling task) with busyThreadCount := s.busyThreadCount + 1 }
  | .leaving => some { s.set w .starting with busyThreadCount := s.busyThreadCount - 1 }
  | _ => none

variable [Fintype ω] [DecidableEq τ]

/-- `nullIndex` tells whether the `index` of a task is `NULL`. -/
def step (nullIndex : τ → Bool) (s : ThreadPool ω τ) : Command ω τ → Option (ThreadPool ω τ)
  | .addTask task =>
      some { s with tasks := s.tasks ++ [task], notifying := s.notifying + 1 }
  | .notify target =>
      if 0 < s.notifying then notifyOne { s with notifying := s.notifying - 1 } target else none
  | .shutdown evenNonEmptyQueue =>
      if evenNonEmptyQueue = true ∨ s.tasks = [] then some { s with closing := s.closing + 1 }
      else none
  | .finish =>
      if 0 < s.closing then
        some { s with finish := true, closing := s.closing - 1, broadcasting := s.broadcasting + 1 }
      else none
  | .notifyAll =>
      if 0 < s.broadcasting then
        some { s with
          broadcasting := s.broadcasting - 1
          worker := fun v => if (s.worker v).isBlocked then .woken else s.worker v }
      else none
  | .work w => s.work nullIndex w
  | .take w task =>
      if s.worker w = .taking ∧ task = s.tasks.getLast? then
        some { s.set w (.returning task) with tasks := s.tasks.tail }
      else none
  | .handled w result =>
      match s.worker w with
      | .handling task => some (s.set w (if result = -1 then .retrying task else .leaving))
      | _ => none
  | .retry w task =>
      if s.worker w = .retrying task then
        some { s.set w .notifying with tasks := s.tasks ++ [task] }
      else none
  | .renotify w target =>
      if s.worker w = .notifying then (s.set w .leaving).notifyOne target else none
  | .wake w => if (s.worker w).isBlocked then some (s.set w .woken) else none

/-! ### What a run adds and returns -/

def Command.pushed : Command ω τ → Option τ
  | .addTask task => some task
  | .retry _ task => some task
  | _ => none

/-- What `removeTask` returns after a step that takes it. -/
def Command.taken : Command ω τ → Option (Option τ)
  | .take _ task => some task
  | _ => none

def added (cs : List (Command ω τ)) : List τ := cs.filterMap Command.pushed

/-- What the calls of `removeTask` return, in the order in which they take it. -/
def returned (cs : List (Command ω τ)) : List (Option τ) := cs.filterMap Command.taken

end ThreadPool

end IndexServer
