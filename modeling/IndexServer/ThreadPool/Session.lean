import IndexServer.ThreadPool.Model

/-!
# A session of the server

`Server::loop` and `Server::test` around the pool: the main thread stores `WORK`, starts the workers
one after another, launches `joinAll` on a thread of its own, adds tasks and shuts the pool down.
`joinAll` stores `WORK` as well, whenever its thread gets to it. The steps of the pool are those of
`ThreadPool`; the position of the main thread says which of them it can take.
-/

namespace IndexServer

inductive Main where
  | starting
  | creating (i : ℕ)
  | launching
  | serving
  | notifying
  | closing
  | broadcasting
  | awaiting
  | ending
  | finished
  deriving DecidableEq, Repr

inductive Joiner where
  | absent
  | launched
  | joining (i : ℕ)
  | returned
  deriving DecidableEq, Repr

/-- The pool with `n` workers, and the two threads that look after it. -/
structure Session (n : ℕ) (τ : Type) where
  pool : ThreadPool (Fin n) τ
  main : Main
  joiner : Joiner

def Main.created (n : ℕ) : Main → ℕ
  | .starting => 0
  | .creating i => i
  | _ => n

/-- Where the main thread stands after its step of the pool, if it can take it. -/
def Main.next {ω τ : Type} : Main → ThreadPool.Command ω τ → Option Main
  | .serving, .addTask _ => some .notifying
  | .notifying, .notify _ => some .serving
  | .serving, .shutdown _ => some .closing
  | .closing, .finish => some .broadcasting
  | .broadcasting, .notifyAll => some .awaiting
  | _, _ => none

def ThreadPool.Command.taker {ω τ : Type} : ThreadPool.Command ω τ → Option ω
  | .work w | .take w _ | .handled w _ | .retry w _ | .renotify w _ | .wake w => some w
  | _ => none

namespace Session

variable {n : ℕ} {τ : Type}

def new : Session n τ where
  pool := ThreadPool.initThreads
  main := .starting
  joiner := .absent

inductive Command (n : ℕ) (τ : Type) where
  /-- The next step of the main thread outside the pool. -/
  | main
  /-- A step of the pool, taken by a worker or by the main thread. -/
  | pool (c : ThreadPool.Command (Fin n) τ)
  /-- The next step of `joinAll`. -/
  | join

/-- The steps of the main thread that do not go through the pool. -/
def advance (s : Session n τ) : Option (Session n τ) :=
  match s.main with
  | .starting => some { s with pool := { s.pool with finish := false }, main := .creating 0 }
  | .creating i =>
      some { s with main := if i < n then .creating (i + 1) else .launching }
  | .launching => some { s with main := .serving, joiner := .launched }
  | .awaiting => if s.joiner = .returned then some { s with main := .ending } else none
  | .ending => some { s with pool := { s.pool with finish := true }, main := .finished }
  | _ => none

/-- `joinAll` stores `WORK` and waits for the workers in their order. -/
def joinAll [DecidableEq τ] (s : Session n τ) : Option (Session n τ) :=
  match s.joiner with
  | .launched => some { s with pool := { s.pool with finish := false }, joiner := .joining 0 }
  | .joining i =>
      if h : i < n then
        if s.pool.worker ⟨i, h⟩ = .exited then some { s with joiner := .joining (i + 1) } else none
      else some { s with joiner := .returned }
  | _ => none

def step [DecidableEq τ] (nullIndex : τ → Bool) (s : Session n τ) :
    Command n τ → Option (Session n τ)
  | .main => s.advance
  | .pool c =>
      match c.taker with
      | some w =>
          if w < s.main.created n then
            (s.pool.step nullIndex c).map fun pool => { s with pool }
          else none
      | none =>
          match s.main.next c with
          | some main => (s.pool.step nullIndex c).map fun pool => { s with pool, main }
          | none => none
  | .join => s.joinAll

def Stored (s : Session n τ) : Prop :=
  match s.main with
  | .broadcasting | .awaiting | .ending | .finished => True
  | _ => False

def Returned (s : Session n τ) : Prop := ∀ w, s.pool.worker w = .exited

/-- What `shutdown` has stored stands until every worker has returned. -/
def Kept (s : Session n τ) : Prop := s.Stored → s.pool.finish = true ∨ s.Returned

def Joined (s : Session n τ) : Prop :=
  match s.joiner with
  | .joining _ | .returned => True
  | _ => False

/-- `shutdown` stores `FINISH` when `joinAll` has stored `WORK`, or when every worker has
returned. -/
def Ordered (s : Session n τ) : Command n τ → Prop
  | .pool .finish => s.Joined ∨ s.Returned
  | _ => True

end Session

end IndexServer
