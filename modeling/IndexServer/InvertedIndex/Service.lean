import IndexServer.Lib.Machine
import IndexServer.Lib.ServiceQueue

/-!
# The service loop

`serviceLoop` of `InvertedIndex.cpp` among the callers of `add`, which push exceptions at any time.
One thread at a time runs the loop, and it alone pops. The steps are the sections under
`exceptionQueueMutex`, the readings of `serviceFinish` and the calls of handlers; what a handler
does to the tables is left open, and so is whether it pushes what it may push.
-/

namespace IndexServer

inductive Exception where
  | ok
  | fullTable
  | fullDict
  | maxTable
  | maxDict
  | maxMemory
  deriving DecidableEq, Repr

namespace Exception

/-- What `InvertedIndex::add` pushes. -/
def raisedByAdd : Exception → Bool
  | .fullTable | .fullDict | .maxTable | .maxDict => true
  | _ => false

/-- What the handler of an exception may push: those of `increaseTable`, `increaseDictionary` and
`saveTable`. -/
def raises : Exception → Option Exception
  | .fullTable => some .maxTable
  | .fullDict => some .maxDict
  | .maxTable => some .maxMemory
  | _ => none

end Exception

/-- Where the thread stands in `serviceLoop`. -/
inductive Servant where
  | starting
  | sizing
  | deciding (size : ℕ)
  | waiting
  | entering
  | draining (exceptionQueueSize : ℕ)
  | reading
  | selected (e : Exception)
  | handling (e : Exception)
  | popping
  | finished
  deriving DecidableEq, Repr

structure ServiceLoop where
  exceptionQueue : List Exception
  serviceFinish : Bool
  servant : Servant
  deriving DecidableEq, Repr

namespace ServiceLoop

def start : ServiceLoop where
  exceptionQueue := []
  serviceFinish := false
  servant := .starting

inductive Command where
  /-- A caller of `add` pushes. -/
  | push (e : Exception)
  /-- `shutdownService` stores `FINISH`. -/
  | finish
  /-- The next step of the loop, where it has only one. -/
  | work
  /-- The section that reads `exceptionQueue.back()`. -/
  | read (e : Exception)
  /-- The handler is called. -/
  | call (e : Exception)
  /-- The handler pushes. -/
  | raise (e : Exception)
  | pop
  deriving DecidableEq, Repr

/-- The steps of the loop that leave nothing open. `wait` may wake up at any time. -/
def work (s : ServiceLoop) : Option ServiceLoop :=
  match s.servant with
  | .starting => some { s with servant := if s.serviceFinish then .finished else .sizing }
  | .sizing => some { s with servant := .deciding s.exceptionQueue.length }
  | .deciding size =>
      some { s with servant := if size = 0 ∧ s.serviceFinish = false then .waiting else .entering }
  | .waiting => some { s with servant := .sizing }
  | .entering => some { s with servant := .draining s.exceptionQueue.length }
  | .draining exceptionQueueSize =>
      some { s with servant := if 0 < exceptionQueueSize then .reading else .starting }
  | .handling _ => some { s with servant := .popping }
  | _ => none

def step (s : ServiceLoop) : Command → Option ServiceLoop
  | .push e =>
      if e.raisedByAdd then some { s with exceptionQueue := s.exceptionQueue ++ [e] } else none
  | .finish => some { s with serviceFinish := true }
  | .work => s.work
  | .read e =>
      if s.servant = .reading ∧ s.exceptionQueue.getLast? = some e then
        some { s with servant := .selected e }
      else none
  | .call e =>
      if s.servant = .selected e then some { s with servant := .handling e } else none
  | .raise e' =>
      match s.servant with
      | .handling e =>
          if e.raises = some e' then
            some { s with exceptionQueue := s.exceptionQueue ++ [e'], servant := .popping }
          else none
      | _ => none
  | .pop =>
      if s.servant = .popping then
        some { s with
          exceptionQueue := s.exceptionQueue.tail
          servant := .draining s.exceptionQueue.tail.length }
      else none

/-! ### What a run pushes and handles -/

def Command.pushed : Command → Option Exception
  | .push e => some e
  | .raise e => some e
  | _ => none

def Command.chosen : Command → Option Exception
  | .read e => some e
  | _ => none

def Command.called : Command → Option Exception
  | .call e => some e
  | _ => none

def pushed (cs : List Command) : List Exception := cs.filterMap Command.pushed

/-- The exceptions read from the queue to be handled. -/
def chosen (cs : List Command) : List Exception := cs.filterMap Command.chosen

def handled (cs : List Command) : List Exception := cs.filterMap Command.called

end ServiceLoop

end IndexServer
