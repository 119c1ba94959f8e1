import IndexServer.SharedTable.Handshake

/-!
# The accept loop

The workers of the pool count themselves in `busyThreadCount` around the handler of a task, and the
accept loop copies this number into the table whenever it has accepted a client. Both go on while
the table grows.
-/

namespace IndexServer

/-- A table, the pool whose workers call it, and the accept loop with what
`getBusyThreadCount` has returned to it. -/
structure Server (ι : Type) where
  table : SharedTable ι
  busyThreadCount : Int
  handling : ι → Bool
  fetched : Option Int

namespace Server

variable {ι : Type}

def new (T : HashTable) : Server ι where
  table := .new T
  busyThreadCount := 0
  handling _ := false
  fetched := none

inductive Command (ι : Type) where
  /-- A worker increments `busyThreadCount` and calls the handler. -/
  | handle (w : ι)
  /-- A worker whose handler has returned decrements `busyThreadCount`. -/
  | finish (w : ι)
  | getBusyThreadCount
  | setBusyThreadCount
  /-- A step of the table; `add` and `get` are called by handlers. -/
  | table (c : SharedTable.Command ι)

variable [DecidableEq ι]

/-- The handlers call the table, and only the accept loop sets its `busyThreadCount`. -/
def calls (s : Server ι) : SharedTable.Command ι → Bool
  | .add w _ _ | .get w _ => s.handling w
  | .setBusyThreadCount _ => false
  | .work _ | .increaseTable | .grow => true

def step (s : Server ι) : Command ι → Option (Server ι)
  | .handle w =>
      if s.handling w then none
      else some { s with
        busyThreadCount := s.busyThreadCount + 1
        handling := Function.update s.handling w true }
  | .finish w =>
      if s.handling w ∧ (s.table.caller (some w)).resting then
        some { s with
          busyThreadCount := s.busyThreadCount - 1
          handling := Function.update s.handling w false }
      else none
  | .getBusyThreadCount => some { s with fetched := some s.busyThreadCount }
  | .setBusyThreadCount =>
      match s.fetched with
      | some busyThreadCount =>
          (s.table.step (.setBusyThreadCount busyThreadCount)).map fun table =>
            { s with table, fetched := none }
      | none => none
  | .table c => if s.calls c then (s.table.step c).map fun table => { s with table } else none

section wait

variable [Fintype ι]

def Awaited (s : Server ι) : Command ι → Prop
  | .table c => s.table.Awaited c
  | _ => True

instance (s : Server ι) : ∀ c, Decidable (s.Awaited c)
  | .table c => inferInstanceAs (Decidable (s.table.Awaited c))
  | .handle _ | .finish _ | .getBusyThreadCount | .setBusyThreadCount => isTrue trivial

variable {s t : Server ι}

theorem halted_step (hs : s.table.Halted) {c : Command ι} (hc : s.Awaited c)
    (h : s.step c = some t) : t.table.Halted := by
  cases c with
  | handle w =>
      rw [step] at h
      split at h
      · cases h
      · cases h
        exact hs
  | finish w =>
      rw [step] at h
      split at h
      · cases h
        exact hs
      · cases h
  | getBusyThreadCount =>
      cases h
      exact hs
  | setBusyThreadCount =>
      rw [step] at h
      split at h
      · obtain ⟨table, htable, rfl⟩ := Option.map_eq_some_iff.mp h
        exact hs.step (c := .setBusyThreadCount _) trivial htable
      · cases h
  | table c =>
      rw [step] at h
      split at h
      · obtain ⟨table, htable, rfl⟩ := Option.map_eq_some_iff.mp h
        exact hs.step hc htable
      · cases h

/-- If the wait never ends below the number of calls at work, and none begins behind it, the
vectors are replaced while every call is parked. -/
theorem run_designed {T : HashTable} {cs : List (Command ι)}
    (hcs : Machine.Meets step Awaited (new T) cs)
    (hrun : Machine.run step (new T) cs = some s) : s.table.Designed :=
  (Machine.run_invariant_of_meets (fun s : Server ι => s.table.Halted)
    (fun _ _ _ hs hc h => halted_step hs hc h) (SharedTable.new_halted T) hcs hrun).designed

/-- The growth of a table of two cells up to its load of the counter. -/
def upToWait : List (Command Unit) :=
  .table .increaseTable :: List.replicate 13 (.table .grow)

/-- The accept loop copies the number while the worker handles its task, and the call of the worker
parks before the growth compares. -/
def countedWorker : List (Command Unit) :=
  [.handle (), .getBusyThreadCount, .setBusyThreadCount, .table (.add () [97] [[49]]),
    .table (.work (some ()))] ++ upToWait ++
    List.replicate 3 (.table (.work (some ()))) ++ List.replicate 4 (.table .grow)

theorem countedWorker_designed : ∃ s : Server Unit,
    Machine.run step (new (.new 2)) countedWorker = some s ∧
      s.table.grower.replacing (s.table.parking.thread none) = true ∧ s.table.Designed := by
  have hmeets : Machine.Meets step Awaited (new (.new 2)) countedWorker := by decide
  have hrun : (Machine.run step (new (.new 2)) countedWorker).map
      (fun s => s.table.grower.replacing (s.table.parking.thread none)) = some true := by decide
  obtain ⟨s, hs, hreplacing⟩ := Option.map_eq_some_iff.mp hrun
  exact ⟨s, hs, hreplacing, run_designed hmeets hs⟩

/-- The accept loop has copied the number before the worker counts itself. -/
def uncountedWorker : List (Command Unit) :=
  [.getBusyThreadCount, .setBusyThreadCount, .handle (), .table (.add () [97] [[49]]),
    .table (.work (some ()))] ++ upToWait ++ List.replicate 2 (.table .grow)

theorem uncountedWorker_not_designed : ¬ ∀ (ι : Type) [DecidableEq ι] [Fintype ι] (T : HashTable)
    (cs : List (Command ι)) (s : Server ι),
      Machine.run step (new T) cs = some s → s.table.Designed := by
  intro h
  have hrun : (Machine.run step (new (.new 2)) uncountedWorker).isSome := by decide
  obtain ⟨s, hs⟩ := Option.isSome_iff_exists.mp hrun
  have hstate : (Machine.run step (new (.new 2)) uncountedWorker).map
      (fun s => (s.table.grower.replacing (s.table.parking.thread none),
        (s.table.caller (some ())).working, (s.table.parking.thread (some ())).parked)) =
      some (true, true, false) := by decide
  rw [hs, Option.map_some, Option.some.injEq, Prod.mk.injEq, Prod.mk.injEq] at hstate
  obtain ⟨hreplacing, hworking, hfree⟩ := hstate
  have hparked := h Unit (.new 2) uncountedWorker s hs hreplacing () hworking
  rw [hfree] at hparked
  cases hparked

end wait

end Server

end IndexServer
