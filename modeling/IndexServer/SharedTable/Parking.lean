import IndexServer.Lib.Machine
import IndexServer.Lib.Tally

/-!
# Parking in `checkIncreaseProcess`

While a growth holds `increaseInProcessMutex` and `increaseInProcess` is set, a thread that comes to
`checkIncreaseProcess` counts itself in `currentStopedThreadCount`, waits for the mutex and counts
itself out. Each load, store and mutex operation is one step, of a thread in `checkIncreaseProcess`
or in the part of `increaseTable` between the lock of the mutex and its unlock. The counter is
loaded and stored in separate steps, so two threads may count from one value.
-/

namespace IndexServer

/-- Where a thread stands in `checkIncreaseProcess`, or in `increaseTable` at
`increaseInProcessMutex`. -/
inductive Stop where
  | outside
  | testing
  | entering
  | raising (n : UInt32)
  | locking
  | unlocking
  | leaving
  | lowering (n : UInt32)
  | closing
  | announcing
  | counting
  | comparing (n : UInt32)
  | replacing
  | reopening
  | releasing
  deriving DecidableEq, Repr

namespace Stop

/-- The thread has counted itself in and not out. -/
def parked : Stop → Bool
  | .locking | .unlocking | .leaving | .lowering _ => true
  | _ => false

/-- What a thread that is about to store the counter has loaded. -/
def loaded : Stop → Option UInt32
  | .raising n | .lowering n => some n
  | _ => none

end Stop

/-- The members of `HashTable` that the handshake uses, and the threads. -/
structure Parking (ι : Type) where
  increaseInProcess : Bool
  currentStopedThreadCount : UInt32
  busyThreadCount : Int
  increaseInProcessMutex : Option ι
  thread : ι → Stop

namespace Parking

variable {ι : Type}

def new (busyThreadCount : Int) : Parking ι where
  increaseInProcess := false
  currentStopedThreadCount := 0
  busyThreadCount
  increaseInProcessMutex := none
  thread _ := .outside

inductive Command (ι : Type) where
  /-- The thread calls `checkIncreaseProcess`. -/
  | check (w : ι)
  /-- The thread comes to the mutex in `increaseTable`. -/
  | grow (w : ι)
  /-- The next load, store or mutex operation of the thread. -/
  | work (w : ι)
  | setBusyThreadCount (busyThreadCount : Int)

section steps

variable [DecidableEq ι]

def set (s : Parking ι) (w : ι) (p : Stop) : Parking ι :=
  { s with thread := Function.update s.thread w p }

@[simp] theorem set_thread_self (s : Parking ι) (w : ι) (p : Stop) : (s.set w p).thread w = p :=
  Function.update_self ..

theorem set_thread_ne (s : Parking ι) {v w : ι} (hvw : v ≠ w) (p : Stop) :
    (s.set w p).thread v = s.thread v := Function.update_of_ne hvw ..

def work (s : Parking ι) (w : ι) : Option (Parking ι) :=
  match s.thread w with
  | .outside => none
  | .testing => some (s.set w (if s.increaseInProcess then .entering else .outside))
  | .entering => some (s.set w (.raising s.currentStopedThreadCount))
  | .raising n => some { s.set w .locking with currentStopedThreadCount := n + 1 }
  | .locking =>
      if s.increaseInProcessMutex = none then
        some { s.set w .unlocking with increaseInProcessMutex := some w }
      else none
  | .unlocking => some { s.set w .leaving with increaseInProcessMutex := none }
  | .leaving => some (s.set w (.lowering s.currentStopedThreadCount))
  | .lowering n => some { s.set w .outside with currentStopedThreadCount := n - 1 }
  | .closing =>
      if s.increaseInProcessMutex = none then
        some { s.set w .announcing with increaseInProcessMutex := some w }
      else none
  | .announcing => some { s.set w .counting with increaseInProcess := true }
  | .counting => some (s.set w (.comparing s.currentStopedThreadCount))
  -- the counter is unsigned, and `busyThreadCount` is converted for the comparison
  | .comparing n =>
      some (s.set w (if n < UInt32.ofInt s.busyThreadCount then .counting else .replacing))
  | .replacing => some (s.set w .reopening)
  | .reopening => some { s.set w .releasing with increaseInProcess := false }
  | .releasing => some { s.set w .outside with increaseInProcessMutex := none }

def step (s : Parking ι) : Command ι → Option (Parking ι)
  | .check w => if s.thread w = .outside then some (s.set w .testing) else none
  | .grow w => if s.thread w = .outside then some (s.set w .closing) else none
  | .work w => s.work w
  | .setBusyThreadCount busyThreadCount => some { s with busyThreadCount }

/-- The step of a thread: it counts itself in, or out, or leaves the counter alone. -/
inductive WorkResult (s : Parking ι) (w : ι) (t : Parking ι) : Prop
  | counted_in (n : UInt32) (hw : s.thread w = .raising n)
      (hthread : t.thread = Function.update s.thread w .locking)
      (hcount : t.currentStopedThreadCount = n + 1)
  | counted_out (n : UInt32) (hw : s.thread w = .lowering n)
      (hthread : t.thread = Function.update s.thread w .outside)
      (hcount : t.currentStopedThreadCount = n - 1)
  | moved (p : Stop) (hthread : t.thread = Function.update s.thread w p)
      (hcount : t.currentStopedThreadCount = s.currentStopedThreadCount)
      (hparked : p.parked = (s.thread w).parked)
      (hloaded : ∀ n, p = .lowering n → n = s.currentStopedThreadCount)
      (hcompared : ∀ n, p = .comparing n → n = s.currentStopedThreadCount)

theorem work_result {s t : Parking ι} {w : ι} (h : s.work w = some t) : s.WorkResult w t := by
  rw [work] at h
  split at h
  case h_1 => cases h
  case h_2 hw =>
    cases h
    split
    · exact .moved .entering rfl rfl (by rw [hw]; rfl) nofun nofun
    · exact .moved .outside rfl rfl (by rw [hw]; rfl) nofun nofun
  case h_3 hw =>
    cases h
    exact .moved _ rfl rfl (by rw [hw]; rfl) nofun nofun
  case h_4 n hw =>
    cases h
    exact .counted_in n hw rfl rfl
  case h_7 hw =>
    cases h
    refine .moved _ rfl rfl (by rw [hw]; rfl) (fun n hn => ?_) nofun
    exact (Stop.lowering.inj hn).symm
  case h_8 n hw =>
    cases h
    exact .counted_out n hw rfl rfl
  case h_5 hw | h_9 hw =>
    split at h
    · cases h
      exact .moved _ rfl rfl (by rw [hw]; rfl) nofun nofun
    · cases h
  case h_11 hw =>
    cases h
    refine .moved _ rfl rfl (by rw [hw]; rfl) nofun fun n hn => ?_
    exact (Stop.comparing.inj hn).symm
  case h_12 hw =>
    cases h
    split
    · exact .moved .counting rfl rfl (by rw [hw]; rfl) nofun nofun
    · exact .moved .replacing rfl rfl (by rw [hw]; rfl) nofun nofun
  all_goals
    rename_i hw
    cases h
    exact .moved _ rfl rfl (by rw [hw]; rfl) nofun nofun

theorem work_thread {s t : Parking ι} {w : ι} (h : s.work w = some t) :
    ∃ p, t.thread = Function.update s.thread w p := by
  cases work_result h with
  | counted_in _ _ hthread _ => exact ⟨_, hthread⟩
  | counted_out _ _ hthread _ => exact ⟨_, hthread⟩
  | moved p hthread _ _ _ _ => exact ⟨p, hthread⟩

end steps

/-! ### The counter -/

section counter

open Tally

variable [Fintype ι]

/-- The number of threads that have counted themselves in and not out. -/
def parked (s : Parking ι) : ℕ := count Stop.parked s.thread

/-- No thread stands between a load and the following store of the counter. -/
def Quiet (s : Parking ι) : Prop := ∀ w, (s.thread w).loaded = none

/-- In quiet states the counter is the number of parked threads, and no thread is about to lower
zero. -/
structure Exact (s : Parking ι) : Prop where
  counter : s.Quiet → s.currentStopedThreadCount.toNat = s.parked
  unwrapped : ∀ w, s.thread w ≠ .lowering 0

instance (s : Parking ι) : Decidable s.Quiet := Fintype.decidableForallFintype

/-- A thread stores the counter where it stands as the thread has loaded it, and below its largest
value if it counts itself in. -/
def Unraced (s : Parking ι) : Command ι → Prop
  | .work w =>
      (∀ n ∈ (s.thread w).loaded, s.currentStopedThreadCount = n) ∧
        s.thread w ≠ .raising (.ofNat (2 ^ 32 - 1))
  | _ => True

instance (s : Parking ι) : ∀ c, Decidable (s.Unraced c)
  | .work w =>
      have := Option.decidableForallMem
        (p := fun n => s.currentStopedThreadCount = n) (s.thread w).loaded
      inferInstanceAs (Decidable (_ ∧ _))
  | .check _ | .grow _ | .setBusyThreadCount _ => isTrue trivial

/-- What unraced runs keep: the counter is always the number of parked threads. -/
structure Counted (s : Parking ι) : Prop where
  counter : s.currentStopedThreadCount.toNat = s.parked
  unwrapped : ∀ w, s.thread w ≠ .lowering 0

theorem Counted.exact {s : Parking ι} (hs : s.Counted) : s.Exact where
  counter _ := hs.counter
  unwrapped := hs.unwrapped

theorem new_counted (busyThreadCount : Int) : (new busyThreadCount : Parking ι).Counted where
  counter := (tally_eq_zero.mpr fun _ => rfl).symm
  unwrapped _ := nofun

theorem Counted.pos_of_parked {s : Parking ι} {w : ι} (hs : s.Counted)
    (hw : (s.thread w).parked = true) :
    0 < s.currentStopedThreadCount.toNat := by
  have hle : (s.thread w).parked.toNat ≤ s.parked :=
    le_tally (fun p => (Stop.parked p).toNat) s.thread w
  rw [hw] at hle
  rw [hs.counter]
  exact hle

variable [DecidableEq ι] {s t : Parking ι} {w : ι} {p : Stop}

theorem parked_update (hthread : t.thread = Function.update s.thread w p) :
    t.parked + (s.thread w).parked.toNat = s.parked + p.parked.toNat := by
  rw [parked, hthread]
  exact tally_update _ _ _ _

/-- The thread that moves does not come to lower zero. -/
theorem Counted.unwrapped_update (hs : s.Counted)
    (hthread : t.thread = Function.update s.thread w p) (hp : p ≠ .lowering 0) :
    ∀ v, t.thread v ≠ .lowering 0 := by
  intro v
  rw [hthread]
  by_cases hvw : v = w
  · rw [hvw, Function.update_self]
    exact hp
  · rw [Function.update_of_ne hvw]
    exact hs.unwrapped v

theorem Counted.move (hs : s.Counted) (hthread : t.thread = Function.update s.thread w p)
    (hcount : t.currentStopedThreadCount = s.currentStopedThreadCount)
    (hparked : p.parked = (s.thread w).parked)
    (hloaded : ∀ n, p = .lowering n → n = s.currentStopedThreadCount) : t.Counted where
  counter := by
    have hmoved := parked_update hthread
    rw [hparked] at hmoved
    rw [hcount, hs.counter]
    omega
  unwrapped := by
    apply hs.unwrapped_update hthread
    rintro rfl
    have hpos := hs.pos_of_parked hparked.symm
    rw [← hloaded 0 rfl] at hpos
    exact Nat.lt_irrefl 0 hpos

theorem Counted.work (hs : s.Counted) (hc : s.Unraced (.work w)) (h : s.work w = some t) :
    t.Counted := by
  cases work_result h with
  | counted_in n hw hthread hcount =>
      have hn : s.currentStopedThreadCount = n := hc.1 n (by rw [hw]; rfl)
      have hmoved := parked_update hthread
      rw [hw] at hmoved
      refine ⟨?_, hs.unwrapped_update hthread nofun⟩
      have hroom : n.toNat + 1 < 2 ^ 32 := by
        have hne : n ≠ .ofNat (2 ^ 32 - 1) := by
          rintro rfl
          exact hc.2 hw
        have hlt := n.toNat_lt
        have hmax : n.toNat ≠ 2 ^ 32 - 1 := fun hmax => hne (UInt32.toNat_inj.mp hmax)
        omega
      have hstored : (n + 1).toNat = n.toNat + 1 := by
        rw [UInt32.toNat_add]
        exact Nat.mod_eq_of_lt hroom
      have hbefore := hs.counter
      rw [hn] at hbefore
      rw [hcount, hstored, hbefore]
      simp only [Stop.parked, Bool.toNat_false, Bool.toNat_true] at hmoved
      omega
  | counted_out n hw hthread hcount =>
      have hn : s.currentStopedThreadCount = n := hc.1 n (by rw [hw]; rfl)
      have hmoved := parked_update hthread
      have hpos := hs.pos_of_parked (w := w) (by rw [hw]; rfl)
      rw [hw] at hmoved
      rw [hn] at hpos
      refine ⟨?_, hs.unwrapped_update hthread nofun⟩
      have hstored : (n - 1).toNat = n.toNat - 1 := by
        apply UInt32.toNat_sub_of_le
        exact UInt32.le_iff_toNat_le.mpr hpos
      have hbefore := hs.counter
      rw [hn] at hbefore
      rw [hcount, hstored, hbefore]
      simp only [Stop.parked, Bool.toNat_false, Bool.toNat_true] at hmoved
      omega
  | moved p hthread hcount hparked hloaded _ => exact hs.move hthread hcount hparked hloaded

theorem Counted.step (hs : s.Counted) {c : Command ι} (hc : s.Unraced c) (h : s.step c = some t) :
    t.Counted := by
  cases c with
  | check w =>
      rw [Parking.step] at h
      split at h
      · rename_i hw
        cases h
        exact hs.move rfl rfl (by rw [hw]; rfl) nofun
      · cases h
  | grow w =>
      rw [Parking.step] at h
      split at h
      · rename_i hw
        cases h
        exact hs.move rfl rfl (by rw [hw]; rfl) nofun
      · cases h
  | work w => exact hs.work hc h
  | setBusyThreadCount busyThreadCount =>
      cases h
      exact ⟨hs.counter, hs.unwrapped⟩

/-- If every store of the counter finds what its thread has loaded, the counter is the number of
parked threads. -/
theorem run_exact {busyThreadCount : Int} {cs : List (Command ι)}
    (hcs : Machine.Meets step Unraced (new busyThreadCount) cs)
    (hrun : Machine.run step (new busyThreadCount) cs = some s) : s.Exact :=
  (Machine.run_invariant_of_meets Counted (fun _ _ _ hs hc h => hs.step hc h)
    (new_counted busyThreadCount) hcs hrun).exact

/-- The third thread announces a growth, and the first two come to the counter one after the
other. -/
def inTurn : List (Command (Fin 3)) :=
  [.grow 2, .work 2, .work 2, .check 0, .work 0, .work 0, .work 0, .check 1, .work 1, .work 1,
    .work 1]

theorem inTurn_exact : ∃ s : Parking (Fin 3),
    Machine.run step (new 2) inTurn = some s ∧ s.Exact := by
  have hmeets : Machine.Meets step Unraced (new 2 : Parking (Fin 3)) inTurn := by decide
  exact ⟨_, rfl, run_exact hmeets rfl⟩

/-- Both load the counter before either stores it. -/
def atOnce : List (Command (Fin 3)) :=
  [.grow 2, .work 2, .work 2, .check 0, .check 1, .work 0, .work 1, .work 0, .work 1, .work 0,
    .work 1]

theorem atOnce_not_exact : ¬ ∀ (n : ℕ) (busyThreadCount : Int) (cs : List (Command (Fin n)))
    (s : Parking (Fin n)), Machine.run step (new busyThreadCount) cs = some s → s.Exact := by
  intro h
  have hexact := h 3 2 atOnce _ rfl
  have hcounter := hexact.counter (by decide)
  exact absurd hcounter (by decide)

end counter

end Parking

end IndexServer
