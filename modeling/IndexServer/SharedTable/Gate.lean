import IndexServer.SharedTable.Steps

/-!
# The gate

What the handshake of one `increaseTable` guarantees whatever the counter says: while
`increaseInProcess` is set, the growth holds `increaseInProcessMutex`, and no thread has come
through `checkIncreaseProcess` by way of the mutex before the growth has cleared the flag.
-/

namespace IndexServer

namespace Grower

/-- Where the thread of the growth can stand in `checkIncreaseProcess` and in the handshake. -/
def allows : Grower → Stop → Bool
  | .scanning _ _, p | .readding _, p => p.fresh
  | .gating _, .closing | .gating _, .announcing | .gating _, .counting | .gating _, .comparing _
  | .gating _, .replacing => true
  | .storing _, .replacing | .installing _, .replacing | .resizing _, .replacing => true
  | .opening _, .reopening | .opening _, .releasing | .opening _, .outside => true
  | .idle, .outside | .starting, .outside | .sizing _, .outside | .capping _ _, .outside
  | .copying _ _ _, .outside | .measuring _, .outside | .collecting _ _ _, .outside
  | .returned _, .outside => true
  | _, _ => false

def shut : Grower → Stop → Bool
  | .gating _, .counting | .gating _, .comparing _ | .gating _, .replacing => true
  | .storing _, _ | .installing _, _ | .resizing _, _ | .opening _, .reopening => true
  | _, _ => false

/-- The flag has been cleared, or will not be set. -/
def opened : Grower → Stop → Bool
  | .opening _, .reopening => false
  | .opening _, _ | .readding _, _ | .returned _, _ => true
  | _, _ => false

variable {g : Grower}

theorem eq_outside_of_plain (hg : g.plain = true) {p : Stop} (hp : g.allows p = true) :
    p = .outside := by
  cases g with
  | idle | starting | sizing | capping | copying | measuring | collecting =>
      cases p with
      | outside => rfl
      | _ => cases hp
  | _ => cases hg

/-- Where the flag is set whatever the thread stands at, it is behind the wait. -/
theorem eq_replacing_of_shut (hg : g.shut .outside = true) {p : Stop} (hp : g.allows p = true) :
    p = .replacing := by
  cases g with
  | storing | installing | resizing =>
      cases p with
      | replacing => rfl
      | _ => cases hp
  | _ => cases hg

theorem shut_of_plain (hg : g.plain = true) (p : Stop) : g.shut p = false := by
  cases g <;> first | rfl | cases hg

theorem opened_of_plain (hg : g.plain = true) (p : Stop) : g.opened p = false := by
  cases g <;> first | rfl | cases hg

end Grower

namespace SharedTable

variable {ι : Type}

def shut (s : SharedTable ι) : Bool := s.grower.shut (s.parking.thread none)

def opened (s : SharedTable ι) : Bool := s.grower.opened (s.parking.thread none)

structure Gate (s : SharedTable ι) : Prop where
  allows : s.grower.allows (s.parking.thread none) = true
  flag : s.parking.increaseInProcess = s.shut
  mutex : s.shut = true ∨ s.parking.thread none = .announcing →
    s.parking.increaseInProcessMutex = some none
  checking : ∀ c, (s.parking.thread (some c)).checking = true
  waits : s.opened = false → ∀ c, (s.parking.thread (some c)).waits = true
  fresh : s.shut = false → s.opened = false → ∀ c, (s.parking.thread (some c)).fresh = true
  linked : ∀ c, s.parking.thread (some c) ≠ .outside → (s.caller (some c)).checks = true
  adder : (s.caller none).resting = false → ∃ rest, s.grower = .readding rest
  added : ∀ rest, s.grower = .readding rest → s.parking.thread none ≠ .outside →
    (s.caller none).checks = true

theorem new_gate (T : HashTable) : (new T : SharedTable ι).Gate where
  allows := rfl
  flag := rfl
  mutex h := by
    rcases h with h | h
    · cases h
    · cases h
  checking _ := rfl
  waits _ _ := rfl
  fresh _ _ _ := rfl
  linked _ h := absurd rfl h
  adder h := by cases h
  added _ h := by cases h

variable {s t : SharedTable ι}

theorem Caller.not_resting_of_checks {p : Caller} (h : p.checks = true) : p.resting = false := by
  cases p with
  | locating => rfl
  | _ => cases h

theorem Caller.not_resting_of_move {T : HashTable} {p : Caller} {result : HashTable × Caller}
    (h : p.move T = some result) : p.resting = false := by
  cases p with
  | idle | returned | got => cases h
  | _ => rfl

theorem Gate.outside_of_move (hs : s.Gate) {c : Option ι}
    (hcheck : ¬ ((s.caller c).checks = true ∧ s.parking.thread c ≠ .outside))
    {result : HashTable × Caller} (hmove : (s.caller c).move s.table = some result) :
    s.parking.thread c = .outside := by
  by_contra hne
  cases c with
  | some c => exact hcheck ⟨hs.linked c hne, hne⟩
  | none =>
      obtain ⟨rest, hgrower⟩ := hs.adder (Caller.not_resting_of_move hmove)
      exact hcheck ⟨hs.added rest hgrower hne, hne⟩

theorem Gate.replacing (hs : s.Gate) (h : s.grower.shut .outside = true) :
    s.parking.thread none = .replacing := Grower.eq_replacing_of_shut h hs.allows

variable [DecidableEq ι]

/-- The check of a caller, and its call, go on; the thread of the growth and the mutex do not. -/
theorem Gate.update (hs : s.Gate) {c : ι} {p : Stop} (hgrower : t.grower = s.grower)
    (hthread : t.parking.thread = Function.update s.parking.thread (some c) p)
    (hflag : t.parking.increaseInProcess = s.parking.increaseInProcess)
    (hmutex : s.shut = true ∨ s.parking.thread none = .announcing →
      t.parking.increaseInProcessMutex = s.parking.increaseInProcessMutex)
    (hchecking : p.checking = true) (hwaits : s.opened = false → p.waits = true)
    (hfresh : s.shut = false → s.opened = false → p.fresh = true)
    (hcaller : ∀ d, d ≠ some c → t.caller d = s.caller d)
    (hlinked : p ≠ .outside → (t.caller (some c)).checks = true) : t.Gate := by
  have hnone : t.parking.thread none = s.parking.thread none := by
    rw [hthread]
    exact Function.update_of_ne (Option.some_ne_none c).symm ..
  have hshut : t.shut = s.shut := by rw [shut, shut, hgrower, hnone]
  have hopened : t.opened = s.opened := by rw [opened, opened, hgrower, hnone]
  have hothers : ∀ d, d ≠ c → t.parking.thread (some d) = s.parking.thread (some d) := by
    intro d hd
    rw [hthread]
    exact Function.update_of_ne (fun h => hd (Option.some.inj h)) ..
  have hself : t.parking.thread (some c) = p := by
    rw [hthread]
    exact Function.update_self ..
  refine ⟨?_, ?_, ?_, ?_, ?_, ?_, ?_, ?_, ?_⟩
  · rw [hgrower, hnone]
    exact hs.allows
  · rw [hflag, hshut]
    exact hs.flag
  · rw [hshut, hnone]
    intro h
    rw [hmutex h]
    exact hs.mutex h
  · intro d
    by_cases hd : d = c
    · rw [hd, hself]
      exact hchecking
    · rw [hothers d hd]
      exact hs.checking d
  · rw [hopened]
    intro h d
    by_cases hd : d = c
    · rw [hd, hself]
      exact hwaits h
    · rw [hothers d hd]
      exact hs.waits h d
  · rw [hshut, hopened]
    intro h h' d
    by_cases hd : d = c
    · rw [hd, hself]
      exact hfresh h h'
    · rw [hothers d hd]
      exact hs.fresh h h' d
  · intro d hd
    by_cases hdc : d = c
    · rw [hdc] at hd ⊢
      rw [hself] at hd
      exact hlinked hd
    · rw [hothers d hdc] at hd
      rw [hcaller (some d) fun h => hdc (Option.some.inj h)]
      exact hs.linked d hd
  · rw [hcaller none (Option.some_ne_none c).symm, hgrower]
    exact hs.adder
  · rw [hcaller none (Option.some_ne_none c).symm, hgrower, hnone]
    exact hs.added

omit [DecidableEq ι] in
theorem Gate.grower (hs : s.Gate)
    (hthread : ∀ c, t.parking.thread (some c) = s.parking.thread (some c))
    (hallows : t.grower.allows (t.parking.thread none) = true)
    (hflag : t.parking.increaseInProcess = t.shut)
    (hmutex : t.shut = true ∨ t.parking.thread none = .announcing →
      t.parking.increaseInProcessMutex = some none)
    (hwaits : t.opened = false → s.opened = false)
    (hfresh : t.shut = false → t.opened = false → s.shut = false ∧ s.opened = false)
    (hcaller : ∀ c, t.caller (some c) = s.caller (some c))
    (hadder : (t.caller none).resting = false → ∃ rest, t.grower = .readding rest)
    (hadded : ∀ rest, t.grower = .readding rest → t.parking.thread none ≠ .outside →
      (t.caller none).checks = true) : t.Gate where
  allows := hallows
  flag := hflag
  mutex := hmutex
  checking c := by
    rw [hthread]
    exact hs.checking c
  waits h c := by
    rw [hthread]
    exact hs.waits (hwaits h) c
  fresh h h' c := by
    rw [hthread]
    exact hs.fresh (hfresh h h').1 (hfresh h h').2 c
  linked c hc := by
    rw [hthread] at hc
    rw [hcaller]
    exact hs.linked c hc
  adder := hadder
  added := hadded

omit [DecidableEq ι] in
/-- A thread that comes to announce the flag, or has it set, has not opened the gate. -/
theorem Gate.opened_eq_false (hs : s.Gate)
    (h : s.shut = true ∨ s.parking.thread none = .announcing) : s.opened = false := by
  have hallows := hs.allows
  rw [shut] at h
  rw [opened]
  cases hgrower : s.grower with
  | opening job =>
      rw [hgrower] at h hallows
      cases hp : s.parking.thread none with
      | reopening => rfl
      | _ =>
          rw [hp] at h hallows
          simp [Grower.shut, Grower.allows] at h hallows
  | readding rest =>
      rw [hgrower] at h hallows
      rcases h with h | h
      · cases h
      · rw [h] at hallows
        cases hallows
  | returned code =>
      rw [hgrower] at h hallows
      rcases h with h | h
      · cases h
      · rw [h] at hallows
        cases hallows
  | _ => rfl

theorem Gate.set (hs : s.Gate) {c : ι} (houtside : s.parking.thread (some c) = .outside)
    (T : HashTable) (p : Caller) : (s.set (some c) T p).Gate := by
  have hothers : ∀ d, d ≠ some c → (s.set (some c) T p).caller d = s.caller d :=
    fun d hd => set_caller_ne s hd T p
  have hself := set_caller_self s (some c) T p
  cases hp : p.checks with
  | true =>
      have hparking : (s.set (some c) T p).parking = s.parking.set (some c) .testing := if_pos hp
      refine hs.update (p := .testing) rfl (by rw [hparking]; rfl) (by rw [hparking]; rfl)
        (fun _ => by rw [hparking]; rfl) rfl (fun _ => rfl) (fun _ _ => rfl) hothers ?_
      intro _
      rw [hself]
      exact hp
  | false =>
      have hparking : (s.set (some c) T p).parking = s.parking :=
        if_neg (by rw [hp]; exact Bool.false_ne_true)
      have hthread : s.parking.thread = Function.update s.parking.thread (some c) .outside := by
        rw [← houtside, Function.update_eq_self]
      exact hs.update rfl (by rw [hparking]; exact hthread) (by rw [hparking])
        (fun _ => by rw [hparking]) rfl (fun _ => rfl) (fun _ _ => rfl) hothers (absurd rfl)

omit [DecidableEq ι] in
theorem Gate.outside (hs : s.Gate) {c : ι} (h : (s.caller (some c)).checks = false) :
    s.parking.thread (some c) = .outside := by
  by_contra hne
  have hchecks := hs.linked c hne
  rw [h] at hchecks
  cases hchecks

theorem Gate.call (hs : s.Gate) {c : ι} {access : Access} (h : s.call (some c) access = some t) :
    t.Gate := by
  obtain ⟨hresting, rfl⟩ := call_eq_some.mp h
  apply hs.set
  apply hs.outside
  cases hchecks : (s.caller (some c)).checks with
  | false => rfl
  | true =>
      rw [Caller.not_resting_of_checks hchecks] at hresting
      cases hresting

theorem Gate.check (hs : s.Gate) {c : ι} (hchecks : (s.caller (some c)).checks = true)
    {parking : Parking (Option ι)} (h : s.parking.work (some c) = some parking) :
    Gate { s with parking } := by
  cases hopened : s.opened with
  | true =>
      have hopen : ¬ (s.shut = true ∨ s.parking.thread none = .announcing) := by
        intro hshut
        have hclosed := hs.opened_eq_false hshut
        rw [hopened] at hclosed
        cases hclosed
      obtain ⟨p, hp, hthread, hflag⟩ := Parking.work_checking (hs.checking c) h
      refine hs.update rfl hthread hflag (fun hshut => absurd hshut hopen) hp ?_ ?_
        (fun _ _ => rfl) fun _ => hchecks
      · intro hclosed
        rw [hopened] at hclosed
        cases hclosed
      · intro _ hclosed
        rw [hopened] at hclosed
        cases hclosed
  | false =>
      cases hshut : s.shut with
      | true =>
          have hmutex : s.parking.increaseInProcessMutex ≠ none := by
            rw [hs.mutex (.inl hshut)]
            exact Option.some_ne_none none
          obtain ⟨p, hp, _, hthread, hflag, hheld⟩ :=
            Parking.work_waiting hmutex (hs.waits hopened c) h
          have hchecking : p.checking = true := by
            cases p with
            | outside | testing | entering | raising | locking => rfl
            | _ => cases hp
          refine hs.update rfl hthread hflag (fun _ => hheld) hchecking (fun _ => hp) ?_
            (fun _ _ => rfl) fun _ => hchecks
          intro hclear
          rw [hshut] at hclear
          cases hclear
      | false =>
          have hflag : s.parking.increaseInProcess = false := hs.flag.trans hshut
          cases Parking.work_fresh hflag (hs.fresh hshut hopened c) h
          exact hs.update rfl rfl rfl (fun _ => rfl) rfl (fun _ => rfl) (fun _ _ => rfl)
            (fun _ _ => rfl) fun _ => hchecks

omit [DecidableEq ι] in
theorem Gate.adding (hs : s.Gate) {rest rest' : List HashItem}
    (hgrower : s.grower = .readding rest) (hgrower' : t.grower = .readding rest')
    (hfresh : (t.parking.thread none).fresh = true)
    (hthread : ∀ c, t.parking.thread (some c) = s.parking.thread (some c))
    (hflag : t.parking.increaseInProcess = s.parking.increaseInProcess)
    (hcaller : ∀ c, t.caller (some c) = s.caller (some c))
    (hadded : t.parking.thread none ≠ .outside → (t.caller none).checks = true) : t.Gate := by
  have hclear : s.shut = false := by rw [shut, hgrower]; rfl
  have hclear' : t.shut = false := by rw [shut, hgrower']; rfl
  have hopened : t.opened = true := by rw [opened, hgrower']; rfl
  refine hs.grower hthread ?_ ?_ ?_ ?_ ?_ hcaller (fun _ => ⟨rest', hgrower'⟩) fun _ _ => hadded
  · rw [hgrower']
    exact hfresh
  · rw [hflag, hclear', ← hclear]
    exact hs.flag
  · rintro (h | h)
    · rw [hclear'] at h
      cases h
    · rw [h] at hfresh
      cases hfresh
  · intro h
    rw [hopened] at h
    cases h
  · intro _ h
    rw [hopened] at h
    cases h

theorem Gate.addingSet (hs : s.Gate) {rest : List HashItem} (hgrower : s.grower = .readding rest)
    (houtside : s.parking.thread none = .outside) (T : HashTable) (p : Caller) :
    (s.set none T p).Gate := by
  have hcaller : ∀ c, (s.set none T p).caller (some c) = s.caller (some c) :=
    fun c => set_caller_ne s (Option.some_ne_none c) T p
  cases hp : p.checks with
  | true =>
      have hparking : (s.set none T p).parking = s.parking.set none .testing := if_pos hp
      refine hs.adding hgrower hgrower ?_ (fun c => ?_) ?_ hcaller fun _ => ?_
      · rw [hparking, Parking.set_thread_self]
        rfl
      · rw [hparking]
        exact Parking.set_thread_ne _ (Option.some_ne_none c) _
      · rw [hparking]
        rfl
      · rw [set_caller_self]
        exact hp
  | false =>
      have hparking : (s.set none T p).parking = s.parking :=
        if_neg (by rw [hp]; exact Bool.false_ne_true)
      refine hs.adding hgrower hgrower ?_ (fun c => ?_) ?_ hcaller fun hne => ?_
      · rw [hparking, houtside]
        rfl
      · rw [hparking]
      · rw [hparking]
      · rw [hparking] at hne
        exact absurd houtside hne

omit [DecidableEq ι] in
/-- A thread that adds entries again finds the flag clear. -/
theorem Gate.fresh_of_adding (hs : s.Gate) {rest : List HashItem}
    (hgrower : s.grower = .readding rest) :
    s.parking.increaseInProcess = false ∧ (s.parking.thread none).fresh = true := by
  have hallows := hs.allows
  have hflag := hs.flag
  rw [shut, hgrower] at hflag
  rw [hgrower] at hallows
  exact ⟨hflag, hallows⟩

/-- The thread of the growth takes a step of a call only while it adds entries again. -/
theorem Gate.adding_of_work (hs : s.Gate) (h : s.work none = some t) :
    ∃ rest, s.grower = .readding rest := by
  apply hs.adder
  cases work_result h with
  | checked hchecks _ => exact Caller.not_resting_of_checks hchecks
  | moved _ hmove => exact Caller.not_resting_of_move hmove

theorem Gate.work (hs : s.Gate) {c : Option ι} (h : s.work c = some t) : t.Gate := by
  cases c with
  | some c =>
      cases work_result h with
      | checked hchecks hparking => exact hs.check hchecks hparking
      | moved hcheck hmove => exact hs.set (hs.outside_of_move hcheck hmove) _ _
  | none =>
      obtain ⟨rest, hgrower⟩ := hs.adding_of_work h
      cases work_result h with
      | moved hcheck hmove => exact hs.addingSet hgrower (hs.outside_of_move hcheck hmove) _ _
      | checked hchecks hparking =>
          obtain ⟨hflag, hfresh⟩ := hs.fresh_of_adding hgrower
          cases Parking.work_fresh hflag hfresh hparking
          refine hs.adding hgrower hgrower ?_ (fun c => ?_) rfl (fun _ => rfl) fun _ => hchecks
          · show ((s.parking.set none .outside).thread none).fresh = true
            rw [Parking.set_thread_self]
            rfl
          · exact Parking.set_thread_ne _ (Option.some_ne_none c) _

/-! ### The steps of the growth -/

section growth

omit [DecidableEq ι]

theorem Gate.not_adding (hs : s.Gate) (hadding : ∀ rest, s.grower ≠ .readding rest)
    (hcaller : t.caller none = s.caller none) (h : (t.caller none).resting = false) : False := by
  rw [hcaller] at h
  obtain ⟨rest, hgrower⟩ := hs.adder h
  exact hadding rest hgrower

theorem Gate.plain (hs : s.Gate) (hadding : ∀ rest, s.grower ≠ .readding rest) {p : Grower}
    (hgrower : t.grower = p) (hparking : t.parking = s.parking) (hcaller : t.caller = s.caller)
    (hp : ∀ rest, p ≠ .readding rest) (hallows : p.allows (s.parking.thread none) = true)
    (hshut : p.shut (s.parking.thread none) = s.shut)
    (hopened : p.opened (s.parking.thread none) = false → s.opened = false) : t.Gate := by
  have hshut' : t.shut = s.shut := by rw [shut, hgrower, hparking, hshut]
  have hopened' : t.opened = false → s.opened = false := by
    rw [opened, hgrower, hparking]
    exact hopened
  refine hs.grower (fun _ => by rw [hparking]) ?_ ?_ ?_ hopened' ?_ (fun _ => by rw [hcaller]) ?_
    fun rest hrest => absurd (hgrower.symm.trans hrest) (hp rest)
  · rw [hgrower, hparking]
    exact hallows
  · rw [hparking, hshut']
    exact hs.flag
  · rw [hparking, hshut']
    exact hs.mutex
  · intro h h'
    exact ⟨hshut'.symm.trans h, hopened' h'⟩
  · intro h
    exact (hs.not_adding hadding (by rw [hcaller]) h).elim

theorem Gate.arrive [DecidableEq ι] (hs : s.Gate) (hadding : ∀ rest, s.grower ≠ .readding rest)
    {q : Stop} (hparking : t.parking = s.parking.set none q) (hcaller : t.caller = s.caller)
    (hq : q ≠ .announcing) (hne : ∀ rest, t.grower ≠ .readding rest)
    (hallows : t.grower.allows q = true) (hshut : t.grower.shut q = false)
    (hclear : s.shut = false) (hopened : s.opened = false) : t.Gate := by
  have hnone : t.parking.thread none = q := by rw [hparking, Parking.set_thread_self]
  have hshut' : t.shut = false := by rw [shut, hnone, hshut]
  refine hs.grower (fun c => ?_) ?_ ?_ ?_ (fun _ => hopened) (fun _ _ => ⟨hclear, hopened⟩)
    (fun _ => by rw [hcaller]) ?_ fun rest hrest => absurd hrest (hne rest)
  · rw [hparking]
    exact Parking.set_thread_ne _ (Option.some_ne_none c) _
  · rw [hnone]
    exact hallows
  · rw [hparking, hshut', ← hclear]
    exact hs.flag
  · rw [hshut', hnone]
    rintro (h | h)
    · cases h
    · exact absurd h hq
  · intro h
    exact (hs.not_adding hadding (by rw [hcaller]) h).elim

theorem Gate.parked (hs : s.Gate) {parking : Parking (Option ι)}
    (ht : { s with parking } = t) {g : Grower} (hgrower : s.grower = g)
    (hadding : ∀ rest, g ≠ .readding rest) {p q : Stop} (hp : s.parking.thread none = p)
    (hothers : ∀ c, parking.thread (some c) = s.parking.thread (some c))
    (hq : parking.thread none = q) (hallows : g.allows q = true)
    (hflag : parking.increaseInProcess = g.shut q)
    (hmutex : g.shut q = true ∨ q = .announcing → parking.increaseInProcessMutex = some none)
    (hopened : g.opened q = false → g.opened p = false)
    (hshut : g.shut q = false → g.opened q = false → g.shut p = false) : t.Gate := by
  subst hgrower ht
  have hnow : s.shut = s.grower.shut p := by rw [shut, hp]
  have hopen : s.opened = s.grower.opened p := by rw [opened, hp]
  refine hs.grower hothers ?_ ?_ ?_ ?_ ?_ (fun _ => rfl) ?_ fun rest hrest =>
    absurd hrest (hadding rest)
  · show s.grower.allows (parking.thread none) = true
    rw [hq]
    exact hallows
  · show parking.increaseInProcess = s.grower.shut (parking.thread none)
    rw [hq]
    exact hflag
  · show s.grower.shut (parking.thread none) = true ∨ parking.thread none = .announcing →
      parking.increaseInProcessMutex = some none
    rw [hq]
    exact hmutex
  · show s.grower.opened (parking.thread none) = false → s.opened = false
    rw [hq, hopen]
    exact hopened
  · show s.grower.shut (parking.thread none) = false →
      s.grower.opened (parking.thread none) = false → s.shut = false ∧ s.opened = false
    rw [hq, hnow, hopen]
    exact fun h h' => ⟨hshut h h', hopened h'⟩
  · intro hbusy
    exact (hs.not_adding hadding rfl hbusy).elim

theorem Gate.park [DecidableEq ι] (hs : s.Gate) (hparks : s.grower.parks = true)
    (hreplacing : ∀ job, s.grower = .gating job → s.parking.thread none ≠ .replacing)
    {parking : Parking (Option ι)} (hwork : s.parking.work none = some parking)
    (ht : { s with parking } = t) : t.Gate := by
  have hallows := hs.allows
  have hflag := hs.flag
  rw [shut] at hflag
  have hothers : ∀ (q : Stop) (c : ι),
      (s.parking.set none q).thread (some c) = s.parking.thread (some c) :=
    fun q c => Parking.set_thread_ne _ (Option.some_ne_none c) q
  have hself : ∀ q : Stop, (s.parking.set none q).thread none = q :=
    fun q => Parking.set_thread_self _ none q
  have hmutex : s.shut = true → s.parking.increaseInProcessMutex = some none :=
    fun hshut => hs.mutex (.inl hshut)
  rw [shut] at hmutex
  rw [Parking.work] at hwork
  cases hgrower : s.grower with
  | scanning job i =>
      rw [hgrower] at hallows hflag
      cases hp : s.parking.thread none <;> simp only [hp] at hallows hwork hflag
      case outside => cases hwork
      case testing =>
        rw [hflag] at hwork
        cases hwork
        exact hs.parked (q := .outside) ht hgrower (by simp) hp (hothers _) (hself _) rfl hflag
          (by rintro (h | h) <;> cases h) id fun h _ => h
      all_goals cases hallows
  | gating job =>
      have hne := hreplacing job hgrower
      rw [hgrower] at hallows hflag hmutex
      cases hp : s.parking.thread none <;>
        simp only [hp, ne_eq, not_true_eq_false] at hallows hwork hflag hne hmutex
      case closing =>
        split at hwork
        · cases hwork
          exact hs.parked (q := .announcing) ht hgrower (by simp) hp (hothers .announcing) (hself _)
            rfl hflag (fun _ => rfl) id fun _ _ => rfl
        · cases hwork
      case announcing =>
        cases hwork
        exact hs.parked (q := .counting) ht hgrower (by simp) hp (hothers .counting) (hself _)
          rfl rfl (fun _ => hs.mutex (.inr hp)) id (by rintro ⟨⟩)
      case counting =>
        cases hwork
        exact hs.parked (q := .comparing _) ht hgrower (by simp) hp (hothers _) (hself _) rfl hflag
          (fun _ => hmutex rfl) id (by rintro ⟨⟩)
      case comparing n =>
        split at hwork
        · cases hwork
          exact hs.parked (q := .counting) ht hgrower (by simp) hp (hothers .counting) (hself _)
            rfl hflag (fun _ => hmutex rfl) id (by rintro ⟨⟩)
        · cases hwork
          exact hs.parked (q := .replacing) ht hgrower (by simp) hp (hothers .replacing) (hself _)
            rfl hflag (fun _ => hmutex rfl) id (by rintro ⟨⟩)
      all_goals cases hallows
  | opening job =>
      rw [hgrower] at hallows hflag
      cases hp : s.parking.thread none <;> simp only [hp] at hallows hwork hflag
      case outside => cases hwork
      case reopening =>
        cases hwork
        exact hs.parked (q := .releasing) ht hgrower (by simp) hp (hothers .releasing) (hself _)
          rfl rfl (by rintro (h | h) <;> cases h) (by rintro ⟨⟩) (by rintro _ ⟨⟩)
      case releasing =>
        cases hwork
        exact hs.parked (q := .outside) ht hgrower (by simp) hp (hothers .outside) (hself _)
          rfl hflag (by rintro (h | h) <;> cases h) (by rintro ⟨⟩) (by rintro _ ⟨⟩)
      all_goals cases hallows
  | _ =>
      rw [hgrower] at hparks
      cases hparks

end growth

omit [DecidableEq ι] in
theorem Gate.ready (hs : s.Gate) (h : s.Ready) :
    (∀ rest, s.grower ≠ .readding rest) ∧ s.parking.thread none = .outside ∧ s.shut = false ∧
      s.opened = false := by
  rcases h with hplain | ⟨⟨job, i, hgrower⟩, houtside⟩
  · refine ⟨fun rest hrest => ?_, Grower.eq_outside_of_plain hplain hs.allows,
      Grower.shut_of_plain hplain _, Grower.opened_of_plain hplain _⟩
    rw [hrest] at hplain
    cases hplain
  · rw [shut, SharedTable.opened, hgrower]
    exact ⟨by simp, houtside, rfl, rfl⟩

theorem Gate.loop (hs : s.Gate) (hready : s.Ready) {p : Grower} (hp : p.looping = true) :
    (s.setGrower p).Gate := by
  obtain ⟨hadding, houtside, hclear, hopened⟩ := hs.ready hready
  cases p with
  | scanning job i =>
      exact hs.arrive (q := .testing) hadding rfl rfl (by simp) (by simp [setGrower]) rfl rfl hclear
        hopened
  | gating job =>
      exact hs.arrive (q := .closing) hadding rfl rfl (by simp) (by simp [setGrower]) rfl rfl hclear
        hopened
  | storing | installing | resizing | opening | readding => cases hp
  | _ =>
      refine hs.plain hadding rfl rfl rfl (by simp [setGrower]) ?_ ?_ fun _ => hopened
      · rw [houtside]
        rfl
      · rw [houtside, hclear]
        rfl

omit [DecidableEq ι] in
theorem Gate.replace (hs : s.Gate) (hadding : ∀ rest, s.grower ≠ .readding rest)
    (hclosed : s.shut = true) {q : Stop} (hne : ∀ rest, t.grower ≠ .readding rest)
    (hallows : t.grower.allows q = true) (hshut : t.grower.shut q = true)
    (hthread : ∀ c, t.parking.thread (some c) = s.parking.thread (some c))
    (hq : t.parking.thread none = q)
    (hflag : t.parking.increaseInProcess = s.parking.increaseInProcess)
    (hmutex : t.parking.increaseInProcessMutex = s.parking.increaseInProcessMutex)
    (hcaller : t.caller = s.caller) : t.Gate := by
  have hshut' : t.shut = true := by rw [shut, hq, hshut]
  refine hs.grower hthread ?_ ?_ ?_ ?_ ?_ (fun _ => by rw [hcaller]) ?_ fun rest hrest =>
    absurd hrest (hne rest)
  · rw [hq]
    exact hallows
  · rw [hflag, hshut', ← hclosed]
    exact hs.flag
  · intro _
    rw [hmutex]
    exact hs.mutex (.inl hclosed)
  · exact fun _ => hs.opened_eq_false (.inl hclosed)
  · intro h
    rw [hshut'] at h
    cases h
  · intro h
    exact (hs.not_adding hadding (by rw [hcaller]) h).elim

omit [DecidableEq ι] in
theorem Gate.leave (hs : s.Gate) {p : Grower} (hpast : s.shut = false)
    (houtside : s.parking.thread none = .outside) (hadder : (s.caller none).resting = true)
    (hgrower : t.grower = p) (hparking : t.parking = s.parking) (hcaller : t.caller = s.caller)
    (hallows : p.allows .outside = true) (hshut : p.shut .outside = false)
    (hopened : p.opened .outside = true) : t.Gate := by
  have hshut' : t.shut = false := by rw [shut, hgrower, hparking, houtside, hshut]
  have hopened' : t.opened = true := by
    rw [SharedTable.opened, hgrower, hparking, houtside, hopened]
  refine hs.grower (fun _ => by rw [hparking]) ?_ ?_ ?_ ?_ ?_ (fun _ => by rw [hcaller]) ?_
    fun _ _ h => absurd (by rw [hparking, houtside]) h
  · rw [hgrower, hparking, houtside]
    exact hallows
  · rw [hparking, hshut', ← hpast]
    exact hs.flag
  · rw [hshut', hparking, houtside]
    rintro (h | h)
    · cases h
    · cases h
  · intro h
    rw [hopened'] at h
    cases h
  · intro _ h
    rw [hopened'] at h
    cases h
  · intro h
    rw [hcaller, hadder] at h
    cases h

omit [DecidableEq ι] in
/-- Between its calls of `add` the thread of the growth is in no check. -/
theorem Gate.between (hs : s.Gate) {rest : List HashItem} (hgrower : s.grower = .readding rest)
    (hresting : (s.caller none).resting = true) :
    s.shut = false ∧ s.parking.thread none = .outside := by
  constructor
  · rw [shut, hgrower]
    rfl
  · by_contra hne
    have hbusy := Caller.not_resting_of_checks (hs.added rest hgrower hne)
    rw [hresting] at hbusy
    cases hbusy

theorem Gate.grow (hs : s.Gate) (h : s.grow = some t) : t.Gate := by
  cases grow_result h with
  | parked hgrower hreplacing hwork => exact hs.park hgrower hreplacing hwork rfl
  | moved hready hp _ => exact hs.loop hready hp
  | opened hgrower hp =>
      refine hs.replace ?_ ?_ (by simp [setGrower]) rfl rfl (fun _ => rfl) hp rfl rfl rfl
      · simp [hgrower]
      · rw [shut, hgrower, hp]
        rfl
  | stored hgrower | installed hgrower =>
      have hp := hs.replacing (by rw [hgrower]; rfl)
      refine hs.replace ?_ ?_ (by simp [setGrower]) rfl rfl (fun _ => rfl) hp rfl rfl rfl
      · simp [hgrower]
      · rw [shut, hgrower]
        rfl
  | resized hgrower =>
      refine hs.replace (q := .reopening) ?_ ?_ (by simp [setGrower]) rfl rfl (fun c => ?_) ?_
        rfl rfl rfl
      · simp [hgrower]
      · rw [shut, hgrower]
        rfl
      · exact Parking.set_thread_ne _ (Option.some_ne_none c) _
      · exact Parking.set_thread_self _ none _
  | cleared hgrower hp =>
      have hresting : (s.caller none).resting = true := by
        by_contra hbusy
        obtain ⟨rest, hrest⟩ := hs.adder (Bool.eq_false_iff.mpr hbusy)
        cases hgrower.symm.trans hrest
      refine hs.leave ?_ hp hresting rfl rfl rfl rfl rfl rfl
      rw [shut, hgrower, hp]
      rfl
  | finished hgrower hresting =>
      obtain ⟨hshut, houtside⟩ := hs.between hgrower hresting
      exact hs.leave hshut houtside hresting rfl rfl rfl rfl rfl rfl
  | @readded _ rest hgrower hresting =>
      obtain ⟨hshut, houtside⟩ := hs.between hgrower hresting
      have hnext : (s.setGrower (.readding rest)).Gate :=
        hs.leave hshut houtside hresting rfl rfl rfl rfl rfl rfl
      exact hnext.addingSet rfl houtside _ _

theorem Gate.step (hs : s.Gate) {c : Command ι} (h : s.step c = some t) : t.Gate := by
  cases c with
  | add c key value => exact hs.call h
  | get c key => exact hs.call h
  | work c => exact hs.work h
  | increaseTable =>
      obtain ⟨hgrower, rfl⟩ := increaseTable_eq_some.mp h
      exact hs.loop (.inl (by rw [hgrower]; rfl)) rfl
  | grow => exact hs.grow h
  | setBusyThreadCount busyThreadCount =>
      cases h
      exact ⟨hs.allows, hs.flag, hs.mutex, hs.checking, hs.waits, hs.fresh, hs.linked, hs.adder,
        hs.added⟩

end SharedTable

end IndexServer
