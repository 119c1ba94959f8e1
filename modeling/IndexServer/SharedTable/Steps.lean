import IndexServer.SharedTable.Model

/-!
# The steps of the threads

What a step of a check does to the members of `Parking`, the two forms of a step of a call, and the
nine of a step of `increaseTable`. The proofs about runs are case analyses on these.
-/

namespace IndexServer

namespace Stop

/-- The thread is in no check, or on its way to the mutex. -/
def waits : Stop → Bool
  | .outside | .testing | .entering | .raising _ | .locking => true
  | _ => false

/-- The thread is not in the handshake of a growth. -/
def checking : Stop → Bool
  | .unlocking | .leaving | .lowering _ => true
  | p => p.waits

/-- The thread is in no check, or at its test of the flag. -/
def fresh : Stop → Bool
  | .outside | .testing => true
  | _ => false

end Stop

namespace Parking

variable {ι : Type} [DecidableEq ι] {s t : Parking ι} {w : ι}

theorem work_checking (hw : (s.thread w).checking = true) (h : s.work w = some t) :
    ∃ p : Stop, p.checking = true ∧ t.thread = Function.update s.thread w p ∧
      t.increaseInProcess = s.increaseInProcess := by
  rw [work] at h
  cases hp : s.thread w <;> simp only [hp] at h hw
  case outside => cases h
  case testing =>
    cases h
    refine ⟨_, ?_, rfl, rfl⟩
    split
    · rfl
    · rfl
  case entering | raising | unlocking | leaving | lowering =>
    cases h
    exact ⟨_, rfl, rfl, rfl⟩
  case locking =>
    split at h
    · cases h
      exact ⟨_, rfl, rfl, rfl⟩
    · cases h
  all_goals cases hw

/-- A thread that is on its way to the mutex stays there while somebody holds the mutex, and while
the flag is set it does not fall through. -/
theorem work_waiting (hmutex : s.increaseInProcessMutex ≠ none) (hw : (s.thread w).waits = true)
    (h : s.work w = some t) :
    ∃ p : Stop, p.waits = true ∧ (s.increaseInProcess = true → p ≠ .outside) ∧
      t.thread = Function.update s.thread w p ∧ t.increaseInProcess = s.increaseInProcess ∧
      t.increaseInProcessMutex = s.increaseInProcessMutex := by
  rw [work] at h
  cases hp : s.thread w <;> simp only [hp] at h hw
  case outside => cases h
  case testing =>
    cases h
    refine ⟨_, ?_, ?_, rfl, rfl, rfl⟩
    · split
      · rfl
      · rfl
    · intro hflag
      rw [if_pos hflag]
      simp
  case entering =>
    cases h
    exact ⟨.raising _, rfl, (by simp), rfl, rfl, rfl⟩
  case raising n =>
    cases h
    exact ⟨.locking, rfl, (by simp), rfl, rfl, rfl⟩
  case locking =>
    rw [if_neg hmutex] at h
    cases h
  all_goals cases hw

/-- While the flag is clear a check falls through. -/
theorem work_fresh (hflag : s.increaseInProcess = false) (hw : (s.thread w).fresh = true)
    (h : s.work w = some t) : t = s.set w .outside := by
  rw [work] at h
  cases hp : s.thread w <;> simp only [hp] at h hw
  case outside => cases h
  case testing =>
    rw [hflag] at h
    cases h
    rfl
  all_goals cases hw

end Parking

namespace Grower

/-- The growth is neither in a check nor in the handshake nor behind it. -/
def plain : Grower → Bool
  | .idle | .starting | .sizing _ | .capping _ _ | .copying _ _ _ | .measuring _
  | .collecting _ _ _ => true
  | _ => false

/-- The growth may be inside a check or the handshake. -/
def parks : Grower → Bool
  | .scanning _ _ | .gating _ | .opening _ => true
  | _ => false

/-- The growth is in or before its loops, in front of the handshake, or has returned. -/
def looping : Grower → Bool
  | .scanning _ _ | .gating _ | .returned _ => true
  | g => g.plain

def job : Grower → Option Job
  | .scanning job _ | .capping job _ | .copying job _ _ | .measuring job | .collecting job _ _
  | .gating job | .storing job | .installing job | .resizing job | .opening job => some job
  | _ => none

end Grower

/-- The local variables before the loops, and behind a step of them. -/
inductive Job.From (g : Grower) (job' : Job) : Prop
  | new (h : job'.growth = ⟨HashTable.createNewVector job'.newSize, []⟩)
  | same (h : g.job = some job')
  | scanned {job : Job} {item : HashItem} (hjob : g.job = some job)
      (h : job.scanned item = .ok job')
  | collected {job : Job} {item : HashItem} (hjob : g.job = some job)
      (h : job.collected item = .ok job')

namespace SharedTable

variable {ι : Type} [DecidableEq ι]

/-- The thread of the growth is neither in a check nor in the handshake nor behind it. -/
def Ready (s : SharedTable ι) : Prop :=
  s.grower.plain = true ∨
    (∃ job i, s.grower = .scanning job i) ∧ s.parking.thread none = .outside

inductive GrowResult (s : SharedTable ι) : SharedTable ι → Prop
  | parked {parking : Parking (Option ι)} (hgrower : s.grower.parks = true)
      (hreplacing : ∀ job, s.grower = .gating job → s.parking.thread none ≠ .replacing)
      (h : s.parking.work none = some parking) : GrowResult s { s with parking }
  | moved {p : Grower} (hready : s.Ready) (hp : p.looping = true)
      (hjob : ∀ job, p.job = some job → job.From s.grower) : GrowResult s (s.setGrower p)
  | opened {job : Job} (hgrower : s.grower = .gating job)
      (hp : s.parking.thread none = .replacing) :
      GrowResult s { s.setGrower (.storing job) with
        table := { s.table with itemsMutexes := job.mutexCount } }
  | stored {job : Job} (hgrower : s.grower = .storing job) :
      GrowResult s { s.setGrower (.installing job) with
        table := { s.table with itemsMutexesSize := s.table.itemsMutexes } }
  | installed {job : Job} (hgrower : s.grower = .installing job) :
      GrowResult s { s.setGrower (.resizing job) with
        table := { s.table with items := job.growth.newItemsVector } }
  | resized {job : Job} (hgrower : s.grower = .resizing job) :
      GrowResult s { s.setGrower (.opening job) with
        table := { s.table with size := job.newSize }
        parking := s.parking.set none .reopening }
  | cleared {job : Job} (hgrower : s.grower = .opening job)
      (hp : s.parking.thread none = .outside) :
      GrowResult s { s.setGrower (.readding job.growth.tmpColisions) with
        table := { s.table with colisions := [] } }
  | finished (hgrower : s.grower = .readding []) (hresting : (s.caller none).resting = true) :
      GrowResult s (s.setGrower (.returned 0))
  | readded {hi : HashItem} {rest : List HashItem} (hgrower : s.grower = .readding (hi :: rest))
      (hresting : (s.caller none).resting = true) :
      GrowResult s ((s.setGrower (.readding rest)).set none s.table
        (.sizing (.find (HashTable.newItem hi.key hi.value))))

inductive WorkResult (s : SharedTable ι) (c : Option ι) : SharedTable ι → Prop
  | checked {parking : Parking (Option ι)} (hchecks : (s.caller c).checks = true)
      (hparking : s.parking.work c = some parking) : WorkResult s c { s with parking }
  | moved {result : HashTable × Caller}
      (hcheck : ¬ ((s.caller c).checks = true ∧ s.parking.thread c ≠ .outside))
      (hmove : (s.caller c).move s.table = some result) :
      WorkResult s c (s.set c result.1 result.2)

variable {s t : SharedTable ι} {c : Option ι}

theorem work_result (h : s.work c = some t) : s.WorkResult c t := by
  rw [work] at h
  split at h
  · rename_i hcheck
    obtain ⟨parking, hparking, rfl⟩ := Option.map_eq_some_iff.mp h
    exact .checked hcheck.1 hparking
  · rename_i hcheck
    obtain ⟨result, hmove, rfl⟩ := Option.map_eq_some_iff.mp h
    exact .moved hcheck hmove

theorem call_eq_some {access : Access} :
    s.call c access = some t ↔
      (s.caller c).resting = true ∧ s.set c s.table (.sizing access) = t := by
  rw [call]
  split <;> simp_all

theorem increaseTable_eq_some :
    s.step .increaseTable = some t ↔ s.grower = .idle ∧ s.setGrower .starting = t := by
  rw [step]
  cases hgrower : s.grower <;> simp

theorem park_result (hgrower : s.grower.parks = true)
    (hreplacing : ∀ job, s.grower = .gating job → s.parking.thread none ≠ .replacing)
    (h : s.park = some t) : s.GrowResult t := by
  rw [park] at h
  obtain ⟨parking, hwork, rfl⟩ := Option.map_eq_some_iff.mp h
  exact .parked hgrower hreplacing hwork

theorem Grower.scan_looping (job : Job) (i : ℕ) :
    (Grower.scan job i).looping = true ∧ (Grower.scan job i).job = some job := by
  rw [Grower.scan]
  split
  · exact ⟨rfl, rfl⟩
  · exact ⟨rfl, rfl⟩

theorem Grower.collect_looping (job : Job) (i colisionsSize : ℕ) :
    (Grower.collect job i colisionsSize).looping = true ∧
      (Grower.collect job i colisionsSize).job = some job := by
  rw [Grower.collect]
  split
  · exact ⟨rfl, rfl⟩
  · exact ⟨rfl, rfl⟩

theorem grow_result (h : s.grow = some t) : s.GrowResult t := by
  rw [grow] at h
  cases hgrower : s.grower with
  | idle | returned =>
      rw [hgrower] at h
      cases h
  | starting =>
      rw [hgrower] at h
      cases h
      refine .moved (.inl (by rw [hgrower]; rfl)) ?_ ?_
      · split
        · rfl
        · rfl
      · intro job hjob
        split at hjob
        · cases hjob
        · cases hjob
  | sizing oldSize =>
      rw [hgrower] at h
      cases h
      obtain ⟨hlooping, hsame⟩ := Grower.scan_looping
        { oldSize
          mutexCount := if s.table.size > HashTable.itemsSizeOnItemsMutexRatio
            then 2 * oldSize / HashTable.itemsSizeOnItemsMutexRatio else 1
          growth := ⟨HashTable.createNewVector (2 * oldSize), []⟩ } 0
      refine .moved (.inl (by rw [hgrower]; rfl)) hlooping fun job hjob => .new ?_
      cases hsame.symm.trans hjob
      rfl
  | scanning job i =>
      rw [hgrower] at h
      simp only at h
      split at h
      · rename_i houtside
        cases h
        refine .moved (.inr ⟨⟨job, i, hgrower⟩, houtside⟩) ?_ fun job' hjob => .same ?_
        · split
          · rfl
          · rfl
        · rw [hgrower]
          split at hjob
          · exact hjob
          · exact hjob
      · exact park_result (by rw [hgrower]; rfl) (by rw [hgrower]; simp) h
  | capping job i =>
      rw [hgrower] at h
      cases h
      refine .moved (.inl (by rw [hgrower]; rfl)) rfl fun job' hjob => .same ?_
      rw [hgrower]
      exact hjob
  | copying job i mutexIndex =>
      rw [hgrower] at h
      have hok := Exec.toOption_eq_some.mp h
      obtain ⟨item, _, hok⟩ := Exec.bind_eq_ok.mp hok
      obtain ⟨job', hscanned, hok⟩ := Exec.bind_eq_ok.mp hok
      cases hok
      obtain ⟨hlooping, hsame⟩ := Grower.scan_looping job' (i + 1)
      refine .moved (.inl (by rw [hgrower]; rfl)) hlooping fun job'' hjob => ?_
      cases hsame.symm.trans hjob
      exact .scanned (by rw [hgrower]; rfl) hscanned
  | measuring job =>
      rw [hgrower] at h
      cases h
      obtain ⟨hlooping, hsame⟩ := Grower.collect_looping job 0 s.table.colisions.length
      refine .moved (.inl (by rw [hgrower]; rfl)) hlooping fun job' hjob => .same ?_
      rw [hgrower]
      exact hsame.symm.trans hjob
  | collecting job i colisionsSize =>
      rw [hgrower] at h
      have hok := Exec.toOption_eq_some.mp h
      obtain ⟨item, _, hok⟩ := Exec.bind_eq_ok.mp hok
      obtain ⟨job', hcollected, hok⟩ := Exec.bind_eq_ok.mp hok
      cases hok
      obtain ⟨hlooping, hsame⟩ := Grower.collect_looping job' (i + 1) colisionsSize
      refine .moved (.inl (by rw [hgrower]; rfl)) hlooping fun job'' hjob => ?_
      cases hsame.symm.trans hjob
      exact .collected (by rw [hgrower]; rfl) hcollected
  | gating job =>
      rw [hgrower] at h
      simp only at h
      split at h
      · rename_i hp
        cases h
        exact .opened hgrower hp
      · rename_i hp
        exact park_result (by rw [hgrower]; rfl) (fun _ _ => hp) h
  | storing job =>
      rw [hgrower] at h
      cases h
      exact .stored hgrower
  | installing job =>
      rw [hgrower] at h
      cases h
      exact .installed hgrower
  | resizing job =>
      rw [hgrower] at h
      cases h
      exact .resized hgrower
  | opening job =>
      rw [hgrower] at h
      simp only at h
      split at h
      · rename_i hp
        cases h
        exact .cleared hgrower hp
      · exact park_result (by rw [hgrower]; rfl) (by rw [hgrower]; simp) h
  | readding tmpColisions =>
      rw [hgrower] at h
      simp only at h
      split at h
      · rename_i hresting
        cases tmpColisions with
        | nil =>
            cases h
            exact .finished hgrower hresting
        | cons hi rest =>
            obtain ⟨_, rfl⟩ := call_eq_some.mp h
            exact .readded hgrower hresting
      · cases h

end SharedTable

end IndexServer
