import IndexServer.SharedTable.Alone
import IndexServer.SharedTable.Steps

/-!
# Calls one at a time

The table that threads share does, for calls of `add` and `increaseTable` made one after the other,
what `HashTable` does: every sequence of such calls is one of the runs of the threads, with the
handshake and the two loops of a growth taken access by access. Between the calls no thread is in a
check and the counter of parked threads is zero, so the handshake lets a growth pass that has no
threads to wait for.
-/

namespace IndexServer

open HashTable Relation

theorem Parking.set_outside {ι : Type} [DecidableEq ι] (busyThreadCount : Int) (w : ι) (p : Stop) :
    ((Parking.new busyThreadCount).set w p).set w .outside = .new busyThreadCount := by
  have hthread : Function.update (Function.update (fun _ : ι => Stop.outside) w p) w .outside =
      fun _ => .outside := by
    rw [Function.update_idem, Function.update_eq_self]
  rw [Parking.set, Parking.set, Parking.new]
  simp only [hthread]

/-- No growth is in progress, so a check lets its thread pass. -/
theorem Parking.work_testing {ι : Type} [DecidableEq ι] (busyThreadCount : Int) (w : ι) :
    ((Parking.new busyThreadCount).set w .testing).work w = some (.new busyThreadCount) := by
  rw [Parking.work, Parking.set_thread_self]
  exact congrArg some (Parking.set_outside busyThreadCount w .testing)

namespace SharedTable

variable {ι : Type} [DecidableEq ι] {s t u : SharedTable ι} {T T' : HashTable} {b : Int}
  {f : Option ι → Caller} {g : Grower} {c : Option ι} {p p' : Caller}

/-- The call of `HashTable` that the command begins, if it begins one that may change the table. -/
def Command.op : Command ι → Option Op
  | .add _ key value => some (.add key value)
  | .increaseTable => some .increaseTable
  | _ => none

/-- The state is reached by steps of the threads, with no new call of `add` or `increaseTable`. -/
def Leads (s t : SharedTable ι) : Prop :=
  ∃ cs, Machine.run SharedTable.step s cs = some t ∧ cs.filter (·.op.isSome) = []

theorem leads_refl (s : SharedTable ι) : Leads s s := ⟨[], rfl, rfl⟩

theorem Leads.trans (h : Leads s t) (h' : Leads t u) : Leads s u := by
  obtain ⟨cs, hcs, hnone⟩ := h
  obtain ⟨ds, hds, hnone'⟩ := h'
  refine ⟨cs ++ ds, Machine.run_append_eq_some.mpr ⟨t, hcs, hds⟩, ?_⟩
  rw [List.filter_append, hnone, hnone']
  rfl

theorem leads_of_work (h : s.work c = some t) : Leads s t :=
  ⟨[.work c], Machine.run_cons_eq_some.mpr ⟨t, h, rfl⟩, rfl⟩

theorem leads_of_grow (h : s.grow = some t) : Leads s t :=
  ⟨[.grow], Machine.run_cons_eq_some.mpr ⟨t, h, rfl⟩, rfl⟩

/-! ### One call -/

def inCall (b : Int) (f : Option ι → Caller) (g : Grower) (c : Option ι) (T : HashTable)
    (p : Caller) : SharedTable ι :=
  (⟨T, .new b, f, g⟩ : SharedTable ι).set c T p

theorem work_goes (b : Int) (hplain : p.checks = false ∨ s.parking = .new b) (hp : s.caller c = p)
    (h : Goes (s.table, p) (T', p')) : s.work c = some (s.set c T' p') := by
  have hcheck : ¬((s.caller c).checks = true ∧ s.parking.thread c ≠ .outside) := by
    rintro ⟨hchecks, hthread⟩
    rcases hplain with hplain | hplain
    · rw [hp, hplain] at hchecks
      cases hchecks
    · rw [hplain] at hthread
      exact hthread rfl
  simp only [Goes] at h
  rw [work, if_neg hcheck, hp, h, Option.map_some]

theorem inCall_goes (h : Goes (T, p) (T', p')) :
    Leads (inCall b f g c T p) (inCall b f g c T' p') := by
  have hsame : ∀ s : SharedTable ι, s.parking = .new b → s.caller = Function.update f c p →
      s.grower = g → s.set c T' p' = inCall b f g c T' p' := by
    rintro ⟨_, _, _, _⟩ rfl rfl rfl
    rw [inCall, SharedTable.set, SharedTable.set]
    simp only [Function.update_idem]
  cases hchecks : p.checks with
  | false =>
      have hparking : (inCall b f g c T p).parking = .new b := by
        rw [inCall, SharedTable.set, hchecks]
        rfl
      have hstep := work_goes b (s := inCall b f g c T p) (.inl hchecks) (set_caller_self ..) h
      rw [hsame _ hparking rfl rfl] at hstep
      exact leads_of_work hstep
  | true =>
      -- the check lets the call pass
      let passed : SharedTable ι := ⟨T, .new b, Function.update f c p, g⟩
      have hparking : (inCall b f g c T p).parking = (Parking.new b).set c .testing := by
        rw [inCall, SharedTable.set, hchecks]
        rfl
      have hcheck : (inCall b f g c T p).work c = some passed := by
        have hcaller : ((inCall b f g c T p).caller c).checks = true := by
          rw [inCall, set_caller_self]
          exact hchecks
        have hthread : (inCall b f g c T p).parking.thread c ≠ .outside := by
          rw [hparking, Parking.set_thread_self]
          exact Stop.noConfusion
        rw [work, if_pos ⟨hcaller, hthread⟩, hparking, Parking.work_testing]
        rfl
      have hstep := work_goes b (s := passed) (.inr rfl) (Function.update_self ..) h
      rw [hsame passed rfl rfl rfl] at hstep
      exact (leads_of_work hcheck).trans (leads_of_work hstep)

theorem inCall_leads (h : ReflTransGen Goes (T, p) (T', p')) :
    Leads (inCall b f g c T p) (inCall b f g c T' p') := by
  generalize hstart : (T, p) = start at h
  induction h using ReflTransGen.head_induction_on generalizing T p with
  | refl =>
      cases hstart
      exact leads_refl _
  | head hstep _ ih =>
      subst hstart
      exact (inCall_goes hstep).trans (ih rfl)

theorem call_leads {key : WString} {value : List WString} {code : ℕ}
    (hf : (f c).resting = true) (hadd : T.add key value = .ok (T', code)) :
    ∃ s, (⟨T, .new b, f, g⟩ : SharedTable ι).call c (.find (newItem key value)) = some s ∧
      Leads s ⟨T', .new b, Function.update f c (.returned code), g⟩ := by
  have hleads : Leads (inCall b f g c T _) (inCall b f g c T' _) := inCall_leads (add_leads hadd)
  exact ⟨_, if_pos hf, hleads⟩

/-! ### The loops of a growth -/

/-- The growth comes to a position, and nobody is in a call. -/
def growing (b : Int) (f : Option ι → Caller) (T : HashTable) (g : Grower) : SharedTable ι :=
  (⟨T, .new b, f, .idle⟩ : SharedTable ι).setGrower g

variable {job job' : Job} {i : ℕ} {item : HashItem}

/-- A round of the first loop: the check, the two loads of `itemsMutexesSize` and the section. -/
theorem scanning_leads (hread : T.readCell i = .ok item) (hscanned : job.scanned item = .ok job') :
    Leads (growing b f T (.scanning job i)) (growing b f T (.scan job' (i + 1))) := by
  have hcheck : (growing b f T (.scanning job i)).grow =
      some ⟨T, .new b, f, .scanning job i⟩ := by
    have hthread : (growing b f T (.scanning job i)).parking.thread none ≠ .outside := by
      show ((Parking.new b).set none .testing).thread none ≠ .outside
      rw [Parking.set_thread_self]
      exact Stop.noConfusion
    have hpark : (growing b f T (.scanning job i)).park = some ⟨T, .new b, f, .scanning job i⟩ := by
      rw [park, show (growing b f T (.scanning job i)).parking = (Parking.new b).set none .testing
        from rfl, Parking.work_testing]
      rfl
    rw [grow, show (growing b f T (.scanning job i)).grower = .scanning job i from rfl]
    dsimp only
    rw [if_neg hthread, hpark]
  have hcopy : Leads (growing b f T (.copying job i (T.getMutexIndex i)))
      (growing b f T (.scan job' (i + 1))) := by
    refine leads_of_grow ?_
    have hsection : T.readCellAt i (T.getMutexIndex i) = .ok item := hread
    rw [grow, show (growing b f T (.copying job i (T.getMutexIndex i))).grower =
      .copying job i (T.getMutexIndex i) from rfl]
    exact Exec.toOption_eq_some.mpr (Exec.bind_eq_ok.mpr ⟨item, hsection,
      Exec.bind_eq_ok.mpr ⟨job', hscanned, rfl⟩⟩)
  have hload : (⟨T, .new b, f, .scanning job i⟩ : SharedTable ι).grow =
      some (growing b f T (if (i : Int) / itemsSizeOnItemsMutexRatio ≥ T.itemsMutexesSize
        then .capping job i
        else .copying job i ((i : Int) / itemsSizeOnItemsMutexRatio))) := by
    rw [grow]
    exact if_pos rfl
  refine (leads_of_grow hcheck).trans ((leads_of_grow hload).trans (Leads.trans ?_ hcopy))
  rw [HashTable.getMutexIndex]
  split
  · exact leads_of_grow rfl
  · exact leads_refl _

theorem scan_leads {n : ℕ} {growth : Growth} (hsize : i + n = job.oldSize)
    (hgrow : T.growItems job.newSize (List.range' i n) job.growth = .ok growth) :
    Leads (growing b f T (.scan job i)) (growing b f T (.measuring { job with growth })) := by
  induction n generalizing i job with
  | zero =>
      cases hgrow
      rw [Grower.scan, if_neg (by omega)]
      exact leads_refl _
  | succ n ih =>
      rw [List.range'_succ] at hgrow
      obtain ⟨item, hread, hgrow⟩ := Exec.bind_eq_ok.mp hgrow
      rw [Grower.scan, if_pos (by omega)]
      split at hgrow
      · rename_i hvalue
        have hscanned : job.scanned item = .ok job := if_pos hvalue
        exact (scanning_leads hread hscanned).trans (ih (by omega) hgrow)
      · rename_i hvacant
        obtain ⟨placed, hplace, hgrow⟩ := Exec.bind_eq_ok.mp hgrow
        have hscanned : job.scanned item = .ok { job with growth := placed } := by
          rw [Job.scanned, if_neg hvacant, hplace]
          rfl
        exact (scanning_leads hread hscanned).trans
          (@ih { job with growth := placed } (i + 1) (by dsimp only; omega) hgrow)

theorem collect_leads {n colisionsSize : ℕ} {growth : Growth} (hsize : i + n = colisionsSize)
    (hgrow : T.growColisions job.newSize (List.range' i n) job.growth = .ok growth) :
    Leads (growing b f T (.collect job i colisionsSize))
      (growing b f T (.gating { job with growth })) := by
  induction n generalizing i job with
  | zero =>
      cases hgrow
      rw [Grower.collect, if_neg (by omega)]
      exact leads_refl _
  | succ n ih =>
      rw [List.range'_succ] at hgrow
      obtain ⟨item, hread, hgrow⟩ := Exec.bind_eq_ok.mp hgrow
      obtain ⟨placed, hplace, hgrow⟩ := Exec.bind_eq_ok.mp hgrow
      rw [Grower.collect, if_pos (by omega)]
      have hcollected : job.collected item = .ok { job with growth := placed } := by
        rw [Job.collected, hplace]
        rfl
      have hround : (growing b f T (.collecting job i colisionsSize)).grow =
          some (growing b f T
            (.collect { job with growth := placed } (i + 1) colisionsSize)) :=
        Exec.toOption_eq_some.mpr (Exec.bind_eq_ok.mpr ⟨item, hread,
          Exec.bind_eq_ok.mpr ⟨_, hcollected, rfl⟩⟩)
      exact (leads_of_grow hround).trans
        (@ih { job with growth := placed } (i + 1) (by omega) hgrow)

/-! ### The handshake -/

/-- The members of `Parking` while the growth is at `p` and every other thread outside. -/
def growerAt (increaseInProcess : Bool) (increaseInProcessMutex : Option (Option ι)) (p : Stop) :
    Parking (Option ι) where
  increaseInProcess
  currentStopedThreadCount := 0
  busyThreadCount := 0
  increaseInProcessMutex
  thread := Function.update (fun _ => .outside) none p

section handshake

variable {flag flag' : Bool} {mutex mutex' : Option (Option ι)} {q q' : Stop}

theorem growerAt_set (flag : Bool) (mutex : Option (Option ι)) (q q' : Stop) :
    (growerAt flag mutex q).set none q' = growerAt flag mutex q' := by
  rw [growerAt, growerAt, Parking.set]
  simp only [Function.update_idem]

theorem growerAt_thread (flag : Bool) (mutex : Option (Option ι)) (q : Stop) :
    (growerAt flag mutex q).thread none = q := by
  rw [growerAt]
  exact Function.update_self (f := fun _ : Option ι => Stop.outside) none q

theorem gating_step (hq : q ≠ .replacing)
    (hwork : (growerAt flag mutex q).work none = some (growerAt flag' mutex' q')) :
    Leads (⟨T, growerAt flag mutex q, f, .gating job⟩ : SharedTable ι)
      ⟨T, growerAt flag' mutex' q', f, .gating job⟩ := by
  refine leads_of_grow ?_
  have hthread : (growerAt flag mutex q).thread none ≠ .replacing := by
    rwa [growerAt_thread]
  rw [grow]
  dsimp only
  rw [if_neg hthread, park, hwork]
  rfl

theorem opening_step (hq : q ≠ .outside)
    (hwork : (growerAt flag mutex q).work none = some (growerAt flag' mutex' q')) :
    Leads (⟨T, growerAt flag mutex q, f, .opening job⟩ : SharedTable ι)
      ⟨T, growerAt flag' mutex' q', f, .opening job⟩ := by
  refine leads_of_grow ?_
  have hthread : (growerAt flag mutex q).thread none ≠ .outside := by
    rwa [growerAt_thread]
  rw [grow]
  dsimp only
  rw [if_neg hthread, park, hwork]
  rfl

/-- The growth takes the mutex, and nobody is to be waited for. -/
theorem closing_leads : Leads (growing 0 f T (.gating job) : SharedTable ι)
    (⟨T, growerAt true (some none) .replacing, f, .gating job⟩ : SharedTable ι) := by
  have hclose : (growerAt false none .closing : Parking (Option ι)).work none =
      some (growerAt false (some none) .announcing) := by
    rw [Parking.work, growerAt_thread]
    exact congrArg
      (fun s : Parking (Option ι) => some { s with increaseInProcessMutex := some none })
      (growerAt_set false none .closing .announcing)
  have hannounce : (growerAt false (some none) .announcing : Parking (Option ι)).work none =
      some (growerAt true (some none) .counting) := by
    rw [Parking.work, growerAt_thread]
    exact congrArg (fun s : Parking (Option ι) => some { s with increaseInProcess := true })
      (growerAt_set false (some none) .announcing .counting)
  have hcount : (growerAt true (some none) .counting : Parking (Option ι)).work none =
      some (growerAt true (some none) (.comparing 0)) := by
    rw [Parking.work, growerAt_thread]
    exact congrArg some (growerAt_set true (some none) .counting (.comparing 0))
  have hcompare : (growerAt true (some none) (.comparing 0) : Parking (Option ι)).work none =
      some (growerAt true (some none) .replacing) := by
    rw [Parking.work, growerAt_thread]
    exact congrArg some (growerAt_set true (some none) (.comparing 0) .replacing)
  exact (((gating_step Stop.noConfusion hclose).trans
    (gating_step Stop.noConfusion hannounce)).trans
    (gating_step Stop.noConfusion hcount)).trans (gating_step Stop.noConfusion hcompare)

/-- The table behind the handshake: `install` with the local variables of the growth. -/
def installed (T : HashTable) (job : Job) : HashTable :=
  { T with
    size := job.newSize
    items := job.growth.newItemsVector
    colisions := []
    itemsMutexesSize := job.mutexCount
    itemsMutexes := job.mutexCount }

/-- Nobody is to be waited for, and the growth replaces the vectors. -/
theorem gating_leads : Leads (growing 0 f T (.gating job))
    (⟨installed T job, .new 0, f, .readding job.growth.tmpColisions⟩ : SharedTable ι) := by
  refine closing_leads.trans ?_
  let replaced : HashTable := { T with itemsMutexes := job.mutexCount }
  let stored : HashTable := { replaced with itemsMutexesSize := job.mutexCount }
  let filled : HashTable := { stored with items := job.growth.newItemsVector }
  let resized : HashTable := { filled with size := job.newSize }
  have hreplace : Leads (⟨T, growerAt true (some none) .replacing, f, .gating job⟩ : SharedTable ι)
      ⟨replaced, growerAt true (some none) .replacing, f, .storing job⟩ :=
    leads_of_grow (by rw [grow]; exact if_pos (growerAt_thread ..))
  have hstore : Leads
      (⟨replaced, growerAt true (some none) .replacing, f, .storing job⟩ : SharedTable ι)
      ⟨stored, growerAt true (some none) .replacing, f, .installing job⟩ :=
    leads_of_grow rfl
  have hinstall : Leads
      (⟨stored, growerAt true (some none) .replacing, f, .installing job⟩ : SharedTable ι)
      ⟨filled, growerAt true (some none) .replacing, f, .resizing job⟩ :=
    leads_of_grow rfl
  have hresize : Leads
      (⟨filled, growerAt true (some none) .replacing, f, .resizing job⟩ : SharedTable ι)
      ⟨resized, growerAt true (some none) .reopening, f, .opening job⟩ := by
    refine leads_of_grow ?_
    rw [← growerAt_set true (some none) .replacing .reopening]
    rfl
  have hreopen : (growerAt true (some none) .reopening : Parking (Option ι)).work none =
      some (growerAt false (some none) .releasing) := by
    rw [Parking.work, growerAt_thread]
    exact congrArg (fun s : Parking (Option ι) => some { s with increaseInProcess := false })
      (growerAt_set true (some none) .reopening .releasing)
  have hrelease : (growerAt false (some none) .releasing : Parking (Option ι)).work none =
      some (growerAt false none .outside) := by
    rw [Parking.work, growerAt_thread]
    exact congrArg (fun s : Parking (Option ι) => some { s with increaseInProcessMutex := none })
      (growerAt_set false (some none) .releasing .outside)
  have houtside : (growerAt false none .outside : Parking (Option ι)) = .new 0 := by
    rw [growerAt, Parking.new, Function.update_eq_self]
  have hempty : Leads (⟨resized, growerAt false none .outside, f, .opening job⟩ : SharedTable ι)
      ⟨installed T job, growerAt false none .outside, f, .readding job.growth.tmpColisions⟩ :=
    leads_of_grow (by rw [grow]; exact if_pos (growerAt_thread ..))
  rw [← houtside]
  exact (((((hreplace.trans hstore).trans hinstall).trans hresize).trans
    (opening_step Stop.noConfusion hreopen)).trans
    (opening_step Stop.noConfusion hrelease)).trans hempty

end handshake

/-! ### A growth -/

theorem readd_leads {tmpColisions : List HashItem} (hf : (f none).resting = true)
    (hreadd : T.readd tmpColisions = .ok T') :
    ∃ p : Caller, p.resting = true ∧
      Leads (⟨T, .new b, f, .readding tmpColisions⟩ : SharedTable ι)
        ⟨T', .new b, Function.update f none p, .returned 0⟩ := by
  induction tmpColisions generalizing T f with
  | nil =>
      cases hreadd
      refine ⟨f none, hf, ?_⟩
      rw [Function.update_eq_self]
      exact leads_of_grow (if_pos hf)
  | cons hi rest ih =>
      obtain ⟨⟨T₁, code⟩, hadd, hreadd⟩ := Exec.bind_eq_ok.mp hreadd
      obtain ⟨s, hcall, hleads⟩ := call_leads (b := b) (g := .readding rest) hf hadd
      have hbegin : Leads (⟨T, .new b, f, .readding (hi :: rest)⟩ : SharedTable ι) s :=
        leads_of_grow ((if_pos hf).trans hcall)
      have hresting : (Function.update f none (.returned code) none).resting = true := by
        rw [Function.update_self]
        rfl
      obtain ⟨p, hp, hrest⟩ := ih hresting hreadd
      rw [Function.update_idem] at hrest
      exact ⟨p, hp, (hbegin.trans hleads).trans hrest⟩

/-- A growth from its first load on. -/
theorem starting_leads {code : ℕ} (hf : (f none).resting = true)
    (hgrow : T.increaseTable = .ok (T', code)) :
    ∃ p : Caller, p.resting = true ∧
      Leads (⟨T, .new 0, f, .starting⟩ : SharedTable ι)
        ⟨T', .new 0, Function.update f none p, .returned code⟩ := by
  have hstart : Leads (⟨T, .new 0, f, .starting⟩ : SharedTable ι)
      (growing 0 f T (if 2 * T.size ≥ maxCapacity then .returned 1 else .sizing T.size)) :=
    leads_of_grow rfl
  rw [increaseTable] at hgrow
  split at hgrow
  case isTrue hlarge =>
    cases hgrow
    rw [if_pos hlarge] at hstart
    refine ⟨f none, hf, ?_⟩
    rw [Function.update_eq_self]
    exact hstart
  case isFalse hsmall =>
    rw [if_neg hsmall] at hstart
    obtain ⟨⟨T₁, tmpColisions⟩, hrehash, hgrow⟩ := Exec.bind_eq_ok.mp hgrow
    obtain ⟨T₂, hreadd, hgrow⟩ := Exec.bind_eq_ok.mp hgrow
    cases hgrow
    obtain ⟨g₁, hitems, hrehash⟩ := Exec.bind_eq_ok.mp hrehash
    obtain ⟨g₂, hcolisions, hrehash⟩ := Exec.bind_eq_ok.mp hrehash
    split at hrehash
    · cases hrehash
    · cases hrehash
      let job : Job := ⟨T.size, T.mutexCount, ⟨createNewVector (2 * T.size), []⟩⟩
      rw [List.range_eq_range'] at hitems hcolisions
      have hsize : Leads (growing 0 f T (.sizing T.size)) (growing 0 f T (.scan job 0)) :=
        leads_of_grow rfl
      have hscan : Leads (growing 0 f T (.scan job 0))
          (growing 0 f T (.measuring { job with growth := g₁ })) :=
        scan_leads (Nat.zero_add _) hitems
      have hmeasure : Leads (growing 0 f T (.measuring { job with growth := g₁ }))
          (growing 0 f T (.collect { job with growth := g₁ } 0 T.colisions.length)) :=
        leads_of_grow rfl
      have hcollect : Leads (growing 0 f T (.collect { job with growth := g₁ } 0 _))
          (growing 0 f T (.gating { job with growth := g₂ })) :=
        collect_leads (Nat.zero_add _) hcolisions
      have hgate : Leads (growing 0 f T (.gating { job with growth := g₂ }))
          ⟨T.install g₂, .new 0, f, .readding g₂.tmpColisions⟩ := gating_leads
      obtain ⟨p, hp, hreadds⟩ := readd_leads (b := 0) hf hreadd
      exact ⟨p, hp, ((((((hstart.trans hsize).trans hscan).trans hmeasure).trans hcollect).trans
        hgate).trans hreadds)⟩

/-! ### Runs -/

/-- No thread is in a call or in a check. -/
structure AtRest (s : SharedTable ι) (T : HashTable) : Prop where
  table : s.table = T
  parking : s.parking = .new 0
  resting : ∀ c, (s.caller c).resting = true

theorem update_resting (hf : ∀ c, (f c).resting = true) (hp : p.resting = true) (d : Option ι) :
    (Function.update f c p d).resting = true := by
  by_cases hdc : d = c
  · rw [hdc, Function.update_self]
    exact hp
  · rw [Function.update_of_ne hdc]
    exact hf d

/-- A call of `HashTable` is a call of a thread and steps of it. -/
theorem AtRest.step {a : Command ι} {op : Op} (hs : s.AtRest T) (hop : a.op = some op)
    (hidle : op = .increaseTable → s.grower = .idle) (h : HashTable.step T op = some T') :
    ∃ cs t, Machine.run SharedTable.step s cs = some t ∧ cs.filter (·.op.isSome) = [a] ∧
      t.AtRest T' ∧ (op ≠ .increaseTable → t.grower = s.grower) := by
  obtain ⟨table, parking, f, g⟩ := s
  obtain ⟨rfl, rfl, hresting⟩ := hs
  dsimp only at hresting hidle
  cases a with
  | add c key value =>
      cases hop
      rw [HashTable.step] at h
      obtain ⟨⟨T₁, code⟩, hadd, rfl⟩ := Option.map_eq_some_iff.mp h
      obtain ⟨t, hcall, cs, hcs, hnone⟩ :=
        call_leads (b := 0) (g := g) (hresting (some c)) (Exec.toOption_eq_some.mp hadd)
      refine ⟨.add c key value :: cs, _, Machine.run_cons_eq_some.mpr ⟨t, hcall, hcs⟩, ?_,
        ⟨rfl, rfl, update_resting hresting rfl⟩, fun _ => rfl⟩
      rw [List.filter_cons_of_pos rfl, hnone]
  | increaseTable =>
      cases hop
      obtain rfl := hidle rfl
      rw [HashTable.step] at h
      obtain ⟨⟨T₁, code⟩, hgrow, rfl⟩ := Option.map_eq_some_iff.mp h
      obtain ⟨p, hp, cs, hcs, hnone⟩ :=
        starting_leads (hresting none) (Exec.toOption_eq_some.mp hgrow)
      have hcall : (⟨table, .new 0, f, .idle⟩ : SharedTable ι).step .increaseTable =
          some ⟨table, .new 0, f, .starting⟩ := rfl
      refine ⟨.increaseTable :: cs, _, Machine.run_cons_eq_some.mpr ⟨_, hcall, hcs⟩, ?_,
        ⟨rfl, rfl, update_resting hresting hp⟩, fun hne => absurd rfl hne⟩
      rw [List.filter_cons_of_pos rfl, hnone]
  | get => cases hop
  | work => cases hop
  | grow => cases hop
  | setBusyThreadCount => cases hop

theorem AtRest.get {key : WString} {found : List WString} (hs : s.AtRest T) (c : ι)
    (hget : T.get key = .ok found) :
    ∃ cs t, Machine.run SharedTable.step s cs = some t ∧ t.AtRest T ∧
      t.caller (some c) = .got found := by
  obtain ⟨table, parking, f, g⟩ := s
  obtain ⟨rfl, rfl, hresting⟩ := hs
  obtain ⟨cs, hcs, -⟩ : Leads (inCall 0 f g (some c) table _) (inCall 0 f g (some c) table _) :=
    inCall_leads (get_leads hget)
  have hcall : (⟨table, .new 0, f, g⟩ : SharedTable ι).step (.get c key) =
      some (inCall 0 f g (some c) table (.sizing (.look key))) := if_pos (hresting (some c))
  exact ⟨.get c key :: cs, _, Machine.run_cons_eq_some.mpr ⟨_, hcall, hcs⟩,
    ⟨rfl, rfl, update_resting hresting rfl⟩, Function.update_self ..⟩

theorem AtRest.run {calls : List (Command ι)} (hs : s.AtRest T)
    (hcalls : ∀ a ∈ calls, a.op.isSome = true)
    (honce : (calls.filterMap Command.op).count .increaseTable ≤ 1)
    (hidle : .increaseTable ∈ calls.filterMap Command.op → s.grower = .idle)
    (hrun : Machine.run HashTable.step T (calls.filterMap Command.op) = some T') :
    ∃ cs t, Machine.run SharedTable.step s cs = some t ∧ cs.filter (·.op.isSome) = calls ∧
      t.AtRest T' := by
  induction calls generalizing s T with
  | nil =>
      cases hrun
      exact ⟨[], s, rfl, rfl, hs⟩
  | cons a calls ih =>
      obtain ⟨op, hop⟩ := Option.isSome_iff_exists.mp (hcalls a List.mem_cons_self)
      rw [List.filterMap_cons_some hop] at honce hidle hrun
      obtain ⟨T₁, hstep, hrun⟩ := Machine.run_cons_eq_some.mp hrun
      obtain ⟨cs, t, hcs, hfilter, ht, hgrower⟩ :=
        hs.step hop (fun heq => hidle (heq ▸ List.mem_cons_self)) hstep
      have hrest : .increaseTable ∈ calls.filterMap Command.op → t.grower = .idle := by
        intro hmem
        -- a second growth is none of the calls
        have hne : op ≠ .increaseTable := by
          rintro rfl
          rw [List.count_cons_self] at honce
          have hpos := List.count_pos_iff.mpr hmem
          omega
        rw [hgrower hne]
        exact hidle (List.mem_cons_of_mem op hmem)
      obtain ⟨ds, u, hds, hfilter', hu⟩ := ih ht
        (fun b hb => hcalls b (List.mem_cons_of_mem a hb))
        (le_trans (List.count_le_count_cons ..) honce) hrest hrun
      refine ⟨cs ++ ds, u, Machine.run_append_eq_some.mpr ⟨t, hcs, hds⟩, ?_, hu⟩
      rw [List.filter_append, hfilter, hfilter']
      rfl

/-- Adding "1" for "a", a growth, and adding "2" for "b". -/
def addGrowAdd : List (Command Unit) :=
  [.add () [97] [[49]], .increaseTable, .add () [98] [[50]]]

end SharedTable

end IndexServer
