import Mathlib.Algebra.Order.Ring.Int
import Mathlib.Data.List.Induction
import Mathlib.Data.Option.Basic

/-!
# Labelled machines and their runs

A machine is a partial step function: the label resolves every choice, so a state has at most one
successor for it. A run is a list of labels. Invariants are proved for one step and lifted here to
runs, with or without a guard on the steps, and with or without the history of the labels taken.
-/

namespace Machine

variable {σ α : Type*}

/-- The state a list of labels leads to, or nothing if one of its steps is not enabled. -/
def run (step : σ → α → Option σ) : σ → List α → Option σ
  | s, [] => some s
  | s, a :: as => (step s a).bind fun t => run step t as

/-- Every step of the run is taken in a state that meets the guard for its label. -/
def Meets (step : σ → α → Option σ) (guard : σ → α → Prop) : σ → List α → Prop
  | _, [] => True
  | s, a :: as => guard s a ∧ ∀ t, step s a = some t → Meets step guard t as

variable {step : σ → α → Option σ} {guard : σ → α → Prop}

@[simp] theorem run_nil (s : σ) : run step s [] = some s := rfl

theorem run_cons_eq_some {s t : σ} {a : α} {as : List α} :
    run step s (a :: as) = some t ↔ ∃ u, step s a = some u ∧ run step u as = some t := by
  simp only [run, Option.bind_eq_some_iff]

theorem run_append_eq_some {s t : σ} {as bs : List α} :
    run step s (as ++ bs) = some t ↔ ∃ u, run step s as = some u ∧ run step u bs = some t := by
  induction as generalizing s with
  | nil => simp
  | cons a as ih =>
      simp only [List.cons_append, run_cons_eq_some, ih]
      constructor
      · rintro ⟨u, hu, v, hv, ht⟩
        exact ⟨v, ⟨u, hu, hv⟩, ht⟩
      · rintro ⟨v, ⟨u, hu, hv⟩, ht⟩
        exact ⟨u, hu, v, hv, ht⟩

theorem run_snoc_eq_some {s t : σ} {a : α} {as : List α} :
    run step s (as ++ [a]) = some t ↔ ∃ u, run step s as = some u ∧ step u a = some t := by
  simp only [run_append_eq_some, run_cons_eq_some, run_nil, Option.some.injEq, exists_eq_right]

@[simp] theorem meets_nil (s : σ) : Meets step guard s [] := trivial

theorem meets_append {s : σ} {as bs : List α} :
    Meets step guard s (as ++ bs) ↔
      Meets step guard s as ∧ ∀ t, run step s as = some t → Meets step guard t bs := by
  induction as generalizing s with
  | nil => simp
  | cons a as ih =>
      simp only [List.cons_append, Meets, ih, run_cons_eq_some]
      constructor
      · rintro ⟨ha, hrest⟩
        refine ⟨⟨ha, fun t ht => (hrest t ht).1⟩, ?_⟩
        rintro t ⟨u, hu, ht⟩
        exact (hrest u hu).2 t ht
      · rintro ⟨⟨ha, hfirst⟩, hsecond⟩
        exact ⟨ha, fun t ht => ⟨hfirst t ht, fun u hu => hsecond u ⟨t, ht, hu⟩⟩⟩

theorem meets_snoc {s u : σ} {a : α} {as : List α} (hrun : run step s as = some u) :
    Meets step guard s (as ++ [a]) ↔ Meets step guard s as ∧ guard u a := by
  rw [meets_append]
  simp [hrun, Meets]

theorem Meets.mono {guard' : σ → α → Prop} (himp : ∀ s a, guard s a → guard' s a) {s : σ}
    {as : List α} (h : Meets step guard s as) : Meets step guard' s as := by
  induction as generalizing s with
  | nil => exact meets_nil s
  | cons a as ih => exact ⟨himp s a h.1, fun t ht => ih (h.2 t ht)⟩

theorem Meets.and {guard' : σ → α → Prop} {s : σ} {as : List α} (h : Meets step guard s as)
    (h' : Meets step guard' s as) : Meets step (fun s a => guard s a ∧ guard' s a) s as := by
  induction as generalizing s with
  | nil => exact meets_nil s
  | cons a as ih => exact ⟨⟨h.1, h'.1⟩, fun t ht => ih (h.2 t ht) (h'.2 t ht)⟩

theorem meets_label {good : α → Prop} {s : σ} {as : List α} (h : ∀ a ∈ as, good a) :
    Meets step (fun _ a => good a) s as := by
  induction as generalizing s with
  | nil => exact meets_nil s
  | cons a as ih =>
      exact ⟨h a List.mem_cons_self, fun t _ => ih fun b hb => h b (List.mem_cons_of_mem a hb)⟩

instance decidableMeets [∀ s a, Decidable (guard s a)] : ∀ s as, Decidable (Meets step guard s as)
  | _, [] => isTrue trivial
  | s, a :: as =>
      match h : step s a with
      | none => decidable_of_iff (guard s a) (by simp [Meets, h])
      | some t =>
          have := decidableMeets t as
          decidable_of_iff (guard s a ∧ Meets step guard t as) (by simp [Meets, h])

/-- What a step preserves of the history and the state holds after every run. -/
theorem run_history (Inv : List α → σ → Prop) {s₀ t : σ} {as : List α} (hnil : Inv [] s₀)
    (hstep : ∀ hist s a u, run step s₀ hist = some s → Inv hist s → step s a = some u →
      Inv (hist ++ [a]) u)
    (hrun : run step s₀ as = some t) : Inv as t := by
  induction as using List.reverseRecOn generalizing t with
  | nil =>
      rw [run_nil, Option.some.injEq] at hrun
      exact hrun ▸ hnil
  | append_singleton as a ih =>
      obtain ⟨u, hu, ht⟩ := run_snoc_eq_some.mp hrun
      exact hstep as u a t hu (ih hu) ht

/-- What a guarded step preserves of the history and the state holds after every guarded run. -/
theorem run_history_of_meets (Inv : List α → σ → Prop) {s₀ t : σ} {as : List α}
    (hnil : Inv [] s₀)
    (hstep : ∀ hist s a u, Inv hist s → guard s a → step s a = some u → Inv (hist ++ [a]) u)
    (hmeets : Meets step guard s₀ as) (hrun : run step s₀ as = some t) : Inv as t := by
  refine run_history (fun hist s => Meets step guard s₀ hist → Inv hist s)
    (fun _ => hnil) ?_ hrun hmeets
  intro hist s a u hs ih hu hmeets
  obtain ⟨hhist, ha⟩ := (meets_snoc hs).mp hmeets
  exact hstep hist s a u (ih hhist) ha hu

/-- The invariant rule for guarded runs. -/
theorem run_invariant_of_meets (Inv : σ → Prop) {s t : σ} {as : List α}
    (hstep : ∀ s a t, Inv s → guard s a → step s a = some t → Inv t)
    (hs : Inv s) (hmeets : Meets step guard s as) (hrun : run step s as = some t) : Inv t :=
  run_history_of_meets (fun _ s => Inv s) hs (fun _ s a u hs ha hu => hstep s a u hs ha hu)
    hmeets hrun

/-- The ranking rule: where every step lowers a rank by what its label costs, the labels of a run
cost no more than the rank it starts from. -/
theorem run_ranking (Inv : σ → Prop) (rank : σ → ℕ) (cost : α → ℕ) {s t : σ} {as : List α}
    (hstep : ∀ s a t, Inv s → step s a = some t → Inv t ∧ rank t + cost a ≤ rank s) (hs : Inv s)
    (hrun : run step s as = some t) : Inv t ∧ rank t + (as.map cost).sum ≤ rank s := by
  induction as generalizing s with
  | nil =>
      rw [run_nil, Option.some.injEq] at hrun
      subst hrun
      exact ⟨hs, by simp⟩
  | cons a as ih =>
      obtain ⟨u, hu, hrest⟩ := run_cons_eq_some.mp hrun
      obtain ⟨hInv, hlower⟩ := hstep s a u hs hu
      obtain ⟨ht, hle⟩ := ih hInv hrest
      rw [List.map_cons, List.sum_cons]
      exact ⟨ht, by omega⟩

theorem sum_map_ite (p : α → Bool) (k : ℕ) (as : List α) :
    (as.map fun a => if p a then k else 0).sum = k * as.countP p := by
  induction as with
  | nil => rfl
  | cons a as ih =>
      rw [List.map_cons, List.sum_cons, ih, List.countP_cons]
      split
      · rw [Nat.mul_succ, Nat.add_comm]
      · rw [Nat.add_zero, Nat.zero_add]

/-- The amortized rule: where every step of a guarded run lowers a potential by what its label
costs, but for what its label pays in, the labels cost no more than the potential and the
payments. -/
theorem run_amortized (Inv : σ → Prop) (potential : σ → ℕ) (cost credit : α → ℕ) {s t : σ}
    {as : List α}
    (hstep : ∀ s a t, Inv s → guard s a → step s a = some t →
      Inv t ∧ potential t + cost a ≤ potential s + credit a)
    (hs : Inv s) (hmeets : Meets step guard s as) (hrun : run step s as = some t) :
    Inv t ∧ potential t + (as.map cost).sum ≤ potential s + (as.map credit).sum := by
  induction as generalizing s with
  | nil =>
      rw [run_nil, Option.some.injEq] at hrun
      subst hrun
      exact ⟨hs, le_rfl⟩
  | cons a as ih =>
      obtain ⟨u, hu, hrest⟩ := run_cons_eq_some.mp hrun
      obtain ⟨hInv, hlower⟩ := hstep s a u hs hmeets.1 hu
      obtain ⟨ht, hle⟩ := ih hInv (hmeets.2 u hu) hrest
      simp only [List.map_cons, List.sum_cons]
      exact ⟨ht, by omega⟩

/-- Where a step from a state with the property keeps it exactly if it meets the guard, a run meets
the guard exactly if every state it passes has the property. -/
theorem meets_iff_reached (Inv P : σ → Prop) {good : α → Prop} {s t : σ} {as : List α}
    (hstep : ∀ s a t, good a → Inv s → step s a = some t → Inv t)
    (hiff : ∀ s a t, good a → Inv s → P s → step s a = some t → (guard s a ↔ P t))
    (has : ∀ a ∈ as, good a) (hs : Inv s) (hP : P s) (hrun : run step s as = some t) :
    Meets step guard s as ↔ ∀ front u, front <+: as → run step s front = some u → P u := by
  induction as generalizing s with
  | nil =>
      apply iff_of_true (meets_nil s)
      intro front u hfront hu
      rw [List.prefix_nil.mp hfront, run_nil, Option.some.injEq] at hu
      exact hu ▸ hP
  | cons a as ih =>
      obtain ⟨u, hu, hrest⟩ := run_cons_eq_some.mp hrun
      have ha := has a List.mem_cons_self
      have has' : ∀ b ∈ as, good b := fun b hb => has b (List.mem_cons_of_mem a hb)
      have hInv := hstep s a u ha hs hu
      have hguard := hiff s a u ha hs hP hu
      constructor
      · intro hmeets front v hfront hv
        obtain ⟨hfirst, hmeets⟩ := hmeets
        have hu' := hguard.mp hfirst
        cases front with
        | nil =>
            rw [run_nil, Option.some.injEq] at hv
            exact hv ▸ hP
        | cons b front =>
            obtain ⟨rfl, htail⟩ := List.cons_prefix_cons.mp hfront
            obtain ⟨w, hw, hv⟩ := run_cons_eq_some.mp hv
            rw [hu, Option.some.injEq] at hw
            subst hw
            exact (ih has' hInv hu' hrest).mp (hmeets u hu) front v htail hv
      · intro hall
        have hu' : P u := hall [a] u (List.prefix_append [a] as) (run_cons_eq_some.mpr ⟨u, hu, rfl⟩)
        refine ⟨hguard.mpr hu', fun v hv => ?_⟩
        rw [hu, Option.some.injEq] at hv
        subst hv
        apply (ih has' hInv hu' hrest).mpr
        intro front v hfront hv
        exact hall (a :: front) v (List.cons_prefix_cons.mpr ⟨rfl, hfront⟩)
          (run_cons_eq_some.mpr ⟨u, hu, hv⟩)

/-- A guard that good labels meet in every state of the invariant is met along a run of them. -/
theorem meets_of_invariant (Inv : σ → Prop) {good : α → Prop} {s : σ} {as : List α}
    (hguard : ∀ s a, good a → Inv s → guard s a)
    (hstep : ∀ s a t, good a → Inv s → step s a = some t → Inv t) (hs : Inv s)
    (has : ∀ a ∈ as, good a) : Meets step guard s as := by
  induction as generalizing s with
  | nil => exact meets_nil s
  | cons a as ih =>
      have ha := has a List.mem_cons_self
      exact ⟨hguard s a ha hs, fun t ht =>
        ih (hstep s a t ha hs ht) fun b hb => has b (List.mem_cons_of_mem a hb)⟩

/-- The progress rule: where what holds before a step, for the labels that are left, makes the step
possible and holds for the rest after it, there is a run. -/
theorem exists_run (Inv : List α → σ → Prop)
    (hstep : ∀ a as s, Inv (a :: as) s → ∃ t, step s a = some t ∧ Inv as t) {s : σ} {as : List α}
    (hs : Inv as s) : ∃ t, run step s as = some t ∧ Inv [] t := by
  induction as generalizing s with
  | nil => exact ⟨s, rfl, hs⟩
  | cons a as ih =>
      obtain ⟨u, hu, hInv⟩ := hstep a as s hs
      obtain ⟨t, ht, hnil⟩ := ih hInv
      exact ⟨t, run_cons_eq_some.mpr ⟨u, hu, ht⟩, hnil⟩

/-! ### Undefined states

States from which nothing is known of the steps that are taken: any state may follow. -/

section undefined

variable {bad : σ → Prop}

/-- The states that may come behind the labels if any may follow a bad one. -/
def MayReach (step : σ → α → Option σ) (bad : σ → Prop) : σ → List α → σ → Prop
  | s, [], t => s = t
  | s, a :: as, t => bad s ∨ ∃ u, step s a = some u ∧ MayReach step bad u as t

/-- Behind labels that pass no bad state comes what the machine says. -/
theorem MayReach.run {s t : σ} {as : List α} (h : MayReach step bad s as t)
    (hmeets : Meets step (fun s _ => ¬ bad s) s as) : run step s as = some t := by
  induction as generalizing s with
  | nil => exact congrArg some h
  | cons a as ih =>
      obtain ⟨u, hu, hrest⟩ := h.resolve_left hmeets.1
      exact run_cons_eq_some.mpr ⟨u, hu, ih hrest (hmeets.2 u hu)⟩

theorem mayReach_of_run {s t : σ} {as : List α} (h : run step s as = some t) :
    MayReach step bad s as t := by
  induction as generalizing s with
  | nil => exact Option.some.inj h
  | cons a as ih =>
      obtain ⟨u, hu, hrest⟩ := run_cons_eq_some.mp h
      exact .inr ⟨u, hu, ih hrest⟩

end undefined

/-! ### Projections

A map of states that commutes with the steps of two machines over the same labels. -/

section projection

variable {τ : Type*} {step' : τ → α → Option τ} {f : σ → τ}
  (hstep : ∀ s a, (step s a).map f = step' (f s) a)
include hstep

theorem map_run (s : σ) (as : List α) : (run step s as).map f = run step' (f s) as := by
  induction as generalizing s with
  | nil => rfl
  | cons a as ih =>
      rw [run, run, ← hstep, Option.map_bind]
      cases step s a with
      | none => rfl
      | some t => exact ih t

theorem meets_map {guard' : τ → α → Prop} {s : σ} {as : List α} :
    Meets step (fun s a => guard' (f s) a) s as ↔ Meets step' guard' (f s) as := by
  induction as generalizing s with
  | nil => exact iff_of_true (meets_nil s) (meets_nil (f s))
  | cons a as ih =>
      rw [Meets, Meets]
      apply and_congr_right
      intro _
      constructor
      · intro h t ht
        rw [← hstep] at ht
        obtain ⟨u, hu, rfl⟩ := Option.map_eq_some_iff.mp ht
        exact ih.mp (h u hu)
      · intro h u hu
        apply ih.mpr
        apply h
        rw [← hstep, hu]
        rfl

end projection

/-- A map of states under which a step of the one machine is a step of the other, or nothing. -/
def Projects {β τ : Type*} (step : σ → α → Option σ) (step' : τ → β → Option τ) (f : σ → τ)
    (label : α → Option β) : Prop :=
  ∀ s a t, step s a = some t → (label a).elim (some (f s)) (step' (f s)) = some (f t)

section labels

variable {β τ : Type*} {step' : τ → β → Option τ} {f : σ → τ} {label : α → Option β}

theorem Projects.run (h : Projects step step' f label) {s t : σ} {as : List α}
    (hrun : Machine.run step s as = some t) :
    Machine.run step' (f s) (as.filterMap label) = some (f t) := by
  induction as generalizing s with
  | nil =>
      cases hrun
      rfl
  | cons a as ih =>
      obtain ⟨u, hu, hrest⟩ := run_cons_eq_some.mp hrun
      have hone := h s a u hu
      rw [List.filterMap_cons]
      cases hlabel : label a with
      | none =>
          rw [hlabel, Option.elim_none, Option.some.injEq] at hone
          rw [hone]
          exact ih hrest
      | some b =>
          rw [hlabel] at hone
          exact run_cons_eq_some.mpr ⟨f u, hone, ih hrest⟩

theorem Projects.meets (h : Projects step step' f label) {guard' : τ → β → Prop}
    {s t : σ} {as : List α}
    (hmeets : Meets step (fun s a => ∀ b ∈ label a, guard' (f s) b) s as)
    (hrun : Machine.run step s as = some t) : Meets step' guard' (f s) (as.filterMap label) := by
  induction as generalizing s with
  | nil => exact meets_nil (f s)
  | cons a as ih =>
      obtain ⟨u, hu, hrest⟩ := run_cons_eq_some.mp hrun
      have hone := h s a u hu
      have htail := ih (hmeets.2 u hu) hrest
      rw [List.filterMap_cons]
      cases hlabel : label a with
      | none =>
          rw [hlabel, Option.elim_none, Option.some.injEq] at hone
          rw [hone]
          exact htail
      | some b =>
          rw [hlabel, Option.elim_some] at hone
          refine ⟨hmeets.1 b hlabel, fun v hv => ?_⟩
          rw [hone, Option.some.injEq] at hv
          exact hv ▸ htail

end labels

end Machine
