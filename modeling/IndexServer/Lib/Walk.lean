import Mathlib.Data.Finite.Defs
import Mathlib.Data.Set.Finite.Basic
import Mathlib.Logic.Relation
import Mathlib.Order.WellFounded

/-!
# Walks

A walk follows one link from each place until there is none. Among finitely many places it ends
exactly if it never comes back to a place that it has left.
-/

namespace Walk

variable {α : Type*} (next : α → Option α)

def Goes (a b : α) : Prop := next a = some b

/-- The walk from the one place comes to the other. -/
def Leads : α → α → Prop := Relation.ReflTransGen (Goes next)

def Returns (a : α) : Prop := Relation.TransGen (Goes next) a a

/-- The walk from the place comes to one without a link. -/
inductive Ends : α → Prop
  | stop {a : α} (h : next a = none) : Ends a
  | go {a b : α} (h : next a = some b) (hrest : Ends b) : Ends a

variable {next} {a b c : α}

theorem goes_unique (h : Goes next a b) (h' : Goes next a c) : b = c :=
  Option.some.inj (h.symm.trans h')

theorem leads_of_none (h : next a = none) (hleads : Leads next a b) : b = a := by
  cases Relation.ReflTransGen.cases_head hleads with
  | inl heq => exact heq.symm
  | inr hstep =>
      obtain ⟨c, hgoes, _⟩ := hstep
      exact absurd (h.symm.trans hgoes) (by simp)

theorem leads_of_some (h : next a = some b) (hleads : Leads next a c) : c = a ∨ Leads next b c := by
  refine (Relation.ReflTransGen.cases_head hleads).imp Eq.symm ?_
  rintro ⟨d, hgoes, hrest⟩
  exact goes_unique h hgoes ▸ hrest

theorem Ends.leads (h : Ends next a) (hleads : Leads next a b) : Ends next b := by
  induction hleads with
  | refl => exact h
  | tail _ hgoes ih =>
      cases ih with
      | stop hnone => exact absurd (hnone.symm.trans hgoes) (by simp)
      | go hsome hrest => exact goes_unique hsome hgoes ▸ hrest

theorem Ends.not_returns (h : Ends next a) : ¬ Returns next a := by
  induction h with
  | stop hnone =>
      intro hreturns
      obtain ⟨b, hgoes, _⟩ := Relation.TransGen.head'_iff.mp hreturns
      exact absurd (hnone.symm.trans hgoes) (by simp)
  | go hsome _ ih =>
      intro hreturns
      obtain ⟨b, hgoes, hback⟩ := Relation.TransGen.head'_iff.mp hreturns
      cases goes_unique hsome hgoes
      exact ih (Relation.TransGen.tail' hback hgoes)

/-- A walk among finitely many places ends exactly if it comes back to none of them. -/
theorem ends_iff (hfinite : {b | Leads next a b}.Finite) :
    Ends next a ↔ ∀ b, Leads next a b → ¬ Returns next b := by
  constructor
  · exact fun h b hleads => (h.leads hleads).not_returns
  · intro hnever
    -- the places that the walk comes to, the later ones below the earlier ones
    let places := {b // Leads next a b}
    have hplaces : Finite places := hfinite
    let later : places → places → Prop := fun x y => Relation.TransGen (Goes next) y.1 x.1
    have htrans : IsTrans places later := ⟨fun _ _ _ hxy hyz => hyz.trans hxy⟩
    have hirrefl : Std.Irrefl later := ⟨fun x => hnever x.1 x.2⟩
    have hwell : WellFounded later := Finite.wellFounded_of_trans_of_irrefl later
    have hall : ∀ x : places, Ends next x.1 := by
      intro x
      induction x using hwell.induction with
      | _ x ih =>
          cases hnext : next x.1 with
          | none => exact .stop hnext
          | some b =>
              have hleads : Leads next a b := x.2.tail hnext
              exact .go hnext (ih ⟨b, hleads⟩ (.single hnext))
    exact hall ⟨a, .refl⟩

end Walk
