import IndexServer.HashTable.GrowthLookup
import IndexServer.Lib.Multimap

/-!
# A table as a multimap

An insertion whose slot is open, that is, without a second key that would be lost or confused, acts
on lookups as the insertion into a multimap does. While all insertions are of this kind the
collision entries hold, key by key, what lookups find behind the heads.
-/

namespace IndexServer

namespace HashTable

open Multimap

/-! ### Slots -/

/-- The slot has no entry behind its head that an insertion of the key would lose or misplace. -/
def Slot.Open (key : WString) : Slot → Prop
  | .linked head entry => head.key = key ∨ (entry.key ≠ key ∧ entry.value = [])
  | _ => True

instance (key : WString) : DecidablePred (Slot.Open key)
  | .linked head entry =>
      inferInstanceAs (Decidable (head.key = key ∨ (entry.key ≠ key ∧ entry.value = [])))
  | .vacant => isTrue trivial
  | .single _ => isTrue trivial

def Slot.Fronts (key : WString) : Slot → Prop
  | .vacant => False
  | .single head => head.key = key
  | .linked head _ => head.key = key

instance (key : WString) : DecidablePred (Slot.Fronts key)
  | .vacant => isFalse not_false
  | .single head => inferInstanceAs (Decidable (head.key = key))
  | .linked head _ => inferInstanceAs (Decidable (head.key = key))

/-- What the slot has under the key behind its head. -/
def Slot.behind (key : WString) (s : Slot) : List WString :=
  if s.Fronts key then [] else s.find key

def Slot.appends (key : WString) (value : List WString) : Slot → List HashItem
  | .vacant => []
  | .single head => if head.key = key then [] else [newItem key value]
  | .linked head entry =>
      if head.key = key then [] else if entry.key = key then [] else [newItem key value]

def pairs (entries : List HashItem) : List (WString × List WString) :=
  entries.map fun e => (e.key, e.value)

theorem pairs_cons (entry : HashItem) (rest : List HashItem) :
    pairs (entry :: rest) = (entry.key, entry.value) :: pairs rest := rfl

theorem pairs_append (first last : List HashItem) :
    pairs (first ++ last) = pairs first ++ pairs last := List.map_append

variable {key : WString} {s : Slot}

theorem Slot.mem_appends {value : List WString} {entry : HashItem}
    (h : entry ∈ s.appends key value) : entry = newItem key value := by
  cases s with
  | vacant => exact absurd h List.not_mem_nil
  | single head =>
      rw [Slot.appends] at h
      split at h
      · exact absurd h List.not_mem_nil
      · exact List.mem_singleton.mp h
  | linked head behind =>
      rw [Slot.appends] at h
      split at h
      · exact absurd h List.not_mem_nil
      · split at h
        · exact absurd h List.not_mem_nil
        · exact List.mem_singleton.mp h

theorem Slot.Open.not_behind (hs : s.Open key) : ¬ s.Behind key := by
  cases s with
  | vacant => exact not_false
  | single => exact not_false
  | linked head entry =>
      rintro ⟨hhead, hentry⟩
      exact (hs.resolve_left hhead).1 hentry

theorem Slot.find_insert (hs : s.Open key) (value : List WString) (next : Int) (k : WString) :
    (s.insert key value next).find k = Multimap.insert (fun k => s.find k) key value k := by
  rw [insert_apply]
  cases s with
  | vacant =>
      by_cases hvalue : value = []
      · simp [Slot.insert, Slot.find, hvalue]
      · simp [Slot.insert, Slot.find, hvalue, newItem]
  | single head =>
      by_cases hhead : head.key = key
      · by_cases hk : k = key
        · simp [Slot.insert, Slot.find, hhead, hk]
        · simp [Slot.insert, Slot.find, hhead, hk]
      · by_cases hk : k = key
        · simp [Slot.insert, Slot.find, hhead, hk, newItem, Ne.symm hhead]
        · simp [Slot.insert, Slot.find, hhead, hk, newItem]
  | linked head entry =>
      by_cases hhead : head.key = key
      · by_cases hk : k = key
        · simp [Slot.insert, Slot.find, hhead, hk]
        · simp [Slot.insert, Slot.find, hhead, hk]
      · obtain ⟨hentry, hempty⟩ := hs.resolve_left hhead
        by_cases hk : k = key
        · simp [Slot.insert, Slot.find, hhead, hentry, hempty, hk, newItem, Ne.symm hhead]
        · simp [Slot.insert, Slot.find, hhead, hentry, hempty, hk, newItem]

theorem Slot.behind_insert (hs : s.Open key) (value : List WString) (next : Int) (k : WString) :
    (s.insert key value next).behind k =
      s.behind k ++ collect (pairs (s.appends key value)) k := by
  cases s with
  | vacant =>
      by_cases hvalue : value = []
      · simp [Slot.insert, Slot.behind, Slot.find, Slot.appends, pairs, hvalue]
      · by_cases hk : k = key
        · simp [Slot.insert, Slot.behind, Slot.Fronts, Slot.find, Slot.appends, pairs, hvalue, hk,
            newItem]
        · simp [Slot.insert, Slot.behind, Slot.find, Slot.appends, pairs, hvalue, hk, newItem]
  | single head =>
      by_cases hhead : head.key = key
      · by_cases hk : key = k
        · simp [Slot.insert, Slot.behind, Slot.Fronts, Slot.appends, pairs, hhead, hk]
        · simp [Slot.insert, Slot.behind, Slot.Fronts, Slot.find, Slot.appends, pairs, hhead, hk,
            Ne.symm hk]
      · have hfront : head.key = k → k ≠ key := by
          rintro rfl
          exact hhead
        by_cases hk : head.key = k
        · simp [Slot.insert, Slot.behind, Slot.Fronts, Slot.appends, pairs, hk, newItem,
            collect_singleton, hfront hk]
        · simp [Slot.insert, Slot.behind, Slot.Fronts, Slot.find, Slot.appends, pairs, hhead, hk,
            Ne.symm hk, newItem, collect_singleton]
  | linked head entry =>
      by_cases hhead : head.key = key
      · by_cases hk : key = k
        · simp [Slot.insert, Slot.behind, Slot.Fronts, Slot.appends, pairs, hhead, hk]
        · simp [Slot.insert, Slot.behind, Slot.Fronts, Slot.find, Slot.appends, pairs, hhead, hk,
            Ne.symm hk]
      · obtain ⟨hentry, hempty⟩ := hs.resolve_left hhead
        have hfront : head.key = k → k ≠ key := by
          rintro rfl
          exact hhead
        by_cases hk : head.key = k
        · simp [Slot.insert, Slot.behind, Slot.Fronts, Slot.appends, pairs, hentry, hk, newItem,
            collect_singleton, hfront hk]
        · simp [Slot.insert, Slot.behind, Slot.Fronts, Slot.find, Slot.appends, pairs, hhead,
            hentry, hempty, hk, Ne.symm hk, newItem, collect_singleton]

/-! ### Insertions -/

def Fronts (T : HashTable) (key : WString) : Prop := (T.slot (home T.size key)).Fronts key

instance (T : HashTable) (key : WString) : Decidable (T.Fronts key) :=
  inferInstanceAs (Decidable (Slot.Fronts key _))

/-- An insertion that passes the capacity test finds its slot open. -/
def Harmless (T : HashTable) (key : WString) (value : List WString) : Prop :=
  T.Fits key value → (T.slot (home T.size key)).Open key

instance (T : HashTable) (key : WString) (value : List WString) :
    Decidable (T.Harmless key value) :=
  inferInstanceAs (Decidable (T.currentCapacity + charge key value < maxCapacity → _))

/-- The collision entries hold what lookups find behind the heads. -/
def Settled (T : HashTable) : Prop :=
  ∀ key, collect (pairs T.colisions) key = (T.slot (home T.size key)).behind key

theorem new_settled (n : ℕ) : (new n).Settled := by
  intro key
  have hvacant : (new n).slot (home n key) = .vacant := by
    cases hcell : (new n).items[home n key]? with
    | none => rw [slot, hcell]
    | some cell => exact slot_eq_vacant hcell (by rw [new_getElem? hcell])
  change [] = ((new n).slot (home n key)).behind key
  rw [hvacant]
  rfl

namespace AddResult

variable {T T' : HashTable} {value : List WString} {code : ℕ}

theorem colisions_eq (h : AddResult T key value T' code) (hcode : code = 0) :
    T'.colisions = T.colisions ++ (T.slot (home T.size key)).appends key value := by
  cases h with
  | maxed => cases hcode
  | full => cases hcode
  | placed _ hcell hvacant =>
      rw [slot_eq_vacant hcell hvacant]
      rfl
  | @extended _ head hcell hvalue hhead =>
      have hnone : (T.slot (home T.size key)).appends key value = [] := by
        rw [slot, hcell]
        dsimp only
        rw [if_neg hvalue]
        split
        · exact if_pos hhead
        · split
          · exact if_pos hhead
          · exact if_pos hhead
      rw [hnone]
      rfl
  | pushed _ hcell hvalue hhead hnext =>
      rw [slot_eq_single hcell hvalue hnext, Slot.appends, if_neg hhead]
      rfl
  | merged _ hcell hvalue hhead hnext hentry hkey =>
      rw [slot_eq_linked hcell hvalue hnext hentry, Slot.appends, if_neg hhead, if_pos hkey]
      rfl
  | relinked _ hcell hvalue hhead hnext hentry hkey =>
      rw [slot_eq_linked hcell hvalue hnext hentry, Slot.appends, if_neg hhead, if_neg hkey]
      rfl

/-- To lookups, a harmless insertion is one into a multimap. -/
theorem lookup_eq (h : AddResult T key value T' code) (hT : T.Sound)
    (hharmless : T.Harmless key value) :
    T'.lookup = if code = 0 then Multimap.insert T.lookup key value else T.lookup := by
  split
  · next hcode =>
      have hopen := hharmless (h.fits hcode)
      funext k
      rw [lookup, h.size_eq]
      by_cases hhome : home T.size k = home T.size key
      · rw [hhome, h.slot_self hT hcode, Slot.find_insert hopen, insert_apply, insert_apply, lookup,
          lookup, hhome]
      · have hk : k ≠ key := by
          rintro rfl
          exact hhome rfl
        rw [h.slot_ne hT hhome, insert_of_ne _ _ hk, lookup]
  · next hcode => rw [h.eq_of_code_ne hcode]

theorem settled (h : AddResult T key value T' code) (hT : T.Sound) (hsettled : T.Settled)
    (hharmless : T.Harmless key value) : T'.Settled := by
  by_cases hcode : code = 0
  · have hopen := hharmless (h.fits hcode)
    intro k
    rw [h.colisions_eq hcode, pairs_append, collect_append, hsettled k, h.size_eq]
    by_cases hhome : home T.size k = home T.size key
    · rw [hhome, h.slot_self hT hcode, Slot.behind_insert hopen]
    · have hk : k ≠ key := by
        rintro rfl
        exact hhome rfl
      have hnone : collect (pairs ((T.slot (home T.size key)).appends key value)) k = [] := by
        apply collect_eq_nil_of_forall
        intro e he hsame
        obtain ⟨entry, hentry, rfl⟩ := List.mem_map.mp he
        rw [Slot.mem_appends hentry] at hsame
        exact absurd hsame.symm hk
      rw [h.slot_ne hT hhome, hnone, List.append_nil]
  · rw [h.eq_of_code_ne hcode]
    exact hsettled

end AddResult

end HashTable

end IndexServer
