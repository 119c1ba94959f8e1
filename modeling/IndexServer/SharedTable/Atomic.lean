import IndexServer.SharedTable.Apart

/-!
# What a lookup sees of insertions at once

Where no two insertions that run at once go into one cell, a lookup that reads `colisions` beside no
push sees each of them entirely or not at all, and any two runs to the end agree on every lookup.
The invariant says of each cell that it is as it was at first, or as the one call whose key belongs
to it makes it alone.
-/

namespace IndexServer

open HashTable (newItem home Usable)

variable {T : HashTable} {key : WString} {value : List WString}

/-- No two calls of `add` have keys of one cell. -/
def Apart {ι : Type} (T : HashTable) (requests : ι → Request) : Prop :=
  ∀ c d key value key' value', requests c = .add key value → requests d = .add key' value' →
    home T.size key = home T.size key' → c = d

namespace SharedTable

variable {ι : Type} {requests : ι → Request} {s t : SharedTable ι} {c : ι}

/-- Every cell is as it was at first, or as the call whose key belongs to it makes it alone. -/
structure Isolated (T : HashTable) (requests : ι → Request) (s : SharedTable ι) : Prop where
  unstopped : s.Unstopped
  follows : Follows T s.table
  own : ∀ i, (∀ c key value, requests c = .add key value → home T.size key = i →
    (s.caller (some c)).stored = false) → s.table.items[i]? = T.items[i]?
  adds : ∀ c key value, requests c = .add key value →
    (s.caller (some c)).Traces T s.table key value
  gets : ∀ c key, requests c = .get key → (s.caller (some c)).Sees T s.table requests key

theorem calling_isolated (hT : T.Sound) : (calling T requests).Isolated T requests where
  unstopped := ⟨rfl, fun _ _ => .inl rfl⟩
  follows := ⟨hT, rfl, List.prefix_refl _, le_rfl, le_rfl⟩
  own _ _ := rfl
  adds c key value hrequest := by
    show (requests c).access = .find (newItem key value)
    rw [hrequest]
    rfl
  gets c key hrequest := by
    show (requests c).access = .look key
    rw [hrequest]
    rfl

/-- The cell of an insertion that has happened offers what the insertion alone makes of it. -/
theorem Isolated.get_of_stored (hs : s.Isolated T requests) (hT : T.Sound) {k : WString}
    (hrequest : requests c = .add k value) (hstored : (s.caller (some c)).stored = true)
    (hkey : Usable T.size key) (hhome : home T.size key = home T.size k) :
    ∃ T', T.add k value = .ok (T', 0) ∧ s.table.get key = T'.get key := by
  obtain ⟨T', hadd, hfind⟩ := (hs.adds c k value hrequest).shows hstored
  obtain ⟨hk, hresult⟩ := hT.add_eq_ok hadd
  refine ⟨T', hadd, ?_⟩
  rw [hs.follows.get_eq hkey, (hresult.sound hT hk).get_eq (hresult.size_eq.symm ▸ hkey),
    hresult.size_eq, hhome, hfind key]

theorem Isolated.get_of_none (hs : s.Isolated T requests) (hT : T.Sound)
    (hkey : Usable T.size key)
    (hnone : ∀ c k v, requests c = .add k v → home T.size k = home T.size key →
      (s.caller (some c)).stored = false) : s.table.get key = T.get key := by
  rw [hs.follows.get_eq hkey, hT.get_eq hkey,
    hT.slot_eq (hs.own _ hnone) hs.follows.colisions]

theorem Isolated.seen (hs : s.Isolated T requests) (hT : T.Sound) (hkey : Usable T.size key) :
    Seen T requests key ((s.table.slot (home T.size key)).find key) := by
  have hget := hs.follows.get_eq hkey
  by_cases hstored : ∃ c k v, requests c = .add k v ∧ home T.size k = home T.size key ∧
      (s.caller (some c)).stored = true
  · obtain ⟨c, k, v, hrequest, hhome, hstored⟩ := hstored
    obtain ⟨T', hadd, hsame⟩ := hs.get_of_stored hT hrequest hstored hkey hhome.symm
    exact .inr ⟨c, k, v, T', hrequest, hhome, hadd, hsame.symm.trans hget⟩
  · refine .inl ((hs.get_of_none hT hkey fun c k v hrequest hhome => ?_).symm.trans hget)
    by_contra hnot
    exact hstored ⟨c, k, v, hrequest, hhome, Bool.not_eq_false _ ▸ hnot⟩

variable [DecidableEq ι]

theorem Isolated.turn (hs : s.Isolated T requests) (hT : T.Sound)
    (husable : ∀ c, Usable T.size (requests c).key) (hapart : Apart T requests)
    (hturn : s.turn c = some t) : t.Isolated T requests := by
  by_cases hcheck : (s.caller (some c)).checks = true ∧ s.parking.thread (some c) ≠ .outside
  · obtain ⟨hcheck, hunstopped⟩ := hs.unstopped.turn_check hcheck.1 hcheck.2
    rw [hcheck, Option.some.injEq] at hturn
    exact hturn ▸ ⟨hunstopped, hs.follows, hs.own, hs.adds, hs.gets⟩
  · rw [SharedTable.turn, work, if_neg hcheck] at hturn
    obtain ⟨⟨T', p⟩, hmove, rfl⟩ := Option.map_eq_some_iff.mp hturn
    have hunstopped := hs.unstopped.set c T' p
    have hkey := husable c
    have hcaller : ∀ d, d ≠ c → (s.set (some c) T' p).caller (some d) = s.caller (some d) :=
      fun d hdc => set_caller_ne s (fun heq => hdc (Option.some.inj heq)) T' p
    cases hrequest : requests c with
    | add key value =>
        rw [hrequest] at hkey
        have hown : (s.caller (some c)).stored = false →
            s.table.items[home T.size key]? = T.items[home T.size key]? := by
          refine fun hstored => hs.own _ fun d k v hd hhome => ?_
          rw [hapart d c k v key value hd hrequest hhome]
          exact hstored
        have hadvances := (hs.adds c key value hrequest).move hT hkey hs.follows hown hmove
        refine ⟨hunstopped, hadvances.follows, fun i hi => ?_, fun d k v hd => ?_,
          fun d k hd => ?_⟩
        · by_cases hhome : home T.size key = i
          · subst hhome
            have hstored := hi c key value hrequest rfl
            rw [set_caller_self] at hstored
            exact hadvances.own hstored
          · rw [show (s.set (some c) T' p).table.items[i]? = s.table.items[i]? from
              hadvances.others i (Ne.symm hhome)]
            refine hs.own i fun d k v hd hdi => ?_
            have hdc : d ≠ c := by
              rintro rfl
              cases hrequest.symm.trans hd
              exact hhome hdi
            rw [← hcaller d hdc]
            exact hi d k v hd hdi
        · by_cases hdc : d = c
          · subst hdc
            cases hrequest.symm.trans hd
            rw [set_caller_self]
            exact hadvances.traces
          · have hother : home T.size k ≠ home T.size key := fun hhome =>
              hdc (hapart d c k v key value hd hrequest hhome)
            rw [hcaller d hdc]
            exact (hs.adds d k v hd).mono hadvances.more fun hshows =>
              hs.follows.shows hshows (hadvances.others _ hother) hadvances.more
        · have hdc : d ≠ c := by
            rintro rfl
            cases hrequest.symm.trans hd
          rw [hcaller d hdc]
          exact (hs.gets d k hd).mono hadvances.more
    | get key =>
        rw [hrequest] at hkey
        obtain ⟨rfl, hsees⟩ := (hs.gets c key hrequest).move hs.follows hkey (hs.seen hT hkey) hmove
        have hadd : ∀ d k v, requests d = .add k v → d ≠ c := by
          rintro d k v hd rfl
          cases hrequest.symm.trans hd
        refine ⟨hunstopped, hs.follows, fun i hi => hs.own i fun d k v hd hdi => ?_,
          fun d k v hd => ?_, fun d k hd => ?_⟩
        · rw [← hcaller d (hadd d k v hd)]
          exact hi d k v hd hdi
        · rw [hcaller d (hadd d k v hd)]
          exact hs.adds d k v hd
        · by_cases hdc : d = c
          · subst hdc
            cases hrequest.symm.trans hd
            rw [set_caller_self]
            exact hsees
          · rw [hcaller d hdc]
            exact hs.gets d k hd

theorem run_isolated (hT : T.Sound) (husable : ∀ c, Usable T.size (requests c).key)
    (hapart : Apart T requests) {cs : List ι}
    (hrun : Machine.run SharedTable.turn (calling T requests) cs = some s) :
    s.Isolated T requests :=
  Machine.run_history (fun _ s => s.Isolated T requests) (calling_isolated hT)
    (fun _ _ _ _ _ hs hturn => hs.turn hT husable hapart hturn) hrun

/-- As long as no lookup reads `colisions` beside a push, it finds what the table offers at first or
behind one insertion alone, whether it takes its steps among those of the insertions or `get` is
called when none of them is about to push. -/
theorem run_atomic (hT : T.Sound) (husable : ∀ c, Usable T.size (requests c).key)
    (hapart : Apart T requests) {cs : List ι}
    (hraces : Machine.Meets SharedTable.turn (fun s _ => ¬ s.Races) (calling T requests) cs)
    (hreach : Machine.MayReach SharedTable.turn Races (calling T requests) cs s) {key : WString}
    (hkey : Usable T.size key) :
    ((∀ c, (s.caller (some c)).pushes = false) →
      ∃ found, s.table.get key = .ok found ∧ Seen T requests key found) ∧
      ∀ c found, requests c = .get key → s.caller (some c) = .got found →
        Seen T requests key found := by
  have hs := run_isolated hT husable hapart (hreach.run hraces)
  refine ⟨fun _ => ⟨_, hs.follows.get_eq hkey, hs.seen hT hkey⟩, fun c found hrequest hgot => ?_⟩
  have hsees := hs.gets c key hrequest
  rw [hgot] at hsees
  exact hsees

/-- An insertion that has returned `0` shows as it does alone, and one that was refused does not
show. -/
theorem run_isolates (hT : T.Sound) (husable : ∀ c, Usable T.size (requests c).key)
    (hapart : Apart T requests) {cs : List ι}
    (hrun : Machine.run SharedTable.turn (calling T requests) cs = some s) {c : ι} {code : ℕ}
    {k key : WString} {value : List WString} (hrequest : requests c = .add k value)
    (hreturned : s.caller (some c) = .returned code) (hkey : Usable T.size key)
    (hhome : home T.size key = home T.size k) :
    if code = 0 then ∃ T', T.add k value = .ok (T', 0) ∧ s.table.get key = T'.get key
    else s.table.get key = T.get key := by
  have hs := run_isolated hT husable hapart hrun
  split
  case isTrue hcode =>
    subst hcode
    exact hs.get_of_stored hT hrequest (hreturned ▸ rfl) hkey hhome
  case isFalse hcode =>
    refine hs.get_of_none hT hkey fun d k' v hd hdi => ?_
    rw [hapart d c k' v k value hd hrequest (hdi.trans hhome), hreturned]
    exact beq_eq_false_iff_ne.mpr hcode

/-- Two runs to the end in which the same insertions are refused agree on every lookup. As every
serial order is one of the runs, so does every run with every serial order. -/
theorem run_agree (hT : T.Sound) (husable : ∀ c, Usable T.size (requests c).key)
    (hapart : Apart T requests) {cs cs' : List ι} {s' : SharedTable ι}
    (hrun : Machine.run SharedTable.turn (calling T requests) cs = some s)
    (hrun' : Machine.run SharedTable.turn (calling T requests) cs' = some s')
    (hsame : ∀ c key value, requests c = .add key value → ∃ code code',
      s.caller (some c) = .returned code ∧ s'.caller (some c) = .returned code' ∧
        (code = 0 ↔ code' = 0)) {key : WString} (hkey : Usable T.size key) :
    s.table.get key = s'.table.get key := by
  have hs := run_isolated hT husable hapart hrun
  have hs' := run_isolated hT husable hapart hrun'
  by_cases hstored : ∃ c k v, requests c = .add k v ∧ home T.size k = home T.size key ∧
      (s.caller (some c)).stored = true
  · obtain ⟨c, k, v, hrequest, hhome, hstored⟩ := hstored
    obtain ⟨code, code', hreturned, hreturned', hcodes⟩ := hsame c k v hrequest
    have hstored' : (s'.caller (some c)).stored = true := by
      rw [hreturned] at hstored
      rw [hreturned']
      exact beq_iff_eq.mpr (hcodes.mp (beq_iff_eq.mp hstored))
    obtain ⟨T₁, hadd, hget⟩ := hs.get_of_stored hT hrequest hstored hkey hhome.symm
    obtain ⟨T₂, hadd', hget'⟩ := hs'.get_of_stored hT hrequest hstored' hkey hhome.symm
    cases hadd.symm.trans hadd'
    rw [hget, hget']
  · have hnone : ∀ c k v, requests c = .add k v → home T.size k = home T.size key →
        (s.caller (some c)).stored = false := by
      intro c k v hrequest hhome
      by_contra hnot
      exact hstored ⟨c, k, v, hrequest, hhome, Bool.not_eq_false _ ▸ hnot⟩
    rw [hs.get_of_none hT hkey hnone, hs'.get_of_none hT hkey fun c k v hrequest hhome => ?_]
    obtain ⟨code, code', hreturned, hreturned', hcodes⟩ := hsame c k v hrequest
    have hrefused := hnone c k v hrequest hhome
    rw [hreturned] at hrefused
    rw [hreturned']
    exact beq_eq_false_iff_ne.mpr (mt hcodes.mpr (beq_eq_false_iff_ne.mp hrefused))

/-! ### Two insertions and a lookup -/

theorem addsAndGet_usable (c : Option Bool) : Usable (HashTable.new 4).size (addsAndGet c).key := by
  rcases c with _ | _ | _
  all_goals exact .inl (by decide)

theorem addsAndGet_apart : Apart (HashTable.new 4) addsAndGet := by
  intro c d k v k' v' hc hd hhome
  rcases c with _ | _ | _ <;> rcases d with _ | _ | _ <;> cases hc <;> cases hd
  all_goals first | rfl | exact absurd hhome (by decide)

/-- The lookup comes while the insertions are still counting. -/
def counting : List (Option Bool) :=
  (List.replicate 8 [some false, some true]).flatten ++ List.replicate 4 none ++
    (List.replicate 4 [some false, some true]).flatten

def inTurn : List (Option Bool) :=
  List.replicate 12 (some true) ++ List.replicate 12 (some false)

theorem addsAndGet_atomic : ∃ s, Machine.run SharedTable.turn
    (calling (.new 4) addsAndGet) counting = some s ∧
      s.caller (some none) = .got [[49]] ∧ Seen (.new 4) addsAndGet [97] [[49]] := by
  have hrun : (Machine.run SharedTable.turn (calling (.new 4) addsAndGet) counting).map
      (fun s => s.caller (some none)) = some (.got [[49]]) := by decide +kernel
  obtain ⟨s, hs, hgot⟩ := Option.map_eq_some_iff.mp hrun
  have hraces : Machine.Meets SharedTable.turn (fun s _ => ¬ s.Races)
      (calling (.new 4) addsAndGet) counting := by decide +kernel
  have hatomic := run_atomic (HashTable.new_sound (by decide)) addsAndGet_usable addsAndGet_apart
    hraces (Machine.mayReach_of_run hs) (addsAndGet_usable none)
  exact ⟨s, hs, hgot, hatomic.2 none _ rfl hgot⟩

theorem addsAndGet_isolates : ∃ s, Machine.run SharedTable.turn
    (calling (.new 4) addsAndGet) counting = some s ∧
      if 0 = 0 then ∃ T', (HashTable.new 4).add [97] [[49]] = .ok (T', 0) ∧
        s.table.get [97] = T'.get [97]
      else s.table.get [97] = (HashTable.new 4).get [97] := by
  have hrun : (Machine.run SharedTable.turn (calling (.new 4) addsAndGet) counting).map
      (fun s => s.caller (some (some false))) = some (.returned 0) := by decide +kernel
  obtain ⟨s, hs, hreturned⟩ := Option.map_eq_some_iff.mp hrun
  exact ⟨s, hs, run_isolates (HashTable.new_sound (by decide)) addsAndGet_usable addsAndGet_apart
    hs (c := some false) rfl hreturned (addsAndGet_usable (some false)) rfl⟩

theorem addsAndGet_agree : ∃ s s',
    Machine.run SharedTable.turn (calling (.new 4) addsAndGet) counting = some s ∧
      Machine.run SharedTable.turn (calling (.new 4) addsAndGet) inTurn = some s' ∧
        s.table.get [97] = s'.table.get [97] := by
  have hrun : (Machine.run SharedTable.turn (calling (.new 4) addsAndGet) counting).map
      (fun s => (s.caller (some (some false)), s.caller (some (some true)))) =
        some (.returned 0, .returned 0) := by decide +kernel
  have hrun' : (Machine.run SharedTable.turn (calling (.new 4) addsAndGet) inTurn).map
      (fun s => (s.caller (some (some false)), s.caller (some (some true)))) =
        some (.returned 0, .returned 0) := by decide +kernel
  obtain ⟨s, hs, hreturned⟩ := Option.map_eq_some_iff.mp hrun
  obtain ⟨s', hs', hreturned'⟩ := Option.map_eq_some_iff.mp hrun'
  rw [Prod.mk.injEq] at hreturned hreturned'
  refine ⟨s, s', hs, hs', run_agree (HashTable.new_sound (by decide)) addsAndGet_usable
    addsAndGet_apart hs hs' ?_ (addsAndGet_usable (some false))⟩
  rintro (_ | _ | _) key value hrequest
  · cases hrequest
  · exact ⟨0, 0, hreturned.1, hreturned'.1, Iff.rfl⟩
  · exact ⟨0, 0, hreturned.2, hreturned'.2, Iff.rfl⟩

end SharedTable

end IndexServer
