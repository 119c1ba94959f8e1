import IndexServer.InvertedIndex.Concurrent

/-!
# Ids of words under concurrent insertions

Two words get one id if a call reads the counter while another call, at work on another word, has
read the same value and not incremented it, or if the dictionary is given a word whose entry stands
behind the head of a cell. Runs in which neither happens give different words different ids.
-/

namespace IndexServer

open HashTable

/-- The word and the number of a call that has inserted it and not yet incremented the counter. -/
def Call.unpassed : Call → Option (WString × WString)
  | .incrementing word strLong _ _ => some (word, strLong)
  | _ => none

theorem Call.pending_of_unpassed {p : Call} {pair : WString × WString}
    (h : p.unpassed = some pair) : p.pending = some pair := by
  cases p with
  | incrementing word strLong rest sources => exact h
  | _ => cases h

theorem Call.pending_next (sources words : List WString) :
    (Call.next sources words).pending = none := by
  cases words <;> rfl

theorem Call.pending_posted (rest sources : List WString) (code : ℕ) :
    (Call.posted rest sources code).pending = none := by
  rw [Call.posted]
  split
  · rfl
  · exact Call.pending_next sources rest

namespace Insertions

variable {ι : Type}

/-- The relation `R` between words and the ids they have obtained. Numbers at work agree with it and
with one another. -/
structure Distinct (R : WString → WString → Prop) (s : Insertions ι) : Prop where
  sound : s.index.dictionary.Sound
  filled : s.index.dictionary.Entries fun _ value => value ≠ []
  within : s.index.dictionary.Within R
  unique : Relator.LeftUnique R
  passed : ∀ word id, R word id → ∃ m : ℕ, id = toWString m ∧ m ≤ s.index.dictIdCounter ∧
    (m = s.index.dictIdCounter → ∃ c, (s.call c).unpassed = some (word, id))
  numbered : ∀ c word id, (s.call c).pending = some (word, id) →
    ∃ m : ℕ, id = toWString m ∧ m ≤ s.index.dictIdCounter
  agree : ∀ c c' word word' id, (s.call c).pending = some (word, id) →
    (s.call c').pending = some (word', id) → word = word'
  apart : ∀ c word word' id, (s.call c).pending = some (word, id) → R word' id → word = word'

theorem new_distinct : Distinct (fun _ _ => False) (new : Insertions ι) where
  sound := new_sound (by decide)
  filled := entries_new _ _
  within := new_within _ _
  unique _ _ _ h := h.elim
  passed _ _ h := h.elim
  numbered _ _ _ h := by cases h
  agree _ _ _ _ _ h := by cases h
  apart _ _ _ _ h := by cases h

/-- What a step is careful about: a number is read only if no call at work on another word has it,
and the dictionary is given no word whose entry stands behind a head. -/
def Careful (s : Insertions ι) : Command ι → Prop
  | .count c => ∀ word rest sources, s.call c = .counting word rest sources →
      ∀ c' word', (s.call c').pending = some (word', toWString s.index.dictIdCounter) →
        word' = word
  | .insert _ word strLong _ => ¬ s.index.dictionary.Chained word [strLong]
  | _ => True

instance [Fintype ι] (s : Insertions ι) : ∀ cmd, Decidable (s.Careful cmd)
  | .count c =>
      match hc : s.call c with
      | .counting word rest sources =>
          decidable_of_iff (∀ c', ∀ pair ∈ (s.call c').pending,
            pair.2 = toWString s.index.dictIdCounter → pair.1 = word) (by
              simp only [Careful, hc, Call.counting.injEq, Option.mem_def, Prod.forall]
              constructor
              · rintro h _ _ _ ⟨rfl, rfl, rfl⟩ c' word' hpending
                exact h c' word' _ hpending rfl
              · rintro h c' word' _ hpending rfl
                exact h word rest sources ⟨rfl, rfl, rfl⟩ c' word' hpending)
      | .absent | .looking _ _ _ | .inserting _ _ _ _ | .incrementing _ _ _ _ | .posting _ _ _
      | .raising _ | .returned => isTrue fun _ _ _ h => by simp [hc] at h
  | .insert _ _ _ _ => inferInstanceAs (Decidable (¬ _))
  | .start .. | .look .. | .increment _ | .post _ | .raise _ => isTrue trivial

section set

variable [DecidableEq ι] {s : Insertions ι} {c : ι} {index : InvertedIndex} {p : Call}
  {pair : WString × WString}

/-- A number at work after a step of `c` is the one of `c`, or it was at work before. -/
theorem pending_set_cases {d : ι} (hd : ((s.set c index p).call d).pending = some pair) :
    p.pending = some pair ∨ (s.call d).pending = some pair := by
  by_cases hdc : d = c
  · subst hdc
    rw [set_call_self] at hd
    exact .inl hd
  · rw [set_call_ne s hdc] at hd
    exact .inr hd

theorem unpassed_set (hc : (s.call c).unpassed = none)
    (h : ∃ d, (s.call d).unpassed = some pair) :
    ∃ d, ((s.set c index p).call d).unpassed = some pair := by
  obtain ⟨d, hd⟩ := h
  have hdc : d ≠ c := by
    rintro rfl
    rw [hc] at hd
    cases hd
  refine ⟨d, ?_⟩
  rwa [set_call_ne s hdc]

end set

namespace Distinct

variable [DecidableEq ι] {R : WString → WString → Prop} {s : Insertions ι}

theorem quiet (h : Distinct R s) (c : ι) {index : InvertedIndex} {p : Call}
    (hdictionary : index.dictionary = s.index.dictionary)
    (hcounter : s.index.dictIdCounter ≤ index.dictIdCounter)
    (hunpassed : (s.call c).unpassed = none ∨ s.index.dictIdCounter < index.dictIdCounter)
    (hp : p.pending = none) : Distinct R (s.set c index p) := by
  have hold : ∀ {d word id}, ((s.set c index p).call d).pending = some (word, id) →
      (s.call d).pending = some (word, id) := by
    intro d word id hd
    rcases pending_set_cases hd with hmine | hold
    · rw [hp] at hmine
      cases hmine
    · exact hold
  refine ⟨hdictionary ▸ h.sound, hdictionary ▸ h.filled, hdictionary ▸ h.within, h.unique, ?_, ?_,
    ?_, ?_⟩
  · intro word id hR
    obtain ⟨m, hid, hle, hinsert⟩ := h.passed word id hR
    refine ⟨m, hid, hle.trans hcounter, fun hm => ?_⟩
    have hm' : m = index.dictIdCounter := hm
    have hsame : m = s.index.dictIdCounter := Nat.le_antisymm hle (hm' ▸ hcounter)
    rcases hunpassed with hnone | hlt
    · exact unpassed_set hnone (hinsert hsame)
    · omega
  · intro d word id hd
    obtain ⟨m, hid, hle⟩ := h.numbered d word id (hold hd)
    exact ⟨m, hid, hle.trans hcounter⟩
  · exact fun d d' word word' id hd hd' => h.agree d d' word word' id (hold hd) (hold hd')
  · exact fun d word word' id hd hR => h.apart d word word' id (hold hd) hR

theorem count (h : Distinct R s) {c : ι} {word : WString} {rest sources : List WString}
    (hc : s.call c = .counting word rest sources)
    (hcareful : ∀ c' word', (s.call c').pending = some (word', toWString s.index.dictIdCounter) →
      word' = word) :
    Distinct R (s.set c s.index
      (.inserting word (toWString s.index.dictIdCounter) rest sources)) := by
  have hpending : ∀ {d w id}, ((s.set c s.index
      (.inserting word (toWString s.index.dictIdCounter) rest sources)).call d).pending =
        some (w, id) →
      (w = word ∧ id = toWString s.index.dictIdCounter) ∨ (s.call d).pending = some (w, id) := by
    intro d w id hd
    rcases pending_set_cases hd with hmine | hold
    · cases hmine
      exact .inl ⟨rfl, rfl⟩
    · exact .inr hold
  refine ⟨h.sound, h.filled, h.within, h.unique, ?_, ?_, ?_, ?_⟩
  · intro w id hR
    obtain ⟨m, hid, hle, hinsert⟩ := h.passed w id hR
    exact ⟨m, hid, hle, fun hm => unpassed_set (hc ▸ rfl) (hinsert hm)⟩
  · intro d w id hd
    rcases hpending hd with ⟨_, rfl⟩ | hold
    · exact ⟨_, rfl, le_rfl⟩
    · exact h.numbered d w id hold
  · intro d d' w w' id hd hd'
    rcases hpending hd with ⟨rfl, rfl⟩ | hold
    · rcases hpending hd' with ⟨rfl, _⟩ | hold'
      · rfl
      · exact (hcareful d' w' hold').symm
    · rcases hpending hd' with ⟨rfl, rfl⟩ | hold'
      · exact hcareful d w hold
      · exact h.agree d d' w w' id hold hold'
  · intro d w w' id hd hR
    rcases hpending hd with ⟨rfl, rfl⟩ | hold
    · -- whoever has obtained the number read is still to increment it
      obtain ⟨m, hid, _, hinsert⟩ := h.passed w' _ hR
      obtain ⟨d', hd'⟩ := hinsert (toWString_injective hid).symm
      exact (hcareful d' w' (Call.pending_of_unpassed hd')).symm
    · exact h.apart d w w' id hold hR

theorem insert (h : Distinct R s) {c : ι} {word strLong : WString} {rest sources : List WString}
    (hc : s.call c = .inserting word strLong rest sources) {dictionary : HashTable} {code : ℕ}
    (hresult : AddResult s.index.dictionary word [strLong] dictionary code)
    (husable : Usable s.index.dictionary.size word)
    (hcareful : ¬ s.index.dictionary.Chained word [strLong]) :
    Distinct (fun w id => R w id ∨ (w = word ∧ id = strLong))
      (s.set c { s.index with dictionary } (.incrementing word strLong rest sources)) := by
  have hmine : (s.call c).pending = some (word, strLong) := hc ▸ rfl
  have hpending : ∀ {d w id}, ((s.set c { s.index with dictionary }
      (.incrementing word strLong rest sources)).call d).pending = some (w, id) →
      (s.call d).pending = some (w, id) := by
    intro d w id hd
    by_cases hdc : d = c
    · subst hdc
      rw [set_call_self] at hd
      exact hmine.trans hd
    · rwa [set_call_ne s hdc] at hd
  refine ⟨hresult.sound h.sound husable, hresult.entries h.filled (List.cons_ne_nil _ _), ?_, ?_,
    ?_, ?_, ?_, ?_⟩
  · refine hresult.within (h.within.mono fun _ _ => .inl) (fun x hx => ?_) hcareful
    exact .inr ⟨rfl, List.mem_singleton.mp hx⟩
  · rintro w w' id (hR | ⟨rfl, rfl⟩) (hR' | ⟨rfl, hid⟩)
    · exact h.unique hR hR'
    · exact (h.apart c _ w _ hmine (hid ▸ hR)).symm
    · exact h.apart c _ w' _ hmine hR'
    · rfl
  · rintro w id (hR | ⟨rfl, rfl⟩)
    · obtain ⟨m, hid, hle, hinsert⟩ := h.passed w id hR
      exact ⟨m, hid, hle, fun hm => unpassed_set (hc ▸ rfl) (hinsert hm)⟩
    · obtain ⟨m, hid, hle⟩ := h.numbered c _ _ hmine
      refine ⟨m, hid, hle, fun _ => ⟨c, ?_⟩⟩
      rw [set_call_self]
      rfl
  · exact fun d w id hd => h.numbered d w id (hpending hd)
  · exact fun d d' w w' id hd hd' => h.agree d d' w w' id (hpending hd) (hpending hd')
  · rintro d w w' id hd (hR | ⟨rfl, rfl⟩)
    · exact h.apart d w w' id (hpending hd) hR
    · exact h.agree d c w _ _ (hpending hd) hmine

end Distinct

def Recorded (cs : List (Command ι)) (s : Insertions ι) : Prop :=
  ∃ R, Distinct R s ∧ ∀ pair ∈ obtained cs, R pair.1 pair.2

theorem obtained_snoc (cs : List (Command ι)) (cmd : Command ι) :
    obtained (cs ++ [cmd]) = obtained cs ++ cmd.obtains.toList := by
  rw [obtained, List.filterMap_append]
  cases hcmd : cmd.obtains <;> simp [obtained, hcmd]

theorem Distinct.recorded {cs : List (Command ι)} {t : Insertions ι} {cmd : Command ι}
    {R : WString → WString → Prop} (ht : Distinct R t)
    (hobtained : ∀ pair ∈ obtained cs, R pair.1 pair.2)
    (hnew : ∀ pair, cmd.obtains = some pair → R pair.1 pair.2) : Recorded (cs ++ [cmd]) t := by
  refine ⟨R, ht, fun pair hpair => ?_⟩
  rw [obtained_snoc] at hpair
  rcases List.mem_append.mp hpair with hold | hlast
  · exact hobtained pair hold
  · exact hnew pair (Option.mem_toList.mp hlast)

variable [DecidableEq ι]

theorem insert_cases {s t : Insertions ι} (hs : s.index.dictionary.Sound) {c : ι}
    {word strLong : WString} {code : ℕ} (h : s.step (.insert c word strLong code) = some t) :
    ∃ rest sources dictionary, s.call c = .inserting word strLong rest sources ∧
      Usable s.index.dictionary.size word ∧
      AddResult s.index.dictionary word [strLong] dictionary code ∧
      t = s.set c { s.index with dictionary } (.inserted word strLong rest sources code) := by
  rw [Insertions.step] at h
  cases hc : s.call c with
  | inserting word' strLong' rest sources =>
      simp only [hc] at h
      split at h
      · obtain ⟨rfl, rfl⟩ := ‹word' = word ∧ strLong' = strLong›
        obtain ⟨result, hadd, hcode⟩ := Option.bind_eq_some_iff.mp h
        rw [Exec.toOption_eq_some] at hadd
        obtain ⟨⟨dictionary, code'⟩, hadd', hsame⟩ := Exec.bind_eq_ok.mp hadd
        obtain ⟨husable, hresult⟩ := hs.add_eq_ok hadd'
        cases hsame
        split at hcode
        · obtain rfl : code' = code := by assumption
          exact ⟨rest, sources, dictionary, rfl, husable, hresult, (Option.some.inj hcode).symm⟩
        · cases hcode
      · cases h
  | _ => simp only [hc, reduceCtorEq] at h

theorem Recorded.step {cs : List (Command ι)} {s t : Insertions ι} {cmd : Command ι}
    (h : Recorded cs s) (hcareful : s.Careful cmd) (hstep : s.step cmd = some t) :
    Recorded (cs ++ [cmd]) t := by
  obtain ⟨R, hR, hobtained⟩ := h
  cases cmd with
  | start c queue sources =>
      rw [Insertions.step] at hstep
      split at hstep
      · cases hstep
        have hc : s.call c = .absent := by assumption
        exact (hR.quiet c rfl le_rfl (.inl (hc ▸ rfl)) (Call.pending_next _ _)).recorded hobtained
          fun _ h => by cases h
      · cases hstep
  | look c word found =>
      rw [Insertions.step] at hstep
      cases hc : s.call c with
      | looking word' rest sources =>
          simp only [hc] at hstep
          split at hstep
          · obtain ⟨rfl, hget⟩ := ‹word' = word ∧ _›
            cases found with
            | nil =>
                cases hstep
                exact (hR.quiet c rfl le_rfl (.inl (hc ▸ rfl)) rfl).recorded hobtained
                  fun _ h => by cases h
            | cons id more =>
                cases hstep
                apply (hR.quiet c rfl le_rfl (.inl (hc ▸ rfl)) rfl).recorded hobtained
                rintro _ ⟨⟩
                exact hR.sound.get_within hR.within hget List.mem_cons_self
          · cases hstep
      | _ => simp only [hc, reduceCtorEq] at hstep
  | count c =>
      rw [Insertions.step] at hstep
      cases hc : s.call c with
      | counting word rest sources =>
          simp only [hc, Option.some.injEq] at hstep
          subst hstep
          exact (hR.count hc (hcareful word rest sources hc)).recorded hobtained
            fun _ h => by cases h
      | _ => simp only [hc, reduceCtorEq] at hstep
  | insert c word strLong code =>
      obtain ⟨rest, sources, dictionary, hc, husable, hresult, rfl⟩ :=
        insert_cases hR.sound hstep
      rcases InvertedIndex.dictionaryException_cases hresult with ⟨rfl, _⟩ | ⟨hcode, e, hsome⟩
      · refine (hR.insert hc hresult husable hcareful).recorded
          (fun pair hpair => .inl (hobtained pair hpair)) ?_
        rintro _ ⟨⟩
        exact .inr ⟨rfl, rfl⟩
      · rw [hresult.eq_of_code_ne hcode, Call.inserted, hsome]
        have ht : Distinct R (s.set c s.index (.raising e)) :=
          hR.quiet c rfl le_rfl (.inl (hc ▸ rfl)) rfl
        apply ht.recorded hobtained
        intro pair hpair
        cases code with
        | zero => exact absurd rfl hcode
        | succ n => cases hpair
  | increment c =>
      rw [Insertions.step] at hstep
      cases hc : s.call c with
      | incrementing word strLong rest sources =>
          simp only [hc, Option.some.injEq] at hstep
          subst hstep
          have ht : Distinct R (s.set c s.index.countId (.posting strLong rest sources)) :=
            hR.quiet c rfl (Nat.le_succ _) (.inr (Nat.lt_succ_self _)) rfl
          exact ht.recorded hobtained fun _ h => by cases h
      | _ => simp only [hc, reduceCtorEq] at hstep
  | post c =>
      rw [Insertions.step] at hstep
      cases hc : s.call c with
      | posting id rest sources =>
          simp only [hc] at hstep
          obtain ⟨⟨index, code⟩, hadd, rfl⟩ := Option.map_eq_some_iff.mp hstep
          rw [Exec.toOption_eq_some, InvertedIndex.tableAdd, Exec.bind_eq_ok] at hadd
          obtain ⟨⟨table, code'⟩, _, hindex⟩ := hadd
          cases hindex
          have ht : Distinct R (s.set c { s.index with table } (.posted rest sources code)) :=
            hR.quiet c rfl le_rfl (.inl (hc ▸ rfl)) (Call.pending_posted ..)
          exact ht.recorded hobtained fun _ h => by cases h
      | _ => simp only [hc, reduceCtorEq] at hstep
  | raise c =>
      rw [Insertions.step] at hstep
      cases hc : s.call c with
      | raising e =>
          simp only [hc, Option.some.injEq] at hstep
          subst hstep
          have ht : Distinct R (s.set c (s.index.push e) .returned) :=
            hR.quiet c rfl le_rfl (.inl (hc ▸ rfl)) rfl
          exact ht.recorded hobtained fun _ h => by cases h
      | _ => simp only [hc, reduceCtorEq] at hstep

theorem run_obtained_ne {cs : List (Command ι)} {s : Insertions ι}
    (hcareful : Machine.Meets step Careful new cs) (hrun : Machine.run step new cs = some s)
    {word word' id id' : WString} (hword : (word, id) ∈ obtained cs)
    (hword' : (word', id') ∈ obtained cs) (hne : word ≠ word') : id ≠ id' := by
  obtain ⟨R, hR, hobtained⟩ := Machine.run_history_of_meets Recorded
    ⟨_, new_distinct, fun _ h => absurd h List.not_mem_nil⟩
    (fun _ _ _ _ h hcareful hstep => h.step hcareful hstep) hcareful hrun
  rintro rfl
  exact hne (hR.unique (hobtained _ hword) (hobtained _ hword'))

/-- Two calls, with the words "a" and "b", look both words up before one of them stores an id; the
second reads the counter behind the increment of the first. -/
def staggered : List (Command Bool) :=
  [.start false [97] [], .start true [98] [], .look false [97] [], .look true [98] [],
    .count false, .insert false [97] [49] 0, .increment false, .count true, .post false,
    .insert true [98] [50] 0, .increment true, .post true]

theorem staggered_obtained_ne : ∃ s, Machine.run step new staggered = some s ∧
    ([97], [49]) ∈ obtained staggered ∧ ([98], [50]) ∈ obtained staggered ∧
      ([49] : WString) ≠ [50] := by
  obtain ⟨s, hrun⟩ : ∃ s, Machine.run step new staggered = some s :=
    Option.isSome_iff_exists.mp (by decide +kernel)
  have hcareful : Machine.Meets step Careful new staggered := by decide +kernel
  have hword : ([97], [49]) ∈ obtained staggered := by decide
  have hword' : ([98], [50]) ∈ obtained staggered := by decide
  exact ⟨s, hrun, hword, hword', run_obtained_ne hcareful hrun hword hword' (by decide)⟩

/-- Two calls, with the words "a" and "b", both read the counter before either increments it. -/
def twoCalls : List (Command (Fin 2)) :=
  [.start 0 [97] [], .start 1 [98] [], .look 0 [97] [], .look 1 [98] [], .count 0, .count 1,
    .insert 0 [97] [49] 0, .insert 1 [98] [49] 0]

theorem twoCalls_obtained_eq : ¬ ∀ (cs : List (Command (Fin 2))) (s : Insertions (Fin 2)),
    Machine.run step new cs = some s → ∀ word word' id id', (word, id) ∈ obtained cs →
      (word', id') ∈ obtained cs → word ≠ word' → id ≠ id' := by
  intro h
  obtain ⟨s, hrun⟩ : ∃ s, Machine.run step new twoCalls = some s :=
    Option.isSome_iff_exists.mp (by decide +kernel)
  exact h twoCalls s hrun [97] [98] [49] [49] (by decide) (by decide) (by decide) rfl

end Insertions

end IndexServer
