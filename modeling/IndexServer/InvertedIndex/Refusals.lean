import IndexServer.HashTable.Doubling
import IndexServer.InvertedIndex.Draining

/-!
# How often insertions are refused

`add` gives up where a table is at the limit of its load, and pushes the exception that lets the
service loop double that table. As long as the loop has drained the queue before the next call, each
refusal is answered by one growth. The limit then doubles with every refusal, while the count rises
linearly, so that of the queries that are asked only logarithmically many are refused.
-/

namespace IndexServer

open HashTable

namespace InvertedIndex

/-- Both tables have paid for their growths. -/
structure Paid (adds kt kd : ℕ) (s : InvertedIndex) : Prop where
  table : s.table.Paid adds kt
  dictionary : s.dictionary.Paid adds kd

def Refuses (s : InvertedIndex) : Exception → Prop
  | .fullTable => s.table.loadLimit ≤ s.table.count
  | .fullDict => s.dictionary.loadLimit ≤ s.dictionary.count
  | .maxTable | .maxDict => True
  | .ok | .maxMemory => False

/-- The queue has stayed, or `add` has been refused and has pushed why. -/
def Answers (s s' : InvertedIndex) : Prop :=
  s'.exceptionQueue = s.exceptionQueue ∨
    ∃ e, s'.Refuses e ∧ s'.exceptionQueue = s.exceptionQueue ++ [e]

variable {s s' : InvertedIndex} {adds kt kd : ℕ}

/-! ### Insertion -/

theorem refuses_of_dictionaryException {word : WString} {value : List WString}
    {dictionary : HashTable} {code : ℕ} {e : Exception}
    (hresult : AddResult s.dictionary word value dictionary code)
    (he : dictionaryException code = some e) :
    ({ s with dictionary } : InvertedIndex).Refuses e := by
  cases hresult with
  | maxed =>
      cases he
      trivial
  | full _ _ _ hload =>
      cases he
      exact hload
  | _ => cases he

theorem refuses_of_tableException {id : WString} {sources : List WString} {table : HashTable}
    {code : ℕ} {e : Exception} (hresult : AddResult s.table id sources table code)
    (he : tableException code = some e) : ({ s with table } : InvertedIndex).Refuses e := by
  cases hresult with
  | maxed =>
      cases he
      trivial
  | full _ _ _ hload =>
      cases he
      exact hload
  | _ => cases he

namespace Paid

theorem wordId (h : s.Paid adds kt kd) {word : WString} {found : Option WString}
    (hrun : s.wordId word = .ok (s', found)) :
    s'.dictionary.Paid (adds + 1) kd ∧ s'.table = s.table ∧
      ((found = none ∧ ∃ e, s'.Refuses e ∧ s'.exceptionQueue = s.exceptionQueue ++ [e]) ∨
        (found ≠ none ∧ s'.exceptionQueue = s.exceptionQueue)) := by
  obtain ⟨old, _, hrun⟩ := Exec.bind_eq_ok.mp hrun
  split at hrun
  · obtain ⟨⟨s₁, code⟩, hadd, hrun⟩ := Exec.bind_eq_ok.mp hrun
    obtain ⟨⟨dictionary, code'⟩, hadd', hadd⟩ := Exec.bind_eq_ok.mp hadd
    cases hadd
    obtain ⟨husable, hresult⟩ := h.dictionary.sound.add_eq_ok hadd'
    have hpaid := h.dictionary.add husable hresult
    dsimp only at hrun
    split at hrun
    · rename_i e he
      cases hrun
      have hrefuses := refuses_of_dictionaryException hresult he
      exact ⟨hpaid, rfl, .inl ⟨rfl, e, hrefuses, rfl⟩⟩
    · cases hrun
      exact ⟨hpaid, rfl, .inr ⟨Option.some_ne_none _, rfl⟩⟩
  · obtain ⟨first, _, hrun⟩ := Exec.bind_eq_ok.mp hrun
    cases hrun
    exact ⟨h.dictionary.mono (Nat.le_succ _), rfl, .inr ⟨Option.some_ne_none _, rfl⟩⟩

theorem addWords {sources wordList : List WString} (h : s.Paid adds kt kd)
    (hrun : addWords sources wordList s = .ok s') :
    s'.Paid (adds + wordList.length) kt kd ∧ Answers s s' := by
  induction wordList generalizing s adds with
  | nil =>
      cases hrun
      exact ⟨h, .inl rfl⟩
  | cons word rest ih =>
      obtain ⟨⟨s₁, found⟩, hword, hrun⟩ := Exec.bind_eq_ok.mp hrun
      obtain ⟨hdictionary, htable, hqueue⟩ := h.wordId hword
      have hle : adds + 1 ≤ adds + (word :: rest).length := by
        rw [List.length_cons]
        omega
      rcases hqueue with ⟨rfl, hrefused⟩ | ⟨hfound, hqueue⟩
      · cases hrun
        refine ⟨⟨htable ▸ h.table.mono (Nat.le_add_right _ _), hdictionary.mono hle⟩, .inr hrefused⟩
      · obtain ⟨id, rfl⟩ := Option.ne_none_iff_exists'.mp hfound
        obtain ⟨⟨s₂, code⟩, hadd, hrun⟩ := Exec.bind_eq_ok.mp hrun
        obtain ⟨⟨table, code'⟩, hadd', hadd⟩ := Exec.bind_eq_ok.mp hadd
        cases hadd
        have hold : s₁.table.Paid adds kt := htable ▸ h.table
        obtain ⟨husable, hresult⟩ := hold.sound.add_eq_ok hadd'
        have h₂ : ({ s₁ with table } : InvertedIndex).Paid (adds + 1) kt kd :=
          ⟨hold.add husable hresult, hdictionary⟩
        dsimp only at hrun
        split at hrun
        · rename_i e he
          cases hrun
          have hrefuses := refuses_of_tableException hresult he
          refine ⟨⟨h₂.table.mono hle, h₂.dictionary.mono hle⟩, .inr ⟨e, hrefuses, ?_⟩⟩
          rw [push, hqueue]
        · obtain ⟨hrest, hanswers⟩ := ih h₂ hrun
          rw [Answers, show ({ s₁ with table } : InvertedIndex).exceptionQueue = s.exceptionQueue
            from hqueue] at hanswers
          rw [List.length_cons, Nat.add_comm rest.length, ← Nat.add_assoc]
          exact ⟨hrest, hanswers⟩

end Paid

/-! ### The answer of the service loop -/

theorem drainLoop_of_back {stored : ℕ → ℕ} {fuel : ℕ} {e : Exception} {handled : List Exception}
    (hback : s.exceptionQueue.getLast? = some e)
    (hrun : drainLoop stored (fuel + 1) s = .ok (s', handled)) :
    ∃ s₁ rest, s.handle (stored fuel) e = .ok s₁ ∧
      drainLoop stored fuel s₁.pop = .ok (s', rest) ∧ handled = e :: rest := by
  rw [drainLoop, hback] at hrun
  obtain ⟨_, _, hrun⟩ := Exec.bind_eq_ok.mp hrun
  obtain ⟨s₁, hhandle, hrun⟩ := Exec.bind_eq_ok.mp hrun
  obtain ⟨⟨s₂, rest⟩, hrest, hrun⟩ := Exec.bind_eq_ok.mp hrun
  cases hrun
  exact ⟨s₁, rest, hhandle, hrest, rfl⟩

/-- A handler that pushes is followed by the handler of what it has pushed. -/
theorem drainLoop_pushed {stored : ℕ → ℕ} {fuel : ℕ} {e : Exception} {rest : List Exception}
    (hqueue : s.exceptionQueue = [e])
    (hrun : drainLoop stored (fuel + 1) s = .ok (s', rest)) : e ∈ rest := by
  obtain ⟨_, more, _, _, rfl⟩ :=
    drainLoop_of_back (hqueue ▸ List.getLast?_singleton) hrun
  exact List.mem_cons_self

/-- The only exception of the queue is a refusal for the load, unless a capacity was exceeded, and
it is answered by one growth. -/
theorem Paid.drain {stored : ℕ → ℕ} {e : Exception} {handled : List Exception}
    (h : s.Paid adds kt kd) (hqueue : s.exceptionQueue = [e]) (hrefuses : s.Refuses e)
    (hrun : s.drain stored = .ok (s', handled))
    (hroom : ∀ e ∈ handled, e ≠ .maxTable ∧ e ≠ .maxDict) :
    s'.exceptionQueue = [] ∧ ((handled = [.fullTable] ∧ s'.Paid adds (kt + 1) kd) ∨
      (handled = [.fullDict] ∧ s'.Paid adds kt (kd + 1))) := by
  have hback : s.exceptionQueue.getLast? = some e := hqueue ▸ List.getLast?_singleton
  rw [InvertedIndex.drain, hqueue] at hrun
  obtain ⟨s₁, rest, hhandle, hrest, rfl⟩ := drainLoop_of_back hback hrun
  cases e with
  | ok | maxMemory => exact hrefuses.elim
  | maxTable => exact absurd rfl (hroom _ List.mem_cons_self).1
  | maxDict => exact absurd rfl (hroom _ List.mem_cons_self).2
  | fullTable =>
      obtain ⟨⟨table, code⟩, hgrow, hhandle⟩ := Exec.bind_eq_ok.mp hhandle
      cases hhandle
      by_cases hcode : code = 0
      · subst hcode
        have hnil : ({ s with table } : InvertedIndex).pop.exceptionQueue = [] := by
          rw [pop, hqueue]
          rfl
        rw [if_pos rfl, drainLoop_of_nil hnil] at hrest
        cases hrest
        exact ⟨hnil, .inl ⟨rfl, h.table.increaseTable hrefuses hgrow, h.dictionary⟩⟩
      · have hnext : (({ s with table } : InvertedIndex).push .maxTable).pop.exceptionQueue =
            [.maxTable] := by
          rw [pop, push, hqueue]
          rfl
        rw [if_neg hcode] at hrest
        exact absurd rfl (hroom _ (List.mem_cons_of_mem _ (drainLoop_pushed hnext hrest))).1
  | fullDict =>
      obtain ⟨⟨dictionary, code⟩, hgrow, hhandle⟩ := Exec.bind_eq_ok.mp hhandle
      cases hhandle
      by_cases hcode : code = 0
      · subst hcode
        have hnil : ({ s with dictionary } : InvertedIndex).pop.exceptionQueue = [] := by
          rw [pop, hqueue]
          rfl
        rw [if_pos rfl, drainLoop_of_nil hnil] at hrest
        cases hrest
        exact ⟨hnil, .inr ⟨rfl, h.table, h.dictionary.increaseTable hrefuses hgrow⟩⟩
      · have hnext : (({ s with dictionary } : InvertedIndex).push .maxDict).pop.exceptionQueue =
            [.maxDict] := by
          rw [pop, push, hqueue]
          rfl
        rw [if_neg hcode] at hrest
        exact absurd rfl (hroom _ (List.mem_cons_of_mem _ (drainLoop_pushed hnext hrest))).2

end InvertedIndex

/-! ### Runs -/

namespace Service

/-- A call of `add`, and what is stored in the folder while the queue is drained behind it. -/
structure Turn where
  queue : WString
  sources : List WString
  stored : ℕ → ℕ

def Turn.wordCount (t : Turn) : ℕ := (History.words t.queue).length

def turn (s : Service) (t : Turn) : Option Service :=
  (s.step (.add t.queue t.sources)).bind fun s => s.step (.drain t.stored)

/-- Every refusal has been answered by one growth of the table that was full. -/
structure Answered (ts : List Turn) (s : Service) : Prop where
  queue : s.index.exceptionQueue = []
  paid : s.index.Paid (ts.map Turn.wordCount).sum (s.handled.count .fullTable)
    (s.handled.count .fullDict)
  raised : s.raised = s.handled.count .fullTable + s.handled.count .fullDict

theorem start_answered : Answered [] start where
  queue := rfl
  paid := ⟨.new, .new⟩
  raised := rfl

variable {s s' : Service} {t : Turn} {ts : List Turn}

theorem turn_eq_some (hturn : s.turn t = some s') :
    ∃ index handled, InvertedIndex.addWords t.sources (History.words t.queue) s.index = .ok index ∧
      index.drain t.stored = .ok (s'.index, handled) ∧ s'.handled = s.handled ++ handled ∧
      s'.raised =
        s.raised + (index.exceptionQueue.length - s.index.exceptionQueue.length) := by
  obtain ⟨s₁, hfirst, hsecond⟩ := Option.bind_eq_some_iff.mp hturn
  obtain ⟨index, hadd, rfl⟩ := Option.map_eq_some_iff.mp hfirst
  obtain ⟨⟨index', handled⟩, hdrain, rfl⟩ := Option.map_eq_some_iff.mp hsecond
  obtain ⟨wordList, hsplit, hrun⟩ := Exec.bind_eq_ok.mp (Exec.toOption_eq_some.mp hadd)
  have hwords : History.words t.queue = wordList := by rw [History.words, hsplit]; rfl
  exact ⟨index, handled, hwords ▸ hrun, Exec.toOption_eq_some.mp hdrain, rfl, rfl⟩

theorem Answered.turn (h : Answered ts s) (hturn : s.turn t = some s')
    (hroom : ∀ e ∈ s'.handled, e ≠ .maxTable ∧ e ≠ .maxDict) : Answered (ts ++ [t]) s' := by
  obtain ⟨index, handled, hadd, hdrain, hhandled, hraised⟩ := turn_eq_some hturn
  obtain ⟨hpaid, hanswers⟩ := h.paid.addWords hadd
  have hsum : (ts.map Turn.wordCount).sum + (History.words t.queue).length =
      ((ts ++ [t]).map Turn.wordCount).sum := by
    rw [List.map_append, List.sum_append]
    rfl
  rw [hsum] at hpaid
  simp only [InvertedIndex.Answers, h.queue, List.nil_append] at hanswers
  rw [h.queue, List.length_nil] at hraised
  rcases hanswers with hnil | ⟨e, hrefuses, hqueue⟩
  · rw [InvertedIndex.drain, InvertedIndex.drainLoop_of_nil hnil] at hdrain
    cases hdrain
    rw [List.append_nil] at hhandled
    rw [hnil, List.length_nil, Nat.sub_self, Nat.add_zero] at hraised
    refine ⟨hnil, hhandled ▸ hpaid, ?_⟩
    rw [hraised, hhandled, h.raised]
  · obtain ⟨hnil, hanswer⟩ := hpaid.drain hqueue hrefuses hdrain fun e he =>
      hroom e (hhandled ▸ List.mem_append_right _ he)
    rw [hqueue, List.length_singleton] at hraised
    refine ⟨hnil, ?_, ?_⟩
    · rcases hanswer with ⟨rfl, hgrown⟩ | ⟨rfl, hgrown⟩
      · rw [hhandled, List.count_append, List.count_append]
        exact hgrown
      · rw [hhandled, List.count_append, List.count_append]
        exact hgrown
    · rw [hraised, hhandled, List.count_append, List.count_append, h.raised]
      rcases hanswer with ⟨rfl, _⟩ | ⟨rfl, _⟩
      · rw [List.count_singleton_self, List.count_singleton, if_neg (by decide)]
        omega
      · rw [List.count_singleton_self, List.count_singleton, if_neg (by decide)]
        omega

/-- Where the queue is drained behind every query and no capacity is exceeded, each refused query is
answered by one growth, and a table that has grown `k + 1` times has received enough words to pay
for it. -/
theorem run_refusals (hrun : Machine.run turn start ts = some s)
    (hroom : ∀ e ∈ s.handled, e ≠ .maxTable ∧ e ≠ .maxDict) :
    s.index.exceptionQueue = [] ∧
      s.raised = s.handled.count .fullTable + s.handled.count .fullDict ∧
      s.index.table.size = InvertedIndex.startSize * 2 ^ s.handled.count .fullTable ∧
      s.index.dictionary.size = InvertedIndex.startSize * 2 ^ s.handled.count .fullDict ∧
      ∀ k, k < s.handled.count .fullTable ∨ k < s.handled.count .fullDict →
        15 * 2 ^ k ≤ (k + 1) * (ts.map Turn.wordCount).sum := by
  have hanswered : (∀ e ∈ s.handled, e ≠ .maxTable ∧ e ≠ .maxDict) → Answered ts s := by
    refine Machine.run_history
      (fun ts (s : Service) => (∀ e ∈ s.handled, e ≠ .maxTable ∧ e ≠ .maxDict) → Answered ts s)
      (fun _ => start_answered) ?_ hrun
    intro ts s t s' _ ih hturn hroom
    obtain ⟨_, _, _, _, hhandled, _⟩ := turn_eq_some hturn
    refine (ih fun e he => hroom e ?_).turn hturn hroom
    rw [hhandled]
    exact List.mem_append_left _ he
  have h := hanswered hroom
  refine ⟨h.queue, h.raised, h.paid.table.size_eq, h.paid.dictionary.size_eq, ?_⟩
  rintro k (hk | hk)
  · exact h.paid.table.growths k hk
  · exact h.paid.dictionary.growths k hk

/-- The same query twice: the dictionary refuses it, and grows. -/
def twice : List Turn :=
  let queue : WString := [97, 32, 98, 32, 99, 32, 100, 32, 101, 32, 102, 32, 103, 32, 104, 32, 105,
    32, 106, 32, 107, 32, 108, 32, 109, 32, 110, 32, 111, 32, 112, 32, 113, 32, 114]
  [⟨queue, [[115]], fun _ => 0⟩, ⟨queue, [[115]], fun _ => 0⟩]

theorem twice_refusals : ∃ s, Machine.run turn start twice = some s ∧
    s.raised = s.handled.count .fullTable + s.handled.count .fullDict ∧
      0 < s.handled.count .fullDict ∧
      15 * 2 ^ 0 ≤ (0 + 1) * (twice.map Turn.wordCount).sum := by
  have hgrown : (Machine.run turn start twice).map (fun s =>
      decide ((∀ e ∈ s.handled, e ≠ .maxTable ∧ e ≠ .maxDict) ∧ 0 < s.handled.count .fullDict)) =
        some true := by decide +kernel
  obtain ⟨s, hrun, hgrown⟩ := Option.map_eq_some_iff.mp hgrown
  obtain ⟨hroom, hcount⟩ := of_decide_eq_true hgrown
  obtain ⟨_, hraised, _, _, hgrowths⟩ := run_refusals hrun hroom
  exact ⟨s, hrun, hraised, hcount, hgrowths 0 (.inr hcount)⟩

end Service

end IndexServer
