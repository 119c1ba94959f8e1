import IndexServer.InvertedIndex.Progress
import IndexServer.InvertedIndex.ServiceDrain

/-!
# The handlers drain the queue

The inner loop of `serviceLoop` with what the handlers do to the tables, between calls of `add` in
any order. On what runs leave, every handler returns, and it pushes nothing but what its exception
may escalate to. So the loop ends with an empty queue, whatever the folder holds, after as many
handlers as exceptions were pushed.
-/

namespace IndexServer

open HashTable Exception

namespace InvertedIndex

def pop (s : InvertedIndex) : InvertedIndex :=
  { s with exceptionQueue := s.exceptionQueue.tail }

/-- What the handler of an exception writes to the folder. -/
def written (s : InvertedIndex) : Exception → Exec WString
  | .maxTable => s.table.saveTable
  | _ => .ok []

/-- The inner loop of `serviceLoop`, with the exceptions whose handlers it runs. What is stored in
the folder when a number of rounds is left is open. -/
def drainLoop (stored : ℕ → ℕ) : ℕ → InvertedIndex → Exec (InvertedIndex × List Exception)
  | 0, s => if s.exceptionQueue = [] then .ok (s, []) else .error .noReturn
  | fuel + 1, s =>
      match s.exceptionQueue.getLast? with
      | none => .ok (s, [])
      | some e => do
          let _ ← s.written e
          let s ← s.handle (stored fuel) e
          let (s, handled) ← drainLoop stored fuel s.pop
          return (s, e :: handled)

/-- A round drops one exception, and an exception escalates twice at most. -/
def drain (stored : ℕ → ℕ) (s : InvertedIndex) : Exec (InvertedIndex × List Exception) :=
  drainLoop stored (3 * s.exceptionQueue.length) s

end InvertedIndex

/-- The index of a server whose service loop runs between the calls of `add`. -/
structure Service where
  index : InvertedIndex
  /-- The exceptions that `add` has pushed. -/
  raised : ℕ
  /-- The exceptions whose handlers were run. -/
  handled : List Exception
  deriving DecidableEq, Repr

namespace Service

def start : Service where
  index := InvertedIndex.new
  raised := 0
  handled := []

inductive Op where
  | add (queue : WString) (sources : List WString)
  | drain (stored : ℕ → ℕ)

def step (s : Service) : Op → Option Service
  | .add queue sources =>
      (s.index.add queue sources).toOption.map fun index =>
        { s with
          index
          raised := s.raised + (index.exceptionQueue.length - s.index.exceptionQueue.length) }
  | .drain stored =>
      (s.index.drain stored).toOption.map fun (index, handled) =>
        { s with index, handled := s.handled ++ handled }

end Service

/-! ### The queue -/

namespace InvertedIndex

variable {s s' : InvertedIndex}

/-- A handler pushes what the open model lets it push. -/
theorem handle_queue {stored : ℕ} {e : Exception} (hrun : s.handle stored e = .ok s') :
    s'.exceptionQueue = s.exceptionQueue ∨
      ∃ e', e.raises = some e' ∧ s'.exceptionQueue = s.exceptionQueue ++ [e'] := by
  cases e with
  | ok | maxMemory | maxDict =>
      cases hrun
      exact .inl rfl
  | fullTable | fullDict =>
      obtain ⟨⟨grown, code⟩, _, hrun⟩ := Exec.bind_eq_ok.mp hrun
      cases hrun
      split
      · exact .inl rfl
      · exact .inr ⟨_, rfl, rfl⟩
  | maxTable =>
      cases hrun
      split
      · exact .inr ⟨_, rfl, rfl⟩
      · exact .inl rfl

theorem wordId_queue {word : WString} {id : Option WString}
    (hrun : s.wordId word = .ok (s', id)) :
    (id = none ∧ ∃ e, s'.exceptionQueue = s.exceptionQueue ++ [e]) ∨
      (id ≠ none ∧ s'.exceptionQueue = s.exceptionQueue) := by
  obtain ⟨found, _, hrun⟩ := Exec.bind_eq_ok.mp hrun
  split at hrun
  · obtain ⟨⟨s₁, code⟩, hadd, hrun⟩ := Exec.bind_eq_ok.mp hrun
    obtain ⟨⟨dictionary, code'⟩, _, hadd⟩ := Exec.bind_eq_ok.mp hadd
    cases hadd
    dsimp only at hrun
    split at hrun
    · cases hrun
      exact .inl ⟨rfl, _, rfl⟩
    · cases hrun
      exact .inr ⟨Option.some_ne_none _, rfl⟩
  · obtain ⟨first, _, hrun⟩ := Exec.bind_eq_ok.mp hrun
    cases hrun
    exact .inr ⟨Option.some_ne_none _, rfl⟩

theorem addWords_queue {sources wordList : List WString}
    (hrun : addWords sources wordList s = .ok s') :
    s'.exceptionQueue = s.exceptionQueue ∨
      ∃ e, s'.exceptionQueue = s.exceptionQueue ++ [e] := by
  induction wordList generalizing s with
  | nil =>
      cases hrun
      exact .inl rfl
  | cons word rest ih =>
      obtain ⟨⟨s₁, found⟩, hword, hrun⟩ := Exec.bind_eq_ok.mp hrun
      rcases wordId_queue hword with ⟨rfl, e, hqueue⟩ | ⟨hfound, hqueue⟩
      · cases hrun
        exact .inr ⟨e, hqueue⟩
      · obtain ⟨id, rfl⟩ := Option.ne_none_iff_exists'.mp hfound
        obtain ⟨⟨s₂, code⟩, htable, hrun⟩ := Exec.bind_eq_ok.mp hrun
        obtain ⟨⟨table, code'⟩, _, htable⟩ := Exec.bind_eq_ok.mp htable
        cases htable
        rw [← hqueue]
        dsimp only at hrun
        split at hrun
        · cases hrun
          exact .inr ⟨_, rfl⟩
        · have hrest := ih hrun
          exact hrest

/-! ### The loop -/

theorem Able.exists_written (h : s.Able) (hids : s.dictIdCounter ≤ 2 ^ 63) (e : Exception) :
    ∃ content, s.written e = .ok content := by
  cases e with
  | maxTable => exact ⟨_, h.saveTable hids⟩
  | _ => exact ⟨[], rfl⟩

theorem Able.pop (h : s.Able) : s.pop.Able :=
  ⟨h.dictionary, h.ids, h.table, h.keys⟩

theorem rounds_pop {stored : ℕ} {e : Exception} (hback : s.exceptionQueue.getLast? = some e)
    (hrun : s.handle stored e = .ok s') :
    rounds s'.pop.exceptionQueue < rounds s.exceptionQueue ∧
      s.exceptionQueue.length ≤ s'.pop.exceptionQueue.length + 1 := by
  rcases handle_queue hrun with hsame | ⟨e', hraises, hpushed⟩
  · rw [InvertedIndex.pop, hsame, List.length_tail]
    exact ⟨rounds_tail hback, by omega⟩
  · rw [InvertedIndex.pop, hpushed, List.length_tail, List.length_append, List.length_singleton]
    exact ⟨rounds_raise hback hraises, by omega⟩

theorem drainLoop_of_nil {stored : ℕ → ℕ} {fuel : ℕ} (h : s.exceptionQueue = []) :
    drainLoop stored fuel s = .ok (s, []) := by
  cases fuel with
  | zero => exact if_pos h
  | succ fuel =>
      rw [drainLoop, h]
      rfl

/-- The loop ends with an empty queue, and has run a handler for each exception of it and at most as
many as there were rounds. -/
theorem Able.drainLoop (h : s.Able) (hids : s.dictIdCounter ≤ 2 ^ 63) (stored : ℕ → ℕ) {fuel : ℕ}
    (hfuel : rounds s.exceptionQueue ≤ fuel) :
    ∃ s' handled, drainLoop stored fuel s = .ok (s', handled) ∧ s'.Able ∧
      s'.dictIdCounter = s.dictIdCounter ∧ s'.exceptionQueue = [] ∧
      s.exceptionQueue.length ≤ handled.length ∧ handled.length ≤ rounds s.exceptionQueue := by
  induction fuel generalizing s with
  | zero =>
      have hnil : s.exceptionQueue = [] := by
        by_contra hne
        obtain ⟨e, hback⟩ := Option.ne_none_iff_exists'.mp (mt List.getLast?_eq_none_iff.mp hne)
        exact absurd (rounds_tail hback) (by omega)
      exact ⟨s, [], if_pos hnil, h, rfl, hnil, hnil ▸ le_rfl, Nat.zero_le _⟩
  | succ fuel ih =>
      rw [InvertedIndex.drainLoop]
      cases hback : s.exceptionQueue.getLast? with
      | none =>
          have hnil := List.getLast?_eq_none_iff.mp hback
          exact ⟨s, [], rfl, h, rfl, hnil, hnil ▸ le_rfl, Nat.zero_le _⟩
      | some e =>
          obtain ⟨content, hwritten⟩ := h.exists_written hids e
          obtain ⟨s₁, hhandle, hcounter⟩ := h.exists_handle e (stored fuel)
          obtain ⟨hfewer, hlength⟩ := rounds_pop hback hhandle
          obtain ⟨s₂, handled, hrun, hable, hsame, hnil, hleast, hmost⟩ :=
            ih (h.handle hhandle).pop (hcounter.trans_le hids) (by omega)
          refine ⟨s₂, e :: handled, ?_, hable, hsame.trans hcounter, hnil, ?_, ?_⟩
          · dsimp only
            rw [hwritten, Exec.ok_bind, hhandle, Exec.ok_bind, hrun]
            rfl
          · rw [List.length_cons]
            omega
          · rw [List.length_cons]
            omega

end InvertedIndex

/-! ### Runs -/

namespace Service

/-- Every word that the operation adds has a cell. -/
def Op.Admits : Op → Prop
  | .add queue _ => ∀ word ∈ History.words queue, Admissible word
  | .drain _ => True

def Op.wordCount : Op → ℕ
  | .add queue _ => (History.words queue).length
  | .drain _ => 0

structure Accounted (s : Service) : Prop where
  able : s.index.Able
  least : s.raised ≤ s.handled.length + s.index.exceptionQueue.length
  most : s.handled.length + 3 * s.index.exceptionQueue.length ≤ 3 * s.raised

variable {s : Service}

theorem Accounted.add (h : s.Accounted) {queue : WString} (sources : List WString)
    (hwords : ∀ word ∈ History.words queue, Admissible word)
    (hids : s.index.dictIdCounter + (History.words queue).length ≤ 10 ^ 10) :
    ∃ s', s.step (.add queue sources) = some s' ∧ s'.Accounted ∧
      s'.index.dictIdCounter ≤ s.index.dictIdCounter + (History.words queue).length := by
  obtain ⟨wordList, hsplit, _⟩ := exists_split queue (List.cons_ne_nil (32 : WChar) [])
  have hlist : History.words queue = wordList := by rw [History.words, hsplit]; rfl
  rw [hlist] at hwords hids ⊢
  obtain ⟨index, hrun, hable, hcounter⟩ := h.able.addWords sources hwords hids
  have hstep : s.step (.add queue sources) = some { s with
      index
      raised := s.raised + (index.exceptionQueue.length - s.index.exceptionQueue.length) } := by
    rw [step, InvertedIndex.add, hsplit, Exec.ok_bind, hrun]
    rfl
  have hleast := h.least
  have hmost := h.most
  refine ⟨_, hstep, ⟨hable, ?_, ?_⟩, hcounter⟩
  all_goals
    rcases InvertedIndex.addWords_queue hrun with hsame | ⟨e, hpushed⟩
    · simp only [hsame]
      omega
    · simp only [hpushed, List.length_append, List.length_singleton]
      omega

theorem Accounted.drain (h : s.Accounted) (hids : s.index.dictIdCounter ≤ 2 ^ 63)
    (stored : ℕ → ℕ) :
    ∃ s', s.step (.drain stored) = some s' ∧ s'.Accounted ∧
      s'.index.dictIdCounter = s.index.dictIdCounter ∧ s'.index.exceptionQueue = [] ∧
      s'.raised = s.raised := by
  have hrounds := rounds_le s.index.exceptionQueue
  obtain ⟨index, handled, hrun, hable, hcounter, hnil, hleast, hmost⟩ :=
    h.able.drainLoop hids stored hrounds
  have hstep : s.step (.drain stored) =
      some { s with index, handled := s.handled ++ handled } := by
    rw [step, InvertedIndex.drain, hrun]
    rfl
  have hold := h.least
  have hold' := h.most
  refine ⟨_, hstep, ⟨hable, ?_, ?_⟩, hcounter, hnil, rfl⟩
  all_goals
    simp only [hnil, List.length_nil, List.length_append]
    omega

theorem Accounted.step (h : s.Accounted) {op : Op} (hop : op.Admits)
    (hids : s.index.dictIdCounter + op.wordCount ≤ 10 ^ 10) :
    ∃ s', s.step op = some s' ∧ s'.Accounted ∧
      s'.index.dictIdCounter ≤ s.index.dictIdCounter + op.wordCount := by
  cases op with
  | add queue sources => exact h.add sources hop hids
  | drain stored =>
      rw [Op.wordCount] at hids
      obtain ⟨s', hstep, haccounted, hcounter, _⟩ := h.drain (by omega) stored
      exact ⟨s', hstep, haccounted, hcounter.le⟩

theorem start_accounted : start.Accounted :=
  ⟨InvertedIndex.able_new, le_rfl, le_rfl⟩

theorem run_accounted {ops : List Op} (hops : ∀ op ∈ ops, op.Admits)
    (hcount : (ops.map Op.wordCount).sum < 10 ^ 10) :
    ∃ s, Machine.run step start ops = some s ∧ s.Accounted ∧ s.index.dictIdCounter ≤ 2 ^ 63 := by
  obtain ⟨s, hrun, haccounted, _, hids⟩ := Machine.exists_run
    (fun ops (s : Service) => s.Accounted ∧ (∀ op ∈ ops, op.Admits) ∧
      s.index.dictIdCounter + (ops.map Op.wordCount).sum ≤ 10 ^ 10)
    (by
      rintro op rest s ⟨haccounted, hops, hids⟩
      rw [List.map_cons, List.sum_cons] at hids
      obtain ⟨s', hstep, haccounted', hcounter⟩ :=
        haccounted.step (hops op List.mem_cons_self) (by omega)
      exact ⟨s', hstep, haccounted', fun o ho => hops o (List.mem_cons_of_mem _ ho), by omega⟩)
    (s := start) ⟨start_accounted, hops, by
      rw [show start.index.dictIdCounter = 1 from rfl]
      omega⟩
  rw [List.map_nil, List.sum_nil] at hids
  exact ⟨s, hrun, haccounted, by omega⟩

/-- A query of one word, and one of many that the dictionary refuses. -/
def refused : List Op :=
  [.add [97] [[115]],
    .add [98, 32, 99, 32, 100, 32, 101, 32, 102, 32, 103, 32, 104, 32, 105, 32, 106, 32, 107, 32,
      108, 32, 109, 32, 110, 32, 111, 32, 112, 32, 113, 32, 114] [[115]]]

end Service

/-! ### Exceptions that wait

The loop handles the back of the queue and drops the front. As long as no handler pushes, the back
stays, and its exception is handled once for every exception of the queue.
-/

namespace InvertedIndex

/-- The rule for an exception whose handler does not push: what allows for `n + 1` calls of it
allows for `n` behind the first. -/
theorem drainLoop_repeats {Inv : ℕ → InvertedIndex → Prop} {e : Exception}
    (hstep : ∀ n s stored, Inv (n + 1) s → ∃ content s', s.written e = .ok content ∧
      s.handle stored e = .ok s' ∧ s'.exceptionQueue = s.exceptionQueue ∧ Inv n s'.pop)
    (stored : ℕ → ℕ) {front : List Exception} {fuel : ℕ} (hfuel : front.length < fuel)
    {s : InvertedIndex} (hqueue : s.exceptionQueue = front ++ [e]) (hs : Inv (front.length + 1) s) :
    ∃ s', drainLoop stored fuel s = .ok (s', List.replicate (front.length + 1) e) ∧ Inv 0 s' := by
  induction front generalizing fuel s with
  | nil =>
      obtain ⟨fuel, rfl⟩ := Nat.exists_eq_add_one_of_ne_zero (Nat.ne_zero_of_lt hfuel)
      obtain ⟨content, s₁, hwritten, hhandle, hsame, h₁⟩ := hstep 0 s (stored fuel) hs
      have hnil : s₁.pop.exceptionQueue = [] := by
        rw [pop, hsame, hqueue]
        rfl
      refine ⟨s₁.pop, ?_, h₁⟩
      rw [drainLoop, hqueue, List.nil_append, List.getLast?_singleton]
      dsimp only
      rw [hwritten, Exec.ok_bind, hhandle, Exec.ok_bind, drainLoop_of_nil hnil]
      rfl
  | cons first rest ih =>
      obtain ⟨fuel, rfl⟩ := Nat.exists_eq_add_one_of_ne_zero (Nat.ne_zero_of_lt hfuel)
      obtain ⟨content, s₁, hwritten, hhandle, hsame, h₁⟩ := hstep _ s (stored fuel) hs
      have hrest : s₁.pop.exceptionQueue = rest ++ [e] := by
        rw [pop, hsame, hqueue]
        rfl
      obtain ⟨s₂, hrun, h₂⟩ := ih (Nat.lt_of_succ_lt_succ hfuel) hrest h₁
      refine ⟨s₂, ?_, h₂⟩
      rw [drainLoop, hqueue, List.getLast?_concat]
      dsimp only
      rw [hwritten, Exec.ok_bind, hhandle, Exec.ok_bind, hrun]
      rfl

def toGrow (s : InvertedIndex) : Exception → HashTable
  | .fullDict => s.dictionary
  | _ => s.table

def toKeep (s : InvertedIndex) : Exception → HashTable
  | .fullDict => s.table
  | _ => s.dictionary

/-- The table can be doubled as many times as are left, and the other one has stayed. -/
structure Doubles (e : Exception) (size : ℕ) (kept : HashTable) (n : ℕ) (s : InvertedIndex) :
    Prop where
  sound : (s.toGrow e).Sound
  size_eq : 2 ^ n * (s.toGrow e).size = size
  kept_eq : s.toKeep e = kept

theorem Doubles.step {e : Exception} (he : e = .fullTable ∨ e = .fullDict) {size n : ℕ}
    {kept : HashTable} (hsmall : size < maxCapacity) {s : InvertedIndex} (stored : ℕ)
    (h : Doubles e size kept (n + 1) s) :
    ∃ content s', s.written e = .ok content ∧ s.handle stored e = .ok s' ∧
      s'.exceptionQueue = s.exceptionQueue ∧ Doubles e size kept n s'.pop := by
  have hsize := h.size_eq
  rw [pow_succ, Nat.mul_assoc] at hsize
  have hle : 2 * (s.toGrow e).size ≤ 2 ^ n * (2 * (s.toGrow e).size) :=
    Nat.le_mul_of_pos_left _ (Nat.two_pow_pos n)
  rcases h.sound.increaseTable_cases with ⟨hlarge, _⟩ | ⟨_, _, T, _, _, _, hsound, hdouble, hgrow⟩
  · omega
  · rw [← hdouble] at hsize
    rcases he with rfl | rfl
    · refine ⟨[], { s with table := T }, rfl, ?_, rfl, hsound, hsize, h.kept_eq⟩
      have hgrow : s.table.increaseTable = .ok (T, 0) := hgrow
      rw [handle, hgrow]
      rfl
    · refine ⟨[], { s with dictionary := T }, rfl, ?_, rfl, hsound, hsize, h.kept_eq⟩
      have hgrow : s.dictionary.increaseTable = .ok (T, 0) := hgrow
      rw [handle, hgrow]
      rfl

end InvertedIndex

namespace Service

/-- Where refusals wait, the loop answers the last one once for each of them: its table is doubled
as many times as there are exceptions, and the other one stays, whatever the other refusals were. -/
theorem run_doubles {ops : List Op} (hops : ∀ op ∈ ops, op.Admits)
    (hcount : (ops.map Op.wordCount).sum < 10 ^ 10) :
    ∃ s, Machine.run step start ops = some s ∧ ∀ e, e = .fullTable ∨ e = .fullDict →
      s.index.exceptionQueue.getLast? = some e →
      2 ^ s.index.exceptionQueue.length * (s.index.toGrow e).size < maxCapacity →
      ∀ stored, ∃ index, s.index.drain stored =
          .ok (index, List.replicate s.index.exceptionQueue.length e) ∧
        (index.toGrow e).size = 2 ^ s.index.exceptionQueue.length * (s.index.toGrow e).size ∧
        index.toKeep e = s.index.toKeep e := by
  obtain ⟨s, hrun, haccounted, _⟩ := run_accounted hops hcount
  refine ⟨s, hrun, fun e he hback hsmall stored => ?_⟩
  obtain ⟨front, hqueue⟩ := List.getLast?_eq_some_iff.mp hback
  have hlength : s.index.exceptionQueue.length = front.length + 1 := by
    rw [hqueue, List.length_append, List.length_singleton]
  have hsound : (s.index.toGrow e).Sound := by
    rcases he with rfl | rfl
    · exact haccounted.able.table
    · exact haccounted.able.dictionary
  rw [hlength] at hsmall ⊢
  have hs : InvertedIndex.Doubles e (2 ^ (front.length + 1) * (s.index.toGrow e).size)
      (s.index.toKeep e) (front.length + 1) s.index := ⟨hsound, rfl, rfl⟩
  obtain ⟨index, hdrain, hdoubled⟩ := InvertedIndex.drainLoop_repeats
    (fun n _ stored h => InvertedIndex.Doubles.step (n := n) he hsmall stored h) stored
    (show front.length < 3 * (front.length + 1) by omega) hqueue hs
  refine ⟨index, ?_, ?_, hdoubled.kept_eq⟩
  · rw [InvertedIndex.drain, hlength]
    exact hdrain
  · have hsize := hdoubled.size_eq
    rwa [pow_zero, Nat.one_mul] at hsize

/-- The dictionary refuses a query, and then the table refuses another. -/
def refusedTwice : List Op := refused ++ [.add [65] [[115]]]

theorem refusedTwice_doubles : ∃ s, Machine.run step start refusedTwice = some s ∧
    s.index.exceptionQueue = [.fullDict, .fullTable] ∧
    ∃ index, s.index.drain (fun _ => 0) = .ok (index, [.fullTable, .fullTable]) ∧
      index.table.size = 80 ∧ index.dictionary = s.index.dictionary := by
  have hops : ∀ op ∈ refusedTwice, op.Admits := by
    simp only [refusedTwice, refused, List.cons_append, List.nil_append, List.forall_mem_cons]
    exact ⟨by unfold Op.Admits; decide, by unfold Op.Admits; decide, by unfold Op.Admits; decide,
      List.forall_mem_nil _⟩
  obtain ⟨s, hrun, hdoubles⟩ := run_doubles hops (by decide)
  have hqueue : (Machine.run step start refusedTwice).map (fun s =>
      (s.index.exceptionQueue, s.index.table.size)) = some ([.fullDict, .fullTable], 20) := by
    decide +kernel
  rw [hrun, Option.map_some, Option.some.injEq, Prod.mk.injEq] at hqueue
  obtain ⟨hqueue, hsize⟩ := hqueue
  have hgrow : (s.index.toGrow .fullTable).size = 20 := hsize
  have hlast := hdoubles .fullTable (.inl rfl) (hqueue ▸ rfl)
  rw [hqueue, hgrow] at hlast
  obtain ⟨index, hdrain, hdoubled, hkept⟩ := hlast (by decide) fun _ => 0
  exact ⟨s, hrun, hqueue, index, hdrain, hdoubled, hkept⟩

end Service

end IndexServer
