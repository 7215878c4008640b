import LockReplica.EventCache.Batch
import LockReplica.Proofs.Conservation

/-!
# A batch gives what single queries give

Fix a log that answers by a function.

* **Asking** (`EventCache.askAll_cases`): if the function answers from all starts, then a batch has these answers and
  the log was asked for each of them; otherwise the batch is refused as one of the starts is.
* **Batches** (`EventCache.rangesInOrder_cases`): so it is with the ranges of transactions, in whatever order the
  distinct starts are asked for. One transaction is a batch as well (`EventCache.rangesFrom_singleton`).
* **Event logs** (`EventCache.rangesInOrder_eq_error_iff`): whether an event log refuses, and how, does not depend on
  the start, so that all orders lead to the same refusal.
-/

namespace LockReplica

universe u

variable {σ : Type u} [LockLog σ]

namespace EventCache

variable {f : Option Position → Position → Except QueryError EventRange} {order : List (Option Position)}
  {starts : Table Timestamp (Option Position)} {last : Position} {t : Timestamp} {start : Option Position}

/-! ## Asking -/

/-- All answers, or one of the refusals. -/
theorem askAll_cases {log : σ} (hf : LockLog.Answers log f) (order : List (Option Position)) (last : Position) :
    (∃ answers, askAll log last order = (.ok answers, LockLog.afterQueries log (order.map (·, last))) ∧
      ∀ start ∈ order, (answers.lookup start).map Except.ok = some (f start last)) ∨
    ∃ e, (askAll log last order).1 = .error e ∧ ∃ start ∈ order, f start last = .error e := by
  induction order generalizing log with
  | nil => exact .inl ⟨[], rfl, fun _ h => absurd h List.not_mem_nil⟩
  | cons start order ih =>
    have hfirst := hf.query_eq start last
    have hafter : LockLog.afterQueries log ((start :: order).map (·, last)) =
        LockLog.afterQueries (LockLog.query log start last).2 (order.map (·, last)) := rfl
    rw [askAll, hafter]
    -- the log that the first query leaves still answers by the function
    replace ih := ih (hf.query start last)
    generalize LockLog.query log start last = answer at hfirst ih
    rcases answer with ⟨e | range, log'⟩
    · exact .inr ⟨e, rfl, start, List.mem_cons_self, hfirst.symm⟩
    rcases ih with ⟨answers, heq, hanswers⟩ | ⟨e, heq, start', hstart', he⟩
    · refine .inl ⟨(start, range) :: answers, ?_, fun start' hstart' => ?_⟩
      · simp only [heq]
      · by_cases hs : start' = start
        · rw [hs, List.lookup_cons_self, ← hfirst, Option.map_some]
        · rw [List.lookup_cons, beq_eq_false_iff_ne.2 hs]
          exact hanswers start' ((List.mem_cons.1 hstart').resolve_left hs)
    · refine .inr ⟨e, ?_, start', List.mem_cons_of_mem _ hstart', he⟩
      dsimp only at heq ⊢
      generalize askAll log' last order = rest at heq
      rcases rest with ⟨rest, log''⟩
      cases heq
      rfl

/-! ## Batches -/

theorem AnswersEach.unique {ranges ranges' : Table Timestamp EventRange} (h : AnswersEach f starts last ranges)
    (h' : AnswersEach f starts last ranges') : ranges = ranges' :=
  Table.ext_get? fun t => Option.map_injective (fun _ _ => Except.ok.inj) ((h t).trans (h' t).symm)

theorem AnswersEach.exists_get? {ranges : Table Timestamp EventRange} (h : AnswersEach f starts last ranges)
    (hstart : starts.get? t = some start) : ∃ range, ranges.get? t = some range ∧ f start last = .ok range := by
  have ht := h t
  rw [hstart] at ht
  obtain ⟨range, hrange, hok⟩ := Option.map_eq_some_iff.1 ht
  exact ⟨range, hrange, hok.symm⟩

/-- All ranges, or one of the refusals. -/
theorem rangesInOrder_cases {c : EventCache σ} (hf : LockLog.Answers c.log f)
    (horder : ∀ start, start ∈ order ↔ start ∈ starts.values) (last : Position) :
    (∃ ranges, c.rangesInOrder order starts last =
        (.ok ⟨some last, ranges⟩, { c with log := LockLog.afterQueries c.log (order.map (·, last)) }) ∧
      AnswersEach f starts last ranges) ∨
    ∃ e, (c.rangesInOrder order starts last).1 = .error e ∧
      ∃ t start, starts.get? t = some start ∧ f start last = .error e := by
  rcases askAll_cases hf order last with ⟨answers, heq, hanswers⟩ | ⟨e, heq, start, hstart, he⟩
  · refine .inl ⟨starts.filterMap fun start => answers.lookup start, by rw [rangesInOrder, heq]; rfl, fun t => ?_⟩
    rw [Table.get?_filterMap]
    cases hstart : starts.get? t with
    | none => rfl
    | some start => exact hanswers start ((horder start).2 (Table.mem_values_iff.2 ⟨t, hstart⟩))
  · obtain ⟨t, ht⟩ := Table.mem_values_iff.1 ((horder start).1 hstart)
    refine .inr ⟨e, ?_, t, start, ht, he⟩
    rw [rangesInOrder]
    generalize askAll c.log last order = answer at heq
    rcases answer with ⟨answer, log⟩
    cases heq
    rfl

/-- An answer has the answers of the single queries. -/
theorem rangesInOrder_eq_ok_iff {c : EventCache σ} {answer : TransactionRanges} (hf : LockLog.Answers c.log f)
    (horder : ∀ start, start ∈ order ↔ start ∈ starts.values) :
    (c.rangesInOrder order starts last).1 = .ok answer ↔
      answer.last = some last ∧ AnswersEach f starts last answer.ranges := by
  rcases answer with ⟨last', ranges'⟩
  rcases rangesInOrder_cases hf horder last with ⟨ranges, heq, hranges⟩ | ⟨e, heq, t, start, hstart, he⟩
  · rw [heq]
    constructor
    · intro h
      cases h
      exact ⟨rfl, hranges⟩
    · rintro ⟨rfl, hranges'⟩
      rw [hranges.unique hranges']
  · rw [heq]
    refine ⟨nofun, fun h => ?_⟩
    obtain ⟨range, -, hok⟩ := h.2.exists_get? hstart
    cases hok.symm.trans he

/-- A batch that is answered has asked for every start in the order, and for nothing else. -/
theorem queries_rangesInOrder {c : EventCache σ} {answer : TransactionRanges} (hf : LockLog.Answers c.log f)
    (horder : ∀ start, start ∈ order ↔ start ∈ starts.values)
    (h : (c.rangesInOrder order starts last).1 = .ok answer) :
    (c.journaled.rangesInOrder order starts last).1 = .ok answer ∧
      (c.journaled.rangesInOrder order starts last).2.log.queries = order.map (·, last) := by
  have hj : LockLog.Answers c.journaled.log f := Journaled.answers hf _ rfl
  have hok : (c.journaled.rangesInOrder order starts last).1 = .ok answer :=
    (rangesInOrder_eq_ok_iff hj horder).2 ((rangesInOrder_eq_ok_iff hf horder).1 h)
  refine ⟨hok, ?_⟩
  rcases rangesInOrder_cases hj horder last with ⟨ranges, heq, -⟩ | ⟨e, heq, -⟩
  · rw [heq]
    exact Journaled.queries_afterQueries _ _
  · cases heq.symm.trans hok

/-! ## The order of a cache -/

theorem nodup_eraseDups : ∀ order : List (Option Position), order.eraseDups.Nodup
  | [] => .nil
  | start :: order => by
    rw [List.eraseDups_cons, List.nodup_cons]
    exact ⟨by simp, nodup_eraseDups (order.filter fun start' => !start' == start)⟩
termination_by order => order.length
decreasing_by exact Nat.lt_succ_of_le (List.length_filter_le _ _)

/-- The cache asks for each distinct start once. -/
theorem asksOnce_eraseDups (starts : Table Timestamp (Option Position)) : AsksOnce starts.values.eraseDups starts :=
  ⟨nodup_eraseDups _, fun _ => List.mem_eraseDups⟩

/-- The batch of one transaction. -/
theorem rangesFrom_singleton {c : EventCache σ} {range : EventRange} (hf : LockLog.Answers c.log f)
    (hrange : f start last = .ok range) :
    (c.rangesFrom (.ofList [(t, start)]) last).1 = .ok ⟨some last, .ofList [(t, range)]⟩ := by
  rw [rangesFrom_eq, rangesInOrder_eq_ok_iff hf (asksOnce_eraseDups _).mem_iff]
  refine ⟨rfl, fun t' => ?_⟩
  rw [Table.get?_singleton, Table.get?_singleton]
  split
  · exact congrArg some hrange.symm
  · rfl

/-- Over an event log, the range of one transaction is the answer from its recorded start. -/
theorem rangesOf_singleton (c : EventCache EventLog) (last : Position) {range : EventRange}
    (h : c.log.query (c.starts.get? t) last = .ok range) :
    (c.rangesOf (.ofList [t]) last).1 = .ok ⟨some last, .ofList [(t, range)]⟩ :=
  rangesFrom_singleton c.log.answers_query h

/-! ## The laws of a batch -/

/-- A batch gives what single queries give. -/
structure BatchLaws (c : EventCache σ) (f : Option Position → Position → Except QueryError EventRange)
    (order : List (Option Position)) (starts : Table Timestamp (Option Position)) (last : Position) : Prop where
  /-- It is answered exactly when all of the single queries are. -/
  isOk_iff : (∃ answer, (c.rangesInOrder order starts last).1 = .ok answer) ↔
    ∀ t start, starts.get? t = some start → ∃ range, f start last = .ok range
  each : ∀ answer, (c.rangesInOrder order starts last).1 = .ok answer →
    answer.last = some last ∧ AnswersEach f starts last answer.ranges
  /-- A transaction alone gets what it gets in the batch. -/
  alone : ∀ answer, (c.rangesInOrder order starts last).1 = .ok answer → ∀ t start, starts.get? t = some start →
    ∃ range, answer.ranges.get? t = some range ∧
      (c.rangesFrom (.ofList [(t, start)]) last).1 = .ok ⟨some last, .ofList [(t, range)]⟩
  /-- The log gets one query for each start in the order, and no other. -/
  queries : ∀ answer, (c.rangesInOrder order starts last).1 = .ok answer →
    (c.journaled.rangesInOrder order starts last).1 = .ok answer ∧
      (c.journaled.rangesInOrder order starts last).2.log.queries = order.map (·, last)
  /-- A refusal is the refusal of one of the starts. -/
  refused : ∀ e, (c.rangesInOrder order starts last).1 = .error e →
    ∃ t start, starts.get? t = some start ∧ f start last = .error e

theorem batchLaws {c : EventCache σ} (hf : LockLog.Answers c.log f) (horder : AsksOnce order starts) :
    BatchLaws c f order starts last where
  isOk_iff := by
    constructor
    · rintro ⟨answer, h⟩ t start hstart
      obtain ⟨range, -, hok⟩ := ((rangesInOrder_eq_ok_iff hf horder.mem_iff).1 h).2.exists_get? hstart
      exact ⟨range, hok⟩
    · intro h
      rcases rangesInOrder_cases hf horder.mem_iff last with ⟨ranges, heq, -⟩ | ⟨e, -, t, start, hstart, he⟩
      · exact ⟨_, congrArg Prod.fst heq⟩
      · obtain ⟨range, hok⟩ := h t start hstart
        cases hok.symm.trans he
  each _ h := (rangesInOrder_eq_ok_iff hf horder.mem_iff).1 h
  alone answer h t start hstart := by
    obtain ⟨range, hrange, hok⟩ := ((rangesInOrder_eq_ok_iff hf horder.mem_iff).1 h).2.exists_get? hstart
    exact ⟨range, hrange, rangesFrom_singleton hf hok⟩
  queries _ h := queries_rangesInOrder hf horder.mem_iff h
  refused e h := by
    rcases rangesInOrder_cases hf horder.mem_iff last with ⟨ranges, heq, -⟩ | ⟨e', heq, hrefused⟩
    · cases (congrArg Prod.fst heq).symm.trans h
    · cases heq.symm.trans h
      exact hrefused

/-! ## Over an event log -/

/-- An event log refuses a batch as it refuses each single query. -/
theorem rangesInOrder_eq_error_iff {c : EventCache EventLog} {e : QueryError} (horder : AsksOnce order starts)
    (hstart : starts.get? t = some start) :
    (c.rangesInOrder order starts last).1 = .error e ↔ c.log.query start last = .error e := by
  have hlaws : BatchLaws c c.log.query order starts last := batchLaws c.log.answers_query horder
  constructor
  · intro h
    obtain ⟨t', start', -, he⟩ := hlaws.refused e h
    exact EventLog.query_eq_error_of_latest?_eq rfl he
  · intro he
    cases hanswer : (c.rangesInOrder order starts last).1 with
    | ok answer =>
      obtain ⟨range, hok⟩ := hlaws.isOk_iff.1 ⟨answer, hanswer⟩ t start hstart
      cases hok.symm.trans he
    | error e' =>
      obtain ⟨t', start', -, he'⟩ := hlaws.refused e' hanswer
      exact congrArg Except.error (Except.error.inj ((EventLog.query_eq_error_of_latest?_eq rfl he').symm.trans he))

end EventCache

open EventCache

/-- **A batch gives what single queries give**, for any log that answers by a function: it is answered exactly when
all of the single queries are, and then with their answers, after one query for each distinct start; otherwise it is
refused as one of them is. The starts may be asked for in any order, of which the cache takes one. An event log
refuses all of them alike, and recorded starts are taken from the record. -/
theorem batch_gives_singles :
    (∀ (σ : Type u) [LockLog σ] (c : EventCache σ) (f : Option Position → Position → Except QueryError EventRange),
      LockLog.Answers c.log f → ∀ (order : List (Option Position)) (starts : Table Timestamp (Option Position)),
        AsksOnce order starts → ∀ last, BatchLaws c f order starts last) ∧
    (∀ starts : Table Timestamp (Option Position), ∃ order, AsksOnce order starts ∧
      ∀ (σ : Type u) [LockLog σ] (c : EventCache σ) (last : Position),
        c.rangesFrom starts last = c.rangesInOrder order starts last) ∧
    (∀ (c : EventCache EventLog) (order : List (Option Position)) (starts : Table Timestamp (Option Position)),
      AsksOnce order starts → ∀ (last : Position) (e : QueryError) (t : Timestamp) (start : Option Position),
        starts.get? t = some start →
          ((c.rangesInOrder order starts last).1 = .error e ↔ c.log.query start last = .error e)) ∧
    ∀ (c : EventCache EventLog) (timestamps : SortedSet Timestamp) (starts : Table Timestamp (Option Position)),
      (∀ t, starts.get? t = if t ∈ timestamps then some (c.starts.get? t) else none) →
        ∀ last, c.rangesOf timestamps last = c.rangesFrom starts last := by
  refine ⟨fun σ _ c f hf order starts horder last => batchLaws hf horder,
    fun starts => ⟨_, asksOnce_eraseDups starts, fun σ _ c last => rangesFrom_eq c starts last⟩,
    fun c order starts horder last e t start hstart => rangesInOrder_eq_error_iff horder hstart,
    fun c timestamps starts h last => ?_⟩
  have hstarts : starts = c.startsOf timestamps := Table.ext_get? fun t => by rw [h, get?_startsOf]
  rw [hstarts, rangesOf]

/-- Two transactions share a start, one has a start of another leader. -/
def EventCache.sampleMixed : EventCache EventLog where
  starts := .ofList [(7, ⟨.ofByte 1, 1⟩), (8, ⟨.ofByte 1, 1⟩), (9, ⟨.ofByte 2, 1⟩)]
  log := .run [.update (.snapshot (.ofByte 1) 0 ∅ ∅),
    .update (.success (.ofByte 1) 2 [.lockByte 1 1, .lockByte 2 2]), .compact ⟨.ofByte 1, 2⟩]

/-- A batch with one more transaction that has no recorded start, in another order than that of the cache. -/
theorem sample_batch_gives_singles :
    let c := EventCache.sampleMixed
    let starts := c.startsOf (.ofList [7, 8, 9, 10])
    let order := [none, some ⟨.ofByte 2, 1⟩, some ⟨.ofByte 1, 1⟩]
    (∃ answer, (c.rangesInOrder order starts ⟨.ofByte 1, 2⟩).1 = .ok answer ∧
      (answer.ranges.get? 8).map (·.events) = some [.lockByte 2 2] ∧
      (answer.ranges.get? 9).map (·.fromSnapshot) = some true ∧
      (c.journaled.rangesInOrder order starts ⟨.ofByte 1, 2⟩).2.log.queries = order.map (·, ⟨.ofByte 1, 2⟩)) ∧
    (c.rangesInOrder order starts ⟨.ofByte 1, 5⟩).1 = .error (.aheadOfLog ⟨.ofByte 1, 5⟩ ⟨.ofByte 1, 2⟩) ∧
    c.rangesOf (.ofList [7, 8, 9, 10]) ⟨.ofByte 1, 2⟩ = c.rangesFrom starts ⟨.ofByte 1, 2⟩ := by
  intro c starts order
  have horder : AsksOnce order starts := by decide
  obtain ⟨hbatch, -, herror, hrecorded⟩ := batch_gives_singles
  have hlaws := hbatch EventLog c c.log.query c.log.answers_query order starts horder ⟨.ofByte 1, 2⟩
  obtain ⟨answer, hanswer⟩ := hlaws.isOk_iff.2 fun t start _ =>
    EventLog.query_isOk_iff.2 ⟨⟨.ofByte 1, 2⟩, by decide, by decide⟩
  have heach := (hlaws.each answer hanswer).2
  obtain ⟨range, hrange, hok⟩ := heach.exists_get? (show starts.get? 8 = some (some ⟨.ofByte 1, 1⟩) by decide)
  obtain ⟨range', hrange', hok'⟩ := heach.exists_get? (show starts.get? 9 = some (some ⟨.ofByte 2, 1⟩) by decide)
  cases hok
  cases hok'
  refine ⟨⟨answer, hanswer, by rw [hrange]; rfl, by rw [hrange']; rfl, (hlaws.queries answer hanswer).2⟩, ?_, ?_⟩
  · exact (herror c order starts horder ⟨.ofByte 1, 5⟩ _ 10 none (by decide)).2 rfl
  · exact hrecorded c (.ofList [7, 8, 9, 10]) starts (fun t => get?_startsOf) ⟨.ofByte 1, 2⟩

end LockReplica
