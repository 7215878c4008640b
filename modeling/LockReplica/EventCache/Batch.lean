import LockReplica.EventCache.Basic
import LockReplica.EventCache.Journaled

/-!
# Batches of queries

A batch of transactions asks the log once for every distinct start, and stops at the first refusal. Here it
asks in any given order; a cache asks in the order in which the starts come up (`rangesFrom_eq`). A log answers
by a function (`LockLog.Answers`) if its answers do not depend on what it was asked before.
-/

namespace LockReplica

universe u

variable {σ : Type u} [LockLog σ]

/-! ## Logs that answer by a function -/

namespace LockLog

/-- The log after some queries. -/
def afterQueries (log : σ) (asked : List (Option Position × Position)) : σ :=
  asked.foldl (fun log q => (LockLog.query log q.1 q.2).2) log

/-- Whatever it was asked before, the log answers by the function. -/
def Answers (log : σ) (f : Option Position → Position → Except QueryError EventRange) : Prop :=
  ∀ asked start last, (LockLog.query (afterQueries log asked) start last).1 = f start last

variable {log : σ} {f : Option Position → Position → Except QueryError EventRange}

theorem Answers.query_eq (hf : Answers log f) (start : Option Position) (last : Position) :
    (LockLog.query log start last).1 = f start last := hf [] start last

theorem Answers.query (hf : Answers log f) (start : Option Position) (last : Position) :
    Answers (LockLog.query log start last).2 f := fun asked => hf ((start, last) :: asked)

end LockLog

/-- An event log answers by a function. -/
theorem EventLog.answers_query (log : EventLog) : LockLog.Answers log log.query := by
  intro asked start last
  have hsame : LockLog.afterQueries log asked = log := by
    induction asked with
    | nil => rfl
    | cons q asked ih => exact ih
  rw [hsame]
  rfl

/-- A journal does not change the answers. -/
theorem Journaled.answers {log : σ} {f : Option Position → Position → Except QueryError EventRange}
    (hf : LockLog.Answers log f) (j : Journaled σ) (hj : j.log = log) : LockLog.Answers j f := by
  intro asked start last
  induction asked generalizing j log with
  | nil => exact (congrArg (fun log => (LockLog.query log start last).1) hj).trans (hf.query_eq start last)
  | cons q asked ih => exact ih (hf.query q.1 q.2) _ (by rw [← hj]; rfl)

/-- The journal lists the queries. -/
theorem Journaled.queries_afterQueries (j : Journaled σ) (asked : List (Option Position × Position)) :
    (LockLog.afterQueries j asked).queries = j.queries ++ asked := by
  induction asked generalizing j with
  | nil => exact (List.append_nil _).symm
  | cons q asked ih =>
    refine (ih _).trans ?_
    show (j.queries ++ [q]) ++ asked = _
    rw [List.append_assoc, List.singleton_append]

/-! ## Batches -/

namespace EventCache

/-- The ranges of transactions with given starts, if the log is asked for the starts in a given order. -/
def rangesInOrder (c : EventCache σ) (order : List (Option Position)) (starts : Table Timestamp (Option Position))
    (last : Position) : Except QueryError TransactionRanges × EventCache σ :=
  let (answers, log) := askAll c.log last order
  (answers.map fun answers => ⟨some last, starts.filterMap fun start => answers.lookup start⟩, { c with log })

/-- The order has every start of the transactions, and none twice. -/
structure AsksOnce (order : List (Option Position)) (starts : Table Timestamp (Option Position)) : Prop where
  nodup : order.Nodup
  mem_iff : ∀ start, start ∈ order ↔ start ∈ starts.values

instance (order : List (Option Position)) (starts : Table Timestamp (Option Position)) :
    Decidable (AsksOnce order starts) :=
  decidable_of_iff (order.Nodup ∧ (∀ start ∈ order, start ∈ starts.values) ∧ ∀ start ∈ starts.values, start ∈ order)
    ⟨fun ⟨h, hto, hfrom⟩ => ⟨h, fun start => ⟨hto start, hfrom start⟩⟩,
      fun h => ⟨h.nodup, fun start => (h.mem_iff start).1, fun start => (h.mem_iff start).2⟩⟩

/-- The table has what the function answers from the starts, for each transaction and for no other. -/
def AnswersEach (f : Option Position → Position → Except QueryError EventRange)
    (starts : Table Timestamp (Option Position)) (last : Position) (ranges : Table Timestamp EventRange) : Prop :=
  ∀ t, (ranges.get? t).map Except.ok = (starts.get? t).map (f · last)

/-- The same cache over the same log with an empty journal. -/
def journaled (c : EventCache σ) : EventCache (Journaled σ) :=
  { config := c.config, starts := c.starts, watermark := c.watermark, log := { log := c.log } }

/-- A cache asks for the starts in the order in which they come up. -/
theorem rangesFrom_eq (c : EventCache σ) (starts : Table Timestamp (Option Position)) (last : Position) :
    c.rangesFrom starts last = c.rangesInOrder starts.values.eraseDups starts last := rfl

end EventCache

end LockReplica
