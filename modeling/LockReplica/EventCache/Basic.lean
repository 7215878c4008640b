import LockReplica.EventCache.Config
import LockReplica.EventCache.LockLog

/-!
# The event cache

The cache remembers for every live transaction the position that the log had when the transaction
started, and asks the log for the events since then. When a transaction finishes, the log may forget
single events before the watermark: the oldest start of a live transaction in the epoch of the log (or
the latest position, if there is none) less a configured reserve. The log is told only when the
watermark rises within its epoch or the epoch is another one.
-/

namespace LockReplica

universe u

/-- A record of transaction starts on top of a log. -/
structure EventCache (σ : Type u) where
  config : Config := {}
  /-- The start positions of the live transactions. -/
  starts : Table Timestamp Position := ∅
  /-- The last watermark given to the log. -/
  watermark : Option Position := none
  log : σ

namespace EventCache

variable {σ : Type u}

/-! ## Views -/

/-- The number of live transactions with a start position. -/
def tracked (c : EventCache σ) : Nat := c.starts.size

/-- The recorded start position of each of the timestamps. -/
def startsOf (c : EventCache σ) (timestamps : SortedSet Timestamp) : Table Timestamp (Option Position) :=
  Table.ofKeys c.starts.get? timestamps

theorem get?_startsOf {c : EventCache σ} {timestamps : SortedSet Timestamp} {t : Timestamp} :
    (c.startsOf timestamps).get? t = if t ∈ timestamps then some (c.starts.get? t) else none :=
  Table.get?_ofKeys

/-- The oldest recorded start within an epoch. -/
def earliestIn? (c : EventCache σ) (epoch : Epoch) : Option Position :=
  ((c.starts.values.filter (·.epoch = epoch)).map (·.sequence)).min?.map fun n => ⟨epoch, n⟩

/-- Whether a watermark is higher than the last one, or of another epoch. -/
def advances (c : EventCache σ) (candidate : Position) : Bool :=
  match c.watermark with
  | none => true
  | some previous => previous.epoch ≠ candidate.epoch || previous.sequence < candidate.sequence

/-- The watermark of a log at the position `latest`. -/
def watermarkAt (c : EventCache σ) (latest : Position) : Position :=
  ((c.earliestIn? latest.epoch).getD latest).back c.config.retainedSequences

variable [LockLog σ]

/-- The oldest recorded start within the epoch of the log. -/
def earliestLive? (c : EventCache σ) : Option Position × EventCache σ :=
  let (latest, log) := LockLog.latest? c.log
  (latest.bind fun p => c.earliestIn? p.epoch, { c with log })

/-! ## Updates and starts -/

/-- Takes in an update. -/
def update (c : EventCache σ) (u : Update) : EventCache σ :=
  { c with log := (LockLog.update c.log u).2 }

/-- Takes in an update and records the position known then as the start of the transactions; nothing
is recorded when no position is known. -/
def start (c : EventCache σ) (timestamps : SortedSet Timestamp) (u : Update) : EventCache σ :=
  let (position, log) := LockLog.update c.log u
  match position with
  | none => { c with log }
  | some p => { c with log, starts := timestamps.toList.foldl (fun starts t => starts.set t p) c.starts }

@[simp] theorem watermark_start (c : EventCache σ) (timestamps : SortedSet Timestamp) (u : Update) :
    (c.start timestamps u).watermark = c.watermark := by
  simp only [start]
  split <;> rfl

/-- A start is recorded with the position that the log gives, if it gives one. -/
theorem get?_starts_start_eq {c : EventCache σ} {timestamps : SortedSet Timestamp} {u : Update} {t : Timestamp} :
    (c.start timestamps u).starts.get? t =
      if t ∈ timestamps then (LockLog.update c.log u).1.or (c.starts.get? t) else c.starts.get? t := by
  rw [start]
  generalize LockLog.update c.log u = answer
  rcases answer with ⟨_ | p, log⟩
  · simp
  · rw [Option.some_or]
    exact Table.get?_foldl_set

/-! ## Finished transactions -/

/-- Tells the log of the watermark if it advances. -/
def compact (c : EventCache σ) : EventCache σ :=
  let (latest, log) := LockLog.latest? c.log
  match latest with
  | none => { c with log }
  | some latest =>
    let earliest := c.watermarkAt latest
    if c.advances earliest then
      { c with log := LockLog.compact log earliest, watermark := some earliest }
    else { c with log }

/-- Forgets a transaction, and compacts the log if it was a live one. -/
def finish (c : EventCache σ) (t : Timestamp) : EventCache σ :=
  let rest := { c with starts := c.starts.erase t }
  if c.starts.contains t && c.config.compaction then rest.compact else rest

/-! ## Queries -/

/-- Asks for the ranges from each start, up to the first refusal. -/
def askAll (log : σ) (last : Position) :
    List (Option Position) → Except QueryError (List (Option Position × EventRange)) × σ
  | [] => (.ok [], log)
  | start :: starts =>
    match LockLog.query log start last with
    | (.error e, log) => (.error e, log)
    | (.ok range, log) =>
      match askAll log last starts with
      | (.error e, log) => (.error e, log)
      | (.ok ranges, log) => (.ok ((start, range) :: ranges), log)

/-- The ranges of transactions with given starts. Transactions of one start share one query. -/
def rangesFrom (c : EventCache σ) (starts : Table Timestamp (Option Position)) (last : Position) :
    Except QueryError TransactionRanges × EventCache σ :=
  let (answers, log) := askAll c.log last starts.values.eraseDups
  (answers.map fun answers => ⟨some last, starts.filterMap fun start => answers.lookup start⟩, { c with log })

/-- The ranges of transactions from their recorded starts. -/
def rangesOf (c : EventCache σ) (timestamps : SortedSet Timestamp) (last : Position) :
    Except QueryError TransactionRanges × EventCache σ :=
  c.rangesFrom (c.startsOf timestamps) last

/-! ## Over an event log -/

section

variable (c : EventCache EventLog) (timestamps : SortedSet Timestamp) (last : Position) (u : Update) {t : Timestamp}

/-- An event log is not changed by questions. -/
theorem askAll_log (log : EventLog) (starts : List (Option Position)) :
    (askAll log last starts).2 = log := by
  induction starts with
  | nil => rfl
  | cons start starts ih =>
    rw [askAll]
    cases hq : log.query start last with
    | error e => simp [LockLog.query, hq]
    | ok range =>
      simp only [LockLog.query, hq]
      generalize askAll log last starts = answer at ih
      rcases answer with ⟨answer | answer, rest⟩
      · exact ih
      · exact ih

@[simp] theorem rangesFrom_cache (starts : Table Timestamp (Option Position)) : (c.rangesFrom starts last).2 = c := by
  have hlog : (c.rangesFrom starts last).2 = { c with log := (askAll c.log last starts.values.eraseDups).2 } := rfl
  rw [hlog, askAll_log]

@[simp] theorem rangesOf_cache : (c.rangesOf timestamps last).2 = c := rangesFrom_cache c last _

@[simp] theorem log_start : (c.start timestamps u).log = c.log.update u := by
  simp only [start, LockLog.update]
  split <;> rfl

/-- A start is recorded with the position that the update leads to, if there is one. -/
theorem get?_starts_start : (c.start timestamps u).starts.get? t =
    if t ∈ timestamps then (c.log.update u).latest?.or (c.starts.get? t) else c.starts.get? t :=
  get?_starts_start_eq

theorem mem_starts_start {p : Position} (hp : p ∈ (c.start timestamps u).starts.values) :
    p ∈ (c.log.update u).latest? ∨ p ∈ c.starts.values := by
  obtain ⟨t, ht⟩ := Table.mem_values_iff.1 hp
  rw [get?_starts_start] at ht
  split at ht
  · exact (Option.or_eq_some_iff.1 ht).imp id fun h => Table.mem_values_iff.2 ⟨t, h.2⟩
  · exact .inr (Table.mem_values_iff.2 ⟨t, ht⟩)

end

end EventCache

end LockReplica
