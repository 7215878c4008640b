import LockReplica.EventLog.Replica
import LockReplica.QueryError
import LockReplica.Update

/-!
# The event log of a client

A client follows the lock server through a log that either knows no position or is a replica of the
log of one epoch. A snapshot establishes a replica whatever came before. Events extend a replica of
their own epoch only: under another leader, or with no replica to extend, they tell nothing, and the
log forgets what it has, as it does after a failed update.
-/

namespace LockReplica

/-- What a client knows of the log of the lock server. -/
inductive EventLog where
  /-- No position is known. -/
  | unknown
  /-- The log of an epoch is followed. -/
  | known (replica : Replica)
deriving DecidableEq

namespace EventLog

instance : Inhabited EventLog := ⟨unknown⟩

/-! ## Views -/

/-- The latest known position. -/
def latest? : EventLog → Option Position
  | unknown => none
  | known r => some r.latest

/-- The retained events. -/
def retained : EventLog → Timeline
  | unknown => ∅
  | known r => r.retained

/-- The sequence of the oldest retained event. -/
def oldest? : EventLog → Option Sequence
  | unknown => none
  | known r => r.oldest?

/-- The position that the baseline describes. -/
def baselinePosition? : EventLog → Option Position
  | unknown => none
  | known r => some r.baselinePosition

/-- The state before the retained events. -/
def baseline : EventLog → LockState
  | unknown => ∅
  | known r => r.baseline

/-- The state at the latest position: the baseline and then the retained events. -/
def current (log : EventLog) : LockState := log.baseline.applyAll log.retained.toList

/-! ## Changes -/

/-- The log after events of an epoch that reach up to `lastKnown`. -/
def deliver (log : EventLog) (epoch : Epoch) (lastKnown : Sequence) (events : List Event) : EventLog :=
  match log with
  | unknown => unknown
  | known r => if epoch = r.epoch then known (r.extend lastKnown events) else unknown

/-- The log after an update. -/
def update (log : EventLog) : Update → EventLog
  | .success epoch lastKnown events => log.deliver epoch lastKnown events
  | .snapshot epoch lastKnown locked watched => known (.ofSnapshot ⟨epoch, lastKnown⟩ ⟨locked, watched⟩)
  | .failed _ => unknown

/-- Forgets the single events before a position of the epoch of the log, keeping their outcome; a
position of another epoch is ignored. -/
def compact (log : EventLog) (before : Position) : EventLog :=
  match log with
  | unknown => unknown
  | known r => if before.epoch = r.epoch then known (r.compactBelow before.sequence) else known r

/-! ## Queries -/

/-- The events after `start` up to and including `last`. -/
def query (log : EventLog) (start : Option Position) (last : Position) : Except QueryError EventRange :=
  match log with
  | unknown => .error .unknownVersion
  | known r =>
    if last.epoch ≠ r.epoch then .error (.epochMismatch last r.latest)
    else if r.latest.sequence < last.sequence then .error (.aheadOfLog last r.latest)
    else .ok (r.range start last.sequence)

/-- A position is not ahead of the log. One of another epoch than that of the log is not, and none is if the log
knows no position. -/
def Reaches (log : EventLog) (p : Position) : Prop :=
  ∀ latest ∈ log.latest?, p.epoch = latest.epoch → p.sequence ≤ latest.sequence

instance (log : EventLog) (p : Position) : Decidable (log.Reaches p) :=
  inferInstanceAs (Decidable (∀ latest ∈ log.latest?, p.epoch = latest.epoch → p.sequence ≤ latest.sequence))

/-! ## What the operations keep -/

/-- Compaction does not move the position. -/
@[simp] theorem latest?_compact (log : EventLog) (before : Position) :
    (log.compact before).latest? = log.latest? := by
  cases log with
  | unknown => rfl
  | known r => rw [compact]; split <;> rfl

/-- Without a position, no events and no compaction establish one. -/
@[simp] theorem deliver_unknown (epoch : Epoch) (lastKnown : Sequence) (events : List Event) :
    deliver unknown epoch lastKnown events = unknown := rfl

/-- A position after new events comes from one before, and not from a later one. -/
theorem exists_le_of_mem_latest?_deliver {log : EventLog} {epoch : Epoch} {lastKnown : Sequence}
    {events : List Event} {p : Position} (h : p ∈ (log.deliver epoch lastKnown events).latest?) :
    ∃ q ∈ log.latest?, q.epoch = epoch ∧ q ≤ p := by
  cases log with
  | unknown => cases h
  | known r =>
    rw [deliver] at h
    split at h
    · cases h
      exact ⟨r.latest, rfl, ‹epoch = r.epoch›.symm, r.latest_le_extend lastKnown events⟩
    · cases h

/-- Unless it tells the whole state, an update only takes a log on from where it is. -/
theorem exists_le_of_mem_latest?_update {log : EventLog} {u : Update} (hu : ¬u.IsSnapshot) {p : Position}
    (h : p ∈ (log.update u).latest?) : ∃ q ∈ log.latest?, q ≤ p := by
  cases u with
  | snapshot epoch lastKnown locked watched => exact absurd trivial hu
  | failed epoch => cases h
  | success epoch lastKnown events =>
    obtain ⟨q, hq, -, hle⟩ := exists_le_of_mem_latest?_deliver h
    exact ⟨q, hq, hle⟩

/-- A snapshot takes a log to its own position. -/
theorem latest?_update_of_isSnapshot {log : EventLog} {u : Update} (hu : u.IsSnapshot) :
    (log.update u).latest? = u.lastKnownPosition := by
  cases u with
  | snapshot epoch lastKnown locked watched => rfl
  | success epoch lastKnown events => exact absurd hu id
  | failed epoch => exact absurd hu id

theorem retained_update_of_isSnapshot {log : EventLog} {u : Update} (hu : u.IsSnapshot) :
    (log.update u).retained = ∅ := by
  cases u with
  | snapshot epoch lastKnown locked watched => rfl
  | success epoch lastKnown events => exact absurd hu id
  | failed epoch => exact absurd hu id

/-- What a log retains after an update it retained before, or it is above the old position. -/
theorem mem_retained_update {log : EventLog} {u : Update} {e : Event} (he : e ∈ (log.update u).retained) :
    e ∈ log.retained ∨ ∀ p ∈ log.latest?, p.sequence < e.sequence := by
  cases u with
  | snapshot epoch lastKnown locked watched => exact absurd he Ascending.not_mem_empty
  | failed epoch => exact absurd he Ascending.not_mem_empty
  | success epoch lastKnown events =>
    cases log with
    | unknown => exact .inl he
    | known r =>
      rw [update, deliver] at he
      split at he
      · refine (Replica.mem_retained_extend he).imp_right fun h p hp => ?_
        cases hp
        exact h.2
      · exact absurd he Ascending.not_mem_empty

@[simp] theorem compact_unknown (before : Position) : compact unknown before = unknown := rfl

theorem reaches_of_mem_latest? {log : EventLog} {p : Position} (hp : p ∈ log.latest?) : log.Reaches p := by
  intro latest hlatest _
  cases Option.mem_unique hp hlatest
  exact UInt64.le_refl _

/-- A log that goes on reaches what it did before. -/
theorem Reaches.update {log : EventLog} {p : Position} (h : log.Reaches p) {u : Update} (hu : ¬u.IsSnapshot) :
    (log.update u).Reaches p := by
  intro latest hlatest hepoch
  obtain ⟨q, hq, hle⟩ := exists_le_of_mem_latest?_update hu hlatest
  exact UInt64.le_trans (h q hq (hepoch.trans hle.1.symm)) hle.2

@[simp] theorem reaches_compact {log : EventLog} {p before : Position} :
    (log.compact before).Reaches p ↔ log.Reaches p := by
  rw [Reaches, Reaches, latest?_compact]

/-- Two compactions within one epoch do what the higher one does. -/
theorem compact_compact (log : EventLog) (epoch : Epoch) (m n : Sequence) :
    (log.compact ⟨epoch, m⟩).compact ⟨epoch, n⟩ = log.compact ⟨epoch, max m n⟩ := by
  cases log with
  | unknown => rfl
  | known r =>
    by_cases hepoch : epoch = r.epoch
    · simp [compact, hepoch, r.compactBelow_compactBelow]
    · simp [compact, hepoch]

/-- Two compactions may change places. -/
theorem compact_comm (log : EventLog) (p q : Position) : (log.compact p).compact q = (log.compact q).compact p := by
  by_cases hpq : p.epoch = q.epoch
  · obtain ⟨epoch, m⟩ := p
    obtain ⟨_, n⟩ := q
    cases hpq
    rw [compact_compact, compact_compact, Sequence.max_comm]
  · -- the log ignores at least one of them
    cases log with
    | unknown => rfl
    | known r =>
      by_cases hp : p.epoch = r.epoch
      · have hq : q.epoch ≠ r.epoch := fun hq => hpq (hp.trans hq.symm)
        simp [compact, hp, hq]
      · by_cases hq : q.epoch = r.epoch <;> simp [compact, hp, hq]

theorem compact_compact_of_le (log : EventLog) {p q : Position} (hpq : p ≤ q) :
    (log.compact p).compact q = log.compact q := by
  obtain ⟨epoch, m⟩ := p
  obtain ⟨_, n⟩ := q
  cases hpq.1
  rw [compact_compact, Sequence.max_eq_right hpq.2]

/-- A query with an end that the log has reached is answered from the replica. -/
theorem query_eq_ok_iff {log : EventLog} {start : Option Position} {last : Position} {range : EventRange} :
    log.query start last = .ok range ↔
      ∃ r, log = known r ∧ last ≤ r.latest ∧ r.range start last.sequence = range := by
  cases log with
  | unknown => simp [query]
  | known r =>
    simp only [query, Position.le_def, known.injEq, exists_eq_left']
    by_cases he : last.epoch = r.epoch
    · rw [if_neg (by simp [he])]
      by_cases hs : r.latest.sequence < last.sequence
      · simp [hs, UInt64.not_le.2 hs]
      · simp [hs, UInt64.not_lt.1 hs, show last.epoch = r.latest.epoch from he]
    · rw [if_pos he]
      simp [show ¬last.epoch = r.latest.epoch from he]

/-- Whether a query is refused, and how, depends on the latest position and the end alone. -/
theorem query_eq_error_of_latest?_eq {log log' : EventLog} {start start' : Option Position} {last : Position}
    {e : QueryError}
    (hlatest : log.latest? = log'.latest?) (h : log.query start last = .error e) :
    log'.query start' last = .error e := by
  cases log with
  | unknown =>
    cases log' with
    | unknown => exact h
    | known r' => cases hlatest
  | known r =>
    cases log' with
    | unknown => cases hlatest
    | known r' =>
      have hr : r.latest = r'.latest := Option.some.inj hlatest
      have hepoch : r.epoch = r'.epoch := congrArg Position.epoch hr
      rw [query, hepoch, hr] at h
      rw [query]
      split at h
      · rwa [if_pos ‹_›]
      · rw [if_neg ‹_›]
        split at h
        · rwa [if_pos ‹_›]
        · cases h

/-- A query is answered exactly when its end is a position that the log has reached. -/
theorem query_isOk_iff {log : EventLog} {start : Option Position} {last : Position} :
    (∃ range, log.query start last = .ok range) ↔ ∃ p ∈ log.latest?, last ≤ p := by
  constructor
  · rintro ⟨range, h⟩
    obtain ⟨r, rfl, hlast, -⟩ := query_eq_ok_iff.1 h
    exact ⟨r.latest, rfl, hlast⟩
  · rintro ⟨p, hp, hlast⟩
    cases log with
    | unknown => cases hp
    | known r =>
      cases hp
      exact ⟨_, query_eq_ok_iff.2 ⟨r, rfl, hlast, rfl⟩⟩

end EventLog

end LockReplica
