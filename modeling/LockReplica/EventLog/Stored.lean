import LockReplica.EventLog.Run

/-!
# Logs as they are stored

A client stores its log in three fields: the retained events, the latest position, and the state before the events.
Nothing in the fields ties one to another. That events and a state are only there at a position (`Anchored`) is kept by
what every operation writes into them: an operation that gives up the position empties the other two (`discard`). An
event log is stored in such fields (`EventLog.stored`), and every anchored value of the fields stores one event log
(`exists_stored_eq_iff`).
-/

namespace LockReplica

/-- The fields of the event log of a client. -/
structure StoredLog where
  /-- The retained events. -/
  events : Timeline := ∅
  /-- The latest known position. -/
  latest : Option Position := none
  /-- The state before the retained events. -/
  snapshot : LockState := ∅
deriving DecidableEq

namespace StoredLog

/-! ## Changes -/

/-- Empties all fields. -/
def discard (s : StoredLog) : StoredLog := { s with events := ∅, latest := none, snapshot := ∅ }

/-- Another epoch than that of the known position, and every epoch if no position is known. -/
def isLeaderChange (s : StoredLog) (epoch : Epoch) : Bool :=
  match s.latest with
  | some latest => latest.epoch ≠ epoch
  | none => true

/-- Takes in events that reach up to `lastKnown`. They are stale if the position is as high already. Those at or below
the position are stored or folded into the state already, and are left out. -/
def extend (s : StoredLog) (epoch : Epoch) (lastKnown : Sequence) (events : List Event) : StoredLog :=
  match s.latest with
  | none => s
  | some latest =>
    if lastKnown ≤ latest.sequence then s
    else
      let events := s.events.insertAll (events.filter fun e => latest.sequence < e.sequence)
      { s with events, latest := some ⟨epoch, Timeline.highest latest.sequence events⟩ }

/-- Takes over a whole state. -/
def reset (s : StoredLog) (epoch : Epoch) (lastKnown : Sequence) (locked : DescriptorSet)
    (watched : ReferenceSet) : StoredLog :=
  { s with events := ∅, snapshot := ⟨locked, watched⟩, latest := some ⟨epoch, lastKnown⟩ }

/-- The fields after an update. -/
def update (s : StoredLog) : Update → StoredLog
  | .success epoch lastKnown events =>
    if s.isLeaderChange epoch then s.discard else s.extend epoch lastKnown events
  | .snapshot epoch lastKnown locked watched => s.reset epoch lastKnown locked watched
  | .failed _ => s.discard

/-- Folds the events before a position of the known epoch into the state. -/
def compact (s : StoredLog) (before : Position) : StoredLog :=
  match s.latest with
  | none => s
  | some latest =>
    if latest.epoch ≠ before.epoch then s
    else
      let removed := s.events.filter fun e => e.sequence < before.sequence
      let s := { s with events := s.events.filter fun e => before.sequence ≤ e.sequence }
      if removed.isEmpty then s else { s with snapshot := s.snapshot.applyAll removed.toList }

def step (s : StoredLog) : LogOp → StoredLog
  | .update u => s.update u
  | .compact before => s.compact before

/-- The fields after the calls, which are empty at first. -/
def run (ops : List LogOp) : StoredLog := ops.foldl step {}

/-! ## Queries -/

/-- The sequence of the oldest retained event. -/
def oldest? (s : StoredLog) : Option Sequence := s.events.first?.map Event.sequence

/-- The position that the state describes. -/
def baselinePosition (s : StoredLog) (latest : Position) : Position :=
  match s.oldest? with
  | some first => ⟨latest.epoch, first.back 1⟩
  | none => latest

/-- The first sequence of an exact answer after `start`, if there is an exact one. -/
def exactStart? (s : StoredLog) (start : Option Position) (latest : Position) : Option Sequence :=
  match start with
  | none => none
  | some p =>
    if p.epoch ≠ latest.epoch then none
    else if p.sequence < (s.baselinePosition latest).sequence then none
    else some p.sequence.next

/-- The retained events from one sequence up to another, and none if the second is below the first. -/
def eventsIn (s : StoredLog) (first last : Sequence) : List Event :=
  if last < first then []
  else (s.events.filter fun e => first ≤ e.sequence && e.sequence ≤ last).toList

/-- The state as an event, and the retained events from the oldest up to `last`. -/
def rooted (s : StoredLog) (latest : Position) (last : Sequence) : EventRange :=
  let root := s.snapshot.asEvent (s.baselinePosition latest).sequence
  match s.oldest? with
  | some first => .rooted (root :: s.eventsIn first last)
  | none => .rooted [root]

/-- The events after `start` up to `last`, which the latest position has reached. -/
def range (s : StoredLog) (latest : Position) (start : Option Position) (last : Sequence) : EventRange :=
  match s.exactStart? start latest with
  | some first => .delta (s.eventsIn first last)
  | none => s.rooted latest last

/-- The events after `start` up to and including `last`. -/
def query (s : StoredLog) (start : Option Position) (last : Position) : Except QueryError EventRange :=
  match s.latest with
  | none => .error .unknownVersion
  | some latest =>
    if last.epoch ≠ latest.epoch then .error (.epochMismatch last latest)
    else if latest.sequence < last.sequence then .error (.aheadOfLog last latest)
    else .ok (s.range latest start last.sequence)

/-! ## What the operations keep -/

/-- Events and a state are only stored at a position. -/
def Anchored (s : StoredLog) : Prop := s.latest = none → s.events = ∅ ∧ s.snapshot = ∅

theorem anchored_of_latest_eq_some {s : StoredLog} {p : Position} (h : s.latest = some p) : s.Anchored := by
  intro hnone
  rw [h] at hnone
  cases hnone

theorem anchored_discard (s : StoredLog) : s.discard.Anchored := fun _ => ⟨rfl, rfl⟩

namespace Anchored

variable {s : StoredLog} (hs : s.Anchored)

include hs

theorem extend (epoch : Epoch) (lastKnown : Sequence) (events : List Event) :
    (s.extend epoch lastKnown events).Anchored := by
  unfold StoredLog.extend
  cases s.latest with
  | none => exact hs
  | some latest =>
    dsimp only
    split
    · exact hs
    · exact anchored_of_latest_eq_some rfl

theorem update (u : Update) : (s.update u).Anchored := by
  cases u with
  | success epoch lastKnown events =>
    rw [StoredLog.update]
    split
    · exact s.anchored_discard
    · exact hs.extend epoch lastKnown events
  | snapshot epoch lastKnown locked watched => exact anchored_of_latest_eq_some rfl
  | failed epoch => exact s.anchored_discard

theorem compact (before : Position) : (s.compact before).Anchored := by
  unfold StoredLog.compact
  cases s.latest with
  | none => exact hs
  | some latest =>
    dsimp only
    split
    · exact hs
    · split <;> exact anchored_of_latest_eq_some rfl

theorem step (op : LogOp) : (s.step op).Anchored := by
  cases op with
  | update u => exact hs.update u
  | compact before => exact hs.compact before

end Anchored

/-- Every run keeps events and a state only at a position. -/
theorem anchored_run (ops : List LogOp) : (run ops).Anchored :=
  List.foldlRecOn ops step (fun _ => ⟨rfl, rfl⟩) fun _ hs op _ => hs.step op

end StoredLog

/-! ## Event logs in their fields -/

namespace EventLog

/-- The fields in which a log is stored. -/
def stored : EventLog → StoredLog
  | unknown => {}
  | known r => ⟨r.retained, some r.latest, r.baseline⟩

theorem stored_inj {log log' : EventLog} : log.stored = log'.stored ↔ log = log' := by
  refine ⟨fun h => ?_, fun h => h ▸ rfl⟩
  cases log with
  | unknown =>
    cases log' with
    | unknown => rfl
    | known r' => cases congrArg StoredLog.latest h
  | known r =>
    cases log' with
    | unknown => cases congrArg StoredLog.latest h
    | known r' =>
      cases r
      cases r'
      cases h
      rfl

/-- Exactly the anchored fields store a log. -/
theorem exists_stored_eq_iff {s : StoredLog} : (∃ log : EventLog, log.stored = s) ↔ s.Anchored := by
  constructor
  · rintro ⟨log, rfl⟩
    cases log with
    | unknown => exact fun _ => ⟨rfl, rfl⟩
    | known r => exact StoredLog.anchored_of_latest_eq_some rfl
  · intro hs
    obtain ⟨events, latest, snapshot⟩ := s
    cases latest with
    | none =>
      obtain ⟨rfl, rfl⟩ := hs rfl
      exact ⟨unknown, rfl⟩
    | some p => exact ⟨known ⟨p, snapshot, events⟩, rfl⟩

end EventLog

end LockReplica
