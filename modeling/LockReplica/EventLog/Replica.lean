import LockReplica.EventRange
import LockReplica.LockState
import LockReplica.Timeline

/-!
# Replicas of the log of one epoch

A replica holds a stretch of the log of one epoch: the events that it retains, up to its latest
position, and as its baseline the state before them. Compaction shortens the stretch from below by
folding events into the baseline; new events extend it above.
-/

namespace LockReplica

/-- A replica of the log of an epoch. -/
structure Replica where
  latest : Position
  /-- The state before the retained events. -/
  baseline : LockState
  retained : Timeline
deriving DecidableEq

namespace Replica

/-- The epoch whose log is followed. -/
def epoch (r : Replica) : Epoch := r.latest.epoch

/-! ## Growth -/

/-- The replica that knows the state at a position and nothing else. -/
def ofSnapshot (latest : Position) (state : LockState) : Replica := ⟨latest, state, ∅⟩

/-- The events above the latest position; the others are retained or folded away already. -/
def fresh (r : Replica) (events : List Event) : List Event :=
  events.filter fun e => r.latest.sequence < e.sequence

/-- Retains the fresh events, of several with one sequence the last, and moves to the highest that is
retained then, though never back. -/
def append (r : Replica) (events : List Event) : Replica :=
  let retained := r.retained.insertAll (r.fresh events)
  { r with latest := { r.latest with sequence := Timeline.highest r.latest.sequence retained }, retained }

/-- Takes in events that reach up to `lastKnown`; a delivery that does not reach beyond the latest
position is stale and changes nothing. -/
def extend (r : Replica) (lastKnown : Sequence) (events : List Event) : Replica :=
  if lastKnown ≤ r.latest.sequence then r else r.append events

/-! ## Compaction -/

/-- Folds the events below `n` into the baseline. -/
def compactBelow (r : Replica) (n : Sequence) : Replica :=
  { r with
    baseline := r.baseline.applyAll (r.retained.filter fun e => e.sequence < n).toList
    retained := r.retained.filter fun e => n ≤ e.sequence }

/-! ## Queries -/

/-- The sequence of the oldest retained event. -/
def oldest? (r : Replica) : Option Sequence := r.retained.first?.map Event.sequence

/-- The position that the baseline describes: just before the oldest retained event, or the latest
position if there is none. -/
def baselinePosition (r : Replica) : Position :=
  match r.oldest? with
  | some n => { r.latest with sequence := n.back 1 }
  | none => r.latest

/-- The retained events up to a sequence. -/
def eventsUpTo (r : Replica) (last : Sequence) : List Event :=
  (r.retained.filter fun e => e.sequence ≤ last).toList

/-- The retained events from one sequence up to another. -/
def eventsIn (r : Replica) (first last : Sequence) : List Event :=
  (r.retained.filter fun e => first ≤ e.sequence && e.sequence ≤ last).toList

/-- The events after `start` up to `last`: exactly those if the baseline is not after `start`, and else
the baseline with all retained events up to `last`. -/
def range (r : Replica) (start : Option Position) (last : Sequence) : EventRange :=
  match start with
  | none => rooted
  | some p => if r.baselinePosition ≤ p then .delta (r.eventsIn p.sequence.next last) else rooted
where
  rooted : EventRange :=
    .rooted (r.baseline.asEvent r.baselinePosition.sequence :: r.eventsUpTo last)

/-! ## What the operations keep and change -/

@[simp] theorem epoch_append (r : Replica) (events : List Event) : (r.append events).epoch = r.epoch := rfl

@[simp] theorem epoch_extend (r : Replica) (lastKnown : Sequence) (events : List Event) :
    (r.extend lastKnown events).epoch = r.epoch := by
  unfold extend
  split <;> rfl

/-- New events never move the position back. -/
theorem latest_le_extend (r : Replica) (lastKnown : Sequence) (events : List Event) :
    r.latest ≤ (r.extend lastKnown events).latest := by
  unfold extend
  split
  · exact ⟨rfl, UInt64.le_refl _⟩
  · exact ⟨rfl, Timeline.le_highest _ _⟩

@[simp] theorem epoch_compactBelow (r : Replica) (n : Sequence) : (r.compactBelow n).epoch = r.epoch := rfl

/-- Compaction does not move the position. -/
@[simp] theorem latest_compactBelow (r : Replica) (n : Sequence) : (r.compactBelow n).latest = r.latest := rfl

/-- Compaction keeps exactly the events that are not below. -/
@[simp] theorem mem_retained_compactBelow {r : Replica} {n : Sequence} {e : Event} :
    e ∈ (r.compactBelow n).retained ↔ e ∈ r.retained ∧ n ≤ e.sequence := by
  simp [compactBelow]

/-- Two compactions do what the higher one does. -/
theorem compactBelow_compactBelow (r : Replica) (m n : Sequence) :
    (r.compactBelow m).compactBelow n = r.compactBelow (max m n) := by
  have hmax := Sequence.toNat_max (s := m) (n := n)
  -- what goes at `m`, and then what goes at `n` of the rest
  have hparts := Timeline.below_append_from (r.retained.filter fun e => e.sequence < max m n) m
  have hfirst : (r.retained.filter fun e => e.sequence < max m n).filter (fun e => e.sequence < m) =
      r.retained.filter fun e => e.sequence < m :=
    Ascending.ext_mem fun e => by simp [UInt64.lt_iff_toNat_lt]; omega
  have hsecond : (r.retained.filter fun e => e.sequence < max m n).filter (fun e => m ≤ e.sequence) =
      (r.retained.filter fun e => m ≤ e.sequence).filter fun e => e.sequence < n :=
    Ascending.ext_mem fun e => by simp [UInt64.lt_iff_toNat_lt, UInt64.le_iff_toNat_le]; grind
  have hkept : (r.retained.filter fun e => m ≤ e.sequence).filter (fun e => n ≤ e.sequence) =
      r.retained.filter fun e => max m n ≤ e.sequence :=
    Ascending.ext_mem fun e => by simp [UInt64.le_iff_toNat_le]; grind
  rw [hfirst, hsecond] at hparts
  simp only [compactBelow, hkept, ← LockState.applyAll_append, hparts]

@[simp] theorem mem_fresh {r : Replica} {events : List Event} {e : Event} :
    e ∈ r.fresh events ↔ e ∈ events ∧ r.latest.sequence < e.sequence := by
  simp [fresh]

/-- What is retained after new events was retained before or is above the old position. -/
theorem mem_retained_extend {r : Replica} {lastKnown : Sequence} {events : List Event} {e : Event}
    (he : e ∈ (r.extend lastKnown events).retained) :
    e ∈ r.retained ∨ e ∈ events ∧ r.latest.sequence < e.sequence := by
  unfold extend at he
  split at he
  · exact .inl he
  · exact (Ascending.mem_or_mem_of_mem_insertAll he).imp_right mem_fresh.1

@[simp] theorem mem_eventsUpTo {r : Replica} {last : Sequence} {e : Event} :
    e ∈ r.eventsUpTo last ↔ e ∈ r.retained ∧ e.sequence ≤ last := by
  simp [eventsUpTo]

@[simp] theorem mem_eventsIn {r : Replica} {first last : Sequence} {e : Event} :
    e ∈ r.eventsIn first last ↔ e ∈ r.retained ∧ first ≤ e.sequence ∧ e.sequence ≤ last := by
  simp [eventsIn]

theorem baselinePosition_epoch (r : Replica) : r.baselinePosition.epoch = r.epoch := by
  unfold baselinePosition
  split <;> rfl

/-- Below the greatest sequence, the events from the next one on are those after it. -/
theorem eventsIn_next (r : Replica) {m n : Sequence} (hm : m ≠ Sequence.greatest) :
    r.eventsIn m.next n = (r.retained.filter fun e => m < e.sequence && e.sequence ≤ n).toList := by
  simp only [eventsIn, Sequence.next_le_iff, hm, false_and, or_false]

/-- From the oldest retained event on, all are retained. -/
theorem eventsIn_of_oldest?_eq_some {r : Replica} {first : Sequence} (h : r.oldest? = some first) (last : Sequence) :
    r.eventsIn first last = r.eventsUpTo last := by
  obtain ⟨d, hd, rfl⟩ := Option.map_eq_some_iff.1 h
  refine congrArg Ascending.toList (Ascending.ext_mem fun e => ?_)
  simp only [Ascending.mem_filter, Bool.and_eq_true, decide_eq_true_eq]
  exact and_congr_right fun he => and_iff_right (Timeline.le_of_first?_eq_some hd he)

theorem eventsUpTo_of_oldest?_eq_none {r : Replica} (h : r.oldest? = none) (last : Sequence) :
    r.eventsUpTo last = [] := by
  have hnone := Ascending.first?_eq_none_iff.1 (Option.map_eq_none_iff.1 h)
  exact List.eq_nil_iff_forall_not_mem.2 fun e he => hnone e (mem_eventsUpTo.1 he).1

/-- The start of a query alone decides whether it is answered exactly, whatever its end. -/
theorem range_kinds (r : Replica) (start : Option Position) :
    (∃ p ∈ start, r.baselinePosition ≤ p ∧ ∀ last, r.range start last = .delta (r.eventsIn p.sequence.next last)) ∨
      (∀ p ∈ start, ¬r.baselinePosition ≤ p) ∧ ∀ last, r.range start last = range.rooted r last := by
  cases start with
  | none =>
    refine .inr ⟨fun p hp => ?_, fun last => rfl⟩
    cases hp
  | some p =>
    unfold range
    by_cases hp : r.baselinePosition ≤ p
    · exact .inl ⟨p, rfl, hp, fun last => if_pos hp⟩
    · refine .inr ⟨fun q hq => ?_, fun last => if_neg hp⟩
      cases hq
      exact hp

/-- An answer is exact if it starts where the baseline has not gone beyond, and rooted otherwise. -/
theorem range_cases (r : Replica) (start : Option Position) (last : Sequence) :
    (∃ p ∈ start, r.baselinePosition ≤ p ∧ r.range start last = .delta (r.eventsIn p.sequence.next last)) ∨
      (∀ p ∈ start, ¬r.baselinePosition ≤ p) ∧ r.range start last = range.rooted r last := by
  rcases r.range_kinds start with ⟨p, hp, hle, heq⟩ | ⟨hnot, heq⟩
  · exact .inl ⟨p, hp, hle, heq last⟩
  · exact .inr ⟨hnot, heq last⟩

end Replica

end LockReplica
