import LockReplica.Ascending.Lemmas
import LockReplica.Event

/-!
# Answers to queries

A range is what a log answers about the time between two positions. It is either an exact list of the
events in between, or rooted in a snapshot: then its first event stands for all that came before, and
what the reader knew from earlier answers is void. Answers for several transactions are kept by
start timestamp.
-/

namespace LockReplica

/-- The events between two positions of a log. -/
structure EventRange where
  /-- Whether the first event stands for the whole state before the others. -/
  fromSnapshot : Bool
  events : List Event
deriving DecidableEq

namespace EventRange

/-- Exactly the events in between. -/
def delta (events : List Event) : EventRange := ⟨false, events⟩

/-- A state as an event, and the events after it. -/
def rooted (events : List Event) : EventRange := ⟨true, events⟩

/-- The event that stands for the state before the others, in an answer that is rooted in a snapshot. -/
def root? (r : EventRange) : Option Event := if r.fromSnapshot then r.events.head? else none

/-- The events besides the one that stands for the state before them. -/
def rest (r : EventRange) : List Event := if r.fromSnapshot then r.events.tail else r.events

/-- The sequences of the events. -/
def sequences (r : EventRange) : List Sequence := r.events.map Event.sequence

/-- All descriptors that some event mentions. -/
def touched (r : EventRange) : DescriptorSet := .ofList (r.events.flatMap fun e => e.descriptors.toList)

@[simp] theorem mem_touched {r : EventRange} {d : Descriptor} :
    d ∈ r.touched ↔ ∃ e ∈ r.events, d ∈ e.descriptors := by
  simp [touched]

end EventRange

/-- The start timestamp of a transaction. -/
abbrev Timestamp := UInt64

/-- The ranges of several transactions, by start timestamp. -/
structure TransactionRanges where
  /-- The position up to which the ranges go. -/
  last : Option Position
  ranges : Table Timestamp EventRange
deriving DecidableEq

end LockReplica
