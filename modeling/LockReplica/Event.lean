import LockReplica.Ascending.Basic
import LockReplica.Descriptor
import LockReplica.Position
import LockReplica.Reference
import LockReplica.Token

/-!
# Events of the lock log

An event is one change of what is locked or watched, under the sequence that it has in the log of
its epoch. The events that a replica keeps form a timeline: at most one per sequence, in order.
-/

namespace LockReplica

/-- A set of descriptors. -/
abbrev DescriptorSet := SortedSet Descriptor

/-- A set of references. -/
abbrev ReferenceSet := SortedSet Reference

/-- A change of what is locked or watched. -/
inductive Event where
  /-- Descriptors were locked under a token. -/
  | lock (sequence : Sequence) (descriptors : DescriptorSet) (token : Token)
  /-- Descriptors were released. -/
  | unlock (sequence : Sequence) (descriptors : DescriptorSet)
  /-- Watches were registered, at a time when some descriptors under them were locked already. -/
  | watchCreated (sequence : Sequence) (references : ReferenceSet) (descriptors : DescriptorSet)
deriving DecidableEq

namespace Event

/-- The number of the event in its epoch. -/
def sequence : Event → Sequence
  | lock n .. | unlock n _ | watchCreated n .. => n

/-- The descriptors that the event mentions. -/
def descriptors : Event → DescriptorSet
  | lock _ ds _ | unlock _ ds | watchCreated _ _ ds => ds

/-- The word for the kind of the event. -/
def kind : Event → String
  | lock .. => "lock"
  | unlock .. => "unlock"
  | watchCreated .. => "created"

/-- What the event mentions is locked after it. -/
def Locks : Event → Prop
  | lock .. | watchCreated .. => True
  | unlock .. => False

instance : DecidablePred Locks
  | lock .. | watchCreated .. => .isTrue trivial
  | unlock .. => .isFalse id

/-- What an event is made from: a set is given as a list of its members, in any order and with repetitions. -/
inductive Draft where
  | lock (sequence : Sequence) (descriptors : List Descriptor) (token : Token)
  | unlock (sequence : Sequence) (descriptors : List Descriptor)
  | watchCreated (sequence : Sequence) (references : List Reference) (descriptors : List Descriptor)
deriving DecidableEq

/-- The event that is made from a draft. -/
def ofDraft : Draft → Event
  | .lock n ds token => lock n (.ofList ds) token
  | .unlock n ds => unlock n (.ofList ds)
  | .watchCreated n rs ds => watchCreated n (.ofList rs) (.ofList ds)

/-- The draft of an event in which the sets are listed in order. -/
def draft : Event → Draft
  | lock n ds token => .lock n ds.toList token
  | unlock n ds => .unlock n ds.toList
  | watchCreated n rs ds => .watchCreated n rs.toList ds.toList

/-- The last of the events that mention a descriptor. -/
def lastMention? (events : List Event) (d : Descriptor) : Option Event :=
  (events.filter fun e => d ∈ e.descriptors).getLast?

end Event

/-- Events in ascending order, one for a sequence. -/
abbrev Timeline := Ascending Event.sequence

end LockReplica
