import LockReplica.Event

/-!
# Updates from the lock server

What the lock server sends to a replica: more events of an epoch, the whole state at a position, or
the news that events were lost.
-/

namespace LockReplica

/-- A message from the lock server under some epoch. -/
inductive Update where
  /-- Events that follow what the replica has, and the last sequence known to the server. -/
  | success (epoch : Epoch) (lastKnown : Sequence) (events : List Event)
  /-- All that is locked and watched at a sequence. -/
  | snapshot (epoch : Epoch) (lastKnown : Sequence) (locked : DescriptorSet) (watched : ReferenceSet)
  /-- No events can be given. -/
  | failed (epoch : Epoch)
deriving DecidableEq

namespace Update

/-- The epoch under which the update was sent. -/
def epoch : Update → Epoch
  | success e .. | snapshot e .. | failed e => e

/-- The update tells the whole state, and so does not depend on what was told before. -/
def IsSnapshot : Update → Prop
  | snapshot .. => True
  | success .. | failed _ => False

instance : DecidablePred IsSnapshot
  | snapshot .. => .isTrue trivial
  | success .. | failed _ => .isFalse id

/-- What an update is made from: its events are drafts, and a set is given as a list of its members. -/
inductive Draft where
  | success (epoch : Epoch) (lastKnown : Sequence) (events : List Event.Draft)
  | snapshot (epoch : Epoch) (lastKnown : Sequence) (locked : List Descriptor) (watched : List Reference)
  | failed (epoch : Epoch)
deriving DecidableEq

/-- The update that is made from a draft. -/
def ofDraft : Draft → Update
  | .success e n events => success e n (events.map .ofDraft)
  | .snapshot e n locked watched => snapshot e n (.ofList locked) (.ofList watched)
  | .failed e => failed e

/-- The draft of an update in which the sets are listed in order. -/
def draft : Update → Draft
  | success e n events => .success e n (events.map Event.draft)
  | snapshot e n locked watched => .snapshot e n locked.toList watched.toList
  | failed e => .failed e

/-- The last position known to the server. -/
def lastKnownPosition : Update → Option Position
  | success e n _ | snapshot e n .. => some ⟨e, n⟩
  | failed _ => none

/-- The word for the kind of the update. -/
def kind : Update → String
  | success .. => "success"
  | snapshot .. => "snapshot"
  | failed _ => "failed"

end Update

end LockReplica
