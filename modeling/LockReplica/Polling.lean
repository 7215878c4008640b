import LockReplica.EventLog.Run
import LockReplica.Run

/-!
# Readers that poll a log

A lock server has done certain things in every epoch. A log is told of them by deltas and snapshots, that
may be lost, repeated or late, and a reader asks the log from time to time for what is new since its own
position. An exact answer goes on top of the state that the reader holds; a rooted one replaces it.
-/

namespace LockReplica

/-! ## The server -/

/-- What a lock server did: the events of every epoch, by sequence. -/
structure Server where
  event : Epoch → Sequence → Event
  sequence_event : ∀ epoch n, (event epoch n).sequence = n

namespace Server

/-- The events of an epoch after `a`, up to `b`. -/
def between (server : Server) (epoch : Epoch) (a b : Sequence) : List Event :=
  (List.range' (a.toNat + 1) (b.toNat - a.toNat)).map fun n => server.event epoch (UInt64.ofNat n)

/-- What is locked and watched after the events 1 to `n` of an epoch. -/
def stateAt (server : Server) (epoch : Epoch) (n : Sequence) : LockState :=
  (∅ : LockState).applyAll (server.between epoch 0 n)

end Server

/-! ## The reader -/

/-- A reader knows the state at a position. -/
structure Reader where
  position : Position
  state : LockState
deriving DecidableEq

/-- A reader asks for all that is new; before its first answer it has no position. -/
def Reader.poll (reader : Option Reader) (log : EventLog) : Option Reader :=
  match log.latest? with
  | none => reader
  | some latest =>
    match log.query (reader.map Reader.position) latest with
    | .error _ => reader
    | .ok range =>
      let known := if range.fromSnapshot then ∅ else (reader.map Reader.state).getD ∅
      some ⟨latest, known.applyAll range.events⟩

/-! ## Sessions -/

/-- A log, the positions it has reported, and its reader. -/
structure Session where
  log : EventLog := .unknown
  reported : List Position := []
  reader : Option Reader := none

inductive SessionOp where
  | call (op : LogOp)
  | poll

namespace Session

def step (s : Session) : SessionOp → Session
  | .call op => { s with log := s.log.step op, reported := (s.log.step op).latest?.toList ++ s.reported }
  | .poll => { s with reader := Reader.poll s.reader s.log }

/-- The session after the operations. -/
def run (ops : List SessionOp) : Session := ops.foldl step {}

end Session

/-- What may happen when all that a log is told is true: a success carries the events of its epoch between two
sequences, the first of which the log has reached, and a snapshot the state at its sequence, which is not
below a position of its epoch that the log has reported. -/
def Server.Allows (server : Server) (s : Session) : SessionOp → Prop
  | .call (.update (.success epoch lastKnown events)) =>
    ∃ a b, a ≤ b ∧ b ≤ lastKnown ∧ (∀ e, e ∈ events ↔ e ∈ server.between epoch a b) ∧
      ∀ p ∈ s.log.latest?, p.epoch = epoch → a ≤ p.sequence
  | .call (.update (.snapshot epoch lastKnown locked watched)) =>
    ⟨locked, watched⟩ = server.stateAt epoch lastKnown ∧
      ∀ p ∈ s.reported, p.epoch = epoch → p.sequence ≤ lastKnown
  | _ => True

end LockReplica
