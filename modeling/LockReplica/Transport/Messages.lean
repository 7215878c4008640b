import LockReplica.EventCache.Config
import LockReplica.Transport.Codec
import LockReplica.Update

/-!
# Documents of updates

The transported form of identifiers, positions, events, updates and settings. Identifiers travel as
text, bytes as arrays of numbers, and alternatives as variants named after them.
-/

namespace LockReplica

open Codec
open Json (Layout)

/-! ## Identifiers and positions -/

instance : Codec Uuid where
  toJson u := .string u.text
  ofJson? _ j := j.string?.bind Uuid.ofText?

instance : Codec Epoch where
  toJson e := toJson e.id
  ofJson? layout j := (ofJson? layout j).map .mk

instance : Codec Token where
  toJson t := toJson t.id
  ofJson? layout j := (ofJson? layout j).map .mk

instance : Codec Descriptor where
  toJson d := toJson d.bytes
  ofJson? layout j := (ofJson? layout j).map .mk

instance : Codec Position where
  toJson p := .record [("epoch", toJson p.epoch), ("sequence", toJson p.sequence)]
  ofJson? layout j := do
    let [epoch, sequence] ← j.fields? ["epoch", "sequence"] | none
    return { epoch := ← ofJson? layout epoch, sequence := ← ofJson? layout sequence }

/-! ## References -/

namespace Reference

/-- Reads the content of a variant of the given name. -/
def ofContent? (layout : Layout) (name : String) (content : Json) : Option Reference :=
  match name with
  | "EntireTable" => return entireTable (← ofJson? layout content)
  | "RowPrefix" => do
    let [table, start] ← content.content? layout ["table", "prefix"] | none
    return rowPrefix (← ofJson? layout table) (← ofJson? layout start)
  | _ => none

instance : Codec Reference where
  toJson
    | entireTable table => .variant "EntireTable" (toJson table)
    | rowPrefix table start =>
      .variant "RowPrefix" (.record [("table", toJson table), ("prefix", toJson start)])
  ofJson? layout j := j.variant?.bind fun (name, content) => ofContent? layout name content

end Reference

/-! ## Events -/

namespace Event

/-- Reads the content of a variant of the given name. -/
def ofContent? (layout : Layout) (name : String) (content : Json) : Option Event :=
  match name with
  | "Lock" => do
    let [n, ds, token] ← content.content? layout ["sequence", "lock_descriptors", "lock_token"] | none
    return lock (← ofJson? layout n) (← ofJson? layout ds) (← ofJson? layout token)
  | "Unlock" => do
    let [n, ds] ← content.content? layout ["sequence", "lock_descriptors"] | none
    return unlock (← ofJson? layout n) (← ofJson? layout ds)
  | "LockWatchCreated" => do
    let [n, rs, ds] ← content.content? layout ["sequence", "references", "lock_descriptors"] | none
    return watchCreated (← ofJson? layout n) (← ofJson? layout rs) (← ofJson? layout ds)
  | _ => none

instance : Codec Event where
  toJson
    | lock n ds token =>
      .variant "Lock" (.record
        [("sequence", toJson n), ("lock_descriptors", toJson ds), ("lock_token", toJson token)])
    | unlock n ds =>
      .variant "Unlock" (.record [("sequence", toJson n), ("lock_descriptors", toJson ds)])
    | watchCreated n rs ds =>
      .variant "LockWatchCreated" (.record
        [("sequence", toJson n), ("references", toJson rs), ("lock_descriptors", toJson ds)])
  ofJson? layout j := j.variant?.bind fun (name, content) => ofContent? layout name content

end Event

/-! ## Updates -/

namespace Update

/-- Reads the content of a variant of the given name. -/
def ofContent? (layout : Layout) (name : String) (content : Json) : Option Update :=
  match name with
  | "Success" => do
    let [e, n, events] ← content.content? layout ["epoch", "last_known_sequence", "events"] | none
    return success (← ofJson? layout e) (← ofJson? layout n) (← ofJson? layout events)
  | "Snapshot" => do
    let [e, n, locked, watched] ←
      content.content? layout ["epoch", "last_known_sequence", "locked", "watched"] | none
    return snapshot (← ofJson? layout e) (← ofJson? layout n) (← ofJson? layout locked)
      (← ofJson? layout watched)
  | "Failed" => do
    let [e] ← content.content? layout ["epoch"] | none
    return failed (← ofJson? layout e)
  | _ => none

instance : Codec Update where
  toJson
    | success e n events =>
      .variant "Success" (.record
        [("epoch", toJson e), ("last_known_sequence", toJson n), ("events", toJson events)])
    | snapshot e n locked watched =>
      .variant "Snapshot" (.record
        [("epoch", toJson e), ("last_known_sequence", toJson n), ("locked", toJson locked),
          ("watched", toJson watched)])
    | failed e => .variant "Failed" (.record [("epoch", toJson e)])
  ofJson? layout j := j.variant?.bind fun (name, content) => ofContent? layout name content

end Update

/-! ## Settings -/

instance : Codec Config where
  toJson c :=
    .record [("compaction_enabled", toJson c.compaction), ("retained_sequences", toJson c.retainedSequences)]
  ofJson? layout j := do
    let [compaction, retained] ← j.fields? ["compaction_enabled", "retained_sequences"] | none
    return { compaction := ← ofJson? layout compaction, retainedSequences := ← ofJson? layout retained }

end LockReplica
