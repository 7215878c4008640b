import LockReplica.Position

/-!
# Settings of an event cache
-/

namespace LockReplica

/-- The settings of an event cache. -/
structure Config where
  /-- Whether finished transactions let the log be compacted. -/
  compaction : Bool := true
  /-- How many sequences before the oldest live transaction are kept as events. -/
  retainedSequences : Sequence := 0
deriving DecidableEq

namespace Config

/-- The settings under which a log keeps all its events. -/
def keepAll : Config := { compaction := false }

end Config

end LockReplica
