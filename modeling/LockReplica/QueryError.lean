import LockReplica.Position

/-!
# Refused queries

The three ways in which a query can ask for what the log cannot know. A start that the log no longer
covers is no error: it is answered from a snapshot.
-/

namespace LockReplica

/-- Why a query is refused. -/
inductive QueryError where
  /-- The log has no position. -/
  | unknownVersion
  /-- The requested end lies above the latest position. -/
  | aheadOfLog (requested latest : Position)
  /-- The requested end belongs to another epoch. -/
  | epochMismatch (requested latest : Position)
deriving DecidableEq

namespace QueryError

/-- The latest position of the log that refused. -/
def latest : QueryError → Option Position
  | unknownVersion => none
  | aheadOfLog _ p | epochMismatch _ p => some p

/-- The text of the refusal. -/
def message : QueryError → String
  | unknownVersion => "Cannot get events when log does not know its version"
  | aheadOfLog requested latest =>
    "Transactions' view of the world is more up-to-date than the log: requested " ++ requested.text ++
      ", latest " ++ latest.text
  | epochMismatch requested latest =>
    "End position " ++ requested.text ++ " is from a different epoch than the log at " ++ latest.text

end QueryError

end LockReplica
