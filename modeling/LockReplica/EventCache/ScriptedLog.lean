import LockReplica.EventCache.LockLog

/-!
# Logs that follow a script

A log for trying out a cache: what it claims to know is set from outside.
-/

namespace LockReplica

/-- A log that follows a script: it always claims the same position, and answers a query with a single
event that shows the start, or refuses it. -/
structure ScriptedLog where
  position : Option Position := none
  refusing : Bool := false
deriving DecidableEq

namespace ScriptedLog

/-- The answer to a query: a release of nothing at the start. -/
def answer (log : ScriptedLog) (start : Option Position) : Except QueryError EventRange :=
  if log.refusing then .error .unknownVersion
  else match start with
    | none => .ok (.rooted [.unlock 0 ∅])
    | some p => .ok (.delta [.unlock p.sequence ∅])

instance : LockLog ScriptedLog where
  update log _ := (log.position, log)
  query log start _ := (log.answer start, log)
  compact log _ := log
  latest? log := (log.position, log)

end ScriptedLog

end LockReplica
