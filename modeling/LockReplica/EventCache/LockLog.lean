import LockReplica.EventLog.Stored

/-!
# Logs that a cache can stand on

A cache reaches its log through four calls only. Each of them may change the log, so that a log which
counts its calls, or answers differently from call to call, is one as well.
-/

namespace LockReplica

universe u

/-- The calls that a cache makes to its log. -/
class LockLog (σ : Type u) where
  /-- Takes in an update and gives the position known then. -/
  update : σ → Update → Option Position × σ
  /-- The events after a start up to and including a last position. -/
  query : σ → Option Position → Position → Except QueryError EventRange × σ
  /-- Announces that events before a position are no longer asked for one by one. -/
  compact : σ → Position → σ
  /-- The latest known position. -/
  latest? : σ → Option Position × σ

instance : LockLog EventLog where
  update log u := ((log.update u).latest?, log.update u)
  query log start last := (log.query start last, log)
  compact log before := log.compact before
  latest? log := (log.latest?, log)

instance : LockLog StoredLog where
  update s u := ((s.update u).latest, s.update u)
  query s start last := (s.query start last, s)
  compact s before := s.compact before
  latest? s := (s.latest, s)

end LockReplica
