import LockReplica.EventCache.LockLog

/-!
# Logs that keep a journal

Around any log there is one that answers as it does and writes down the calls it gets.
-/

namespace LockReplica

universe u

/-- A log with a journal of the calls made to it, oldest first. -/
structure Journaled (σ : Type u) where
  log : σ
  updates : List Update := []
  queries : List (Option Position × Position) := []
  compactions : List Position := []

namespace Journaled

variable {σ : Type u}

/-- The same log with an empty journal. -/
def restart (j : Journaled σ) : Journaled σ := { log := j.log }

instance [LockLog σ] : LockLog (Journaled σ) where
  update j u :=
    let (p, log) := LockLog.update j.log u
    (p, { j with log, updates := j.updates ++ [u] })
  query j start last :=
    let (answer, log) := LockLog.query j.log start last
    (answer, { j with log, queries := j.queries ++ [(start, last)] })
  compact j before := { j with log := LockLog.compact j.log before, compactions := j.compactions ++ [before] }
  latest? j :=
    let (p, log) := LockLog.latest? j.log
    (p, { j with log })

end Journaled

end LockReplica
