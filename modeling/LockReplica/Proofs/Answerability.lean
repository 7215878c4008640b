import LockReplica.EventCache.LockLog
import LockReplica.Proofs.Conservation
import LockReplica.Run

/-!
# What a log has reported stays answerable

Fix a moment of a run at which the log has a position, and a later one up to which it has followed the same leader
(`EventLog.Continues`), whatever it has taken in, ignored and compacted in between.

* **Forward** (`EventLog.exists_le_latest?_foldl`): no delivery and no compaction moves the position back, so the log is
  at that position or further on in the same epoch.
* **Answers** (`reported_stays_answerable`): so the log answers every query with an end that it had reached then.
-/

namespace LockReplica

/-- A log that goes on moves forward only. -/
theorem EventLog.exists_le_latest?_foldl {log : EventLog} {ops : List LogOp} {p : Position} (hp : p ∈ log.latest?)
    (h : Along step Continues log ops) : ∃ q ∈ (ops.foldl step log).latest?, p ≤ q := by
  have hstep : ∀ log op, (∃ q ∈ log.latest?, p ≤ q) → Continues log op → ∃ q ∈ (step log op).latest?, p ≤ q := by
    rintro log op ⟨q, hq, hle⟩ hop
    obtain ⟨q', hq', hle'⟩ := exists_le_latest?_step hq hop
    exact ⟨q', hq', Position.le_trans hle hle'⟩
  exact h.foldl hstep ⟨p, hp, p.le_refl⟩

/-- **What a log has reported stays answerable**: as long as it follows the same leader, a log that has reported a
position is at that position or further on, and it answers every query with an end up to there, whatever the start. An
update reports the position that the log is at then, and a compaction does not change it. -/
theorem reported_stays_answerable :
    (∀ (before after : List LogOp) (p : Position), p ∈ (EventLog.run before).latest? →
      Along EventLog.step EventLog.Continues (EventLog.run before) after →
      (∃ q ∈ (EventLog.run (before ++ after)).latest?, p ≤ q) ∧
      ∀ (start : Option Position) (last : Position), last ≤ p →
        ∃ range, (EventLog.run (before ++ after)).query start last = .ok range) ∧
    (∀ (log : EventLog) (u : Update), (LockLog.update log u).1 = (LockLog.latest? (LockLog.update log u).2).1) ∧
    ∀ (log : EventLog) (before : Position), (LockLog.latest? (LockLog.compact log before)).1 = (LockLog.latest? log).1 := by
  refine ⟨fun before after p hp hafter => ?_, fun log u => rfl, fun log before => log.latest?_compact before⟩
  have hrun : EventLog.run (before ++ after) = after.foldl EventLog.step (EventLog.run before) := List.foldl_append
  obtain ⟨q, hq, hpq⟩ := EventLog.exists_le_latest?_foldl hp hafter
  rw [← hrun] at hq
  refine ⟨⟨q, hq, hpq⟩, fun start last hlast => ?_⟩
  exact EventLog.query_isOk_iff.2 ⟨q, hq, Position.le_trans hlast hpq⟩

/-- All that the log retains is folded away before a delivery without events and one that is stale. -/
theorem sample_reported_stays_answerable :
    let before : List LogOp := [.update (.snapshot (.ofByte 1) 0 ∅ ∅),
      .update (.success (.ofByte 1) 4 [.lockByte 4 4, .lockByte 2 2])]
    let after : List LogOp := [.compact ⟨.ofByte 1, 9⟩, .update (.success (.ofByte 1) 7 []),
      .update (.success (.ofByte 1) 3 [.lockByte 3 3])]
    (EventLog.run before).latest? = some ⟨.ofByte 1, 4⟩ ∧ (EventLog.run (before ++ after)).retained = ∅ ∧
      (∃ q ∈ (EventLog.run (before ++ after)).latest?, ⟨.ofByte 1, 4⟩ ≤ q) ∧
      ∃ range, (EventLog.run (before ++ after)).query (some ⟨.ofByte 2, 8⟩) ⟨.ofByte 1, 2⟩ = .ok range := by
  intro before after
  obtain ⟨hforward, hanswers⟩ := reported_stays_answerable.1 before after ⟨.ofByte 1, 4⟩ (by decide) (by decide)
  exact ⟨by decide, by decide, hforward, hanswers (some ⟨.ofByte 2, 8⟩) ⟨.ofByte 1, 2⟩ (by decide)⟩

end LockReplica
