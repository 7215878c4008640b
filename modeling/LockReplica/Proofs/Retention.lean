import LockReplica.EventCache.Run
import LockReplica.Proofs.Conservation

/-!
# A finished transaction leaves nothing that nobody needs

Fix a run of a cache over an event log from its last snapshot on. A cache passes a watermark to its log only if it
advances, so a log that was set back below the last watermark would keep what nobody needs. As long as the snapshot
has not left a recorded start or the last watermark behind (`EventCache.Reached`), that does not happen.

* **Logs** (`EventLog.TrimmedTo`): a log that has reached a watermark and is compacted there retains nothing below it,
  and goes on to do so whatever else it takes in or compacts.
* **Runs** (`EventCache.Trimmed`): so the log of a cache is trimmed to the last watermark, and reaches every start.
* **Finished transactions** (`EventCache.exists_le_watermark_compact`): the last watermark is then not below what
  the others need, whether or not the log was told of a new one.
-/

namespace LockReplica

/-! ## Logs -/

namespace EventLog

variable {log : EventLog} {p before : Position}

/-- The log has reached the position and, if it follows the epoch, retains nothing below. -/
structure TrimmedTo (log : EventLog) (p : Position) : Prop where
  reaches : log.Reaches p
  le_retained : ∀ latest ∈ log.latest?, p.epoch = latest.epoch → ∀ e ∈ log.retained, p.sequence ≤ e.sequence

/-- What an update brings is above the position of the log, and so above what the log has reached. -/
theorem TrimmedTo.update (h : log.TrimmedTo p) {u : Update} (hu : ¬u.IsSnapshot) : (log.update u).TrimmedTo p where
  reaches := h.reaches.update hu
  le_retained latest hlatest hepoch e he := by
    obtain ⟨q, hq, hle⟩ := exists_le_of_mem_latest?_update hu hlatest
    have hqepoch : p.epoch = q.epoch := hepoch.trans hle.1.symm
    rcases mem_retained_update he with hold | hnew
    · exact h.le_retained q hq hqepoch e hold
    · exact UInt64.le_of_lt (UInt64.lt_of_le_of_lt (h.reaches q hq hqepoch) (hnew q hq))

theorem mem_retained_of_mem_compact {e : Event} (he : e ∈ (log.compact before).retained) : e ∈ log.retained := by
  cases log with
  | unknown => exact he
  | known r =>
    rw [compact] at he
    split at he
    · exact (Replica.mem_retained_compactBelow.1 he).1
    · exact he

theorem TrimmedTo.compact (h : log.TrimmedTo p) : (log.compact before).TrimmedTo p where
  reaches := reaches_compact.2 h.reaches
  le_retained latest hlatest hepoch e he :=
    h.le_retained latest (latest?_compact log before ▸ hlatest) hepoch e (mem_retained_of_mem_compact he)

/-- A compaction trims the log to where it is made. -/
theorem trimmedTo_compact (h : log.Reaches p) : (log.compact p).TrimmedTo p where
  reaches := reaches_compact.2 h
  le_retained latest hlatest hepoch e he := by
    cases log with
    | unknown => exact absurd he Ascending.not_mem_empty
    | known r =>
      rw [latest?_compact] at hlatest
      cases hlatest
      rw [EventLog.compact, if_pos (show p.epoch = r.epoch from hepoch)] at he
      exact (Replica.mem_retained_compactBelow.1 he).2

/-- A log that retains nothing is trimmed to all that it has reached. -/
theorem trimmedTo_of_retained_eq_empty (h : log.Reaches p) (hempty : log.retained = ∅) : log.TrimmedTo p where
  reaches := h
  le_retained _ _ _ _ he := absurd (hempty ▸ he) Ascending.not_mem_empty

end EventLog

/-! ## Runs -/

namespace EventCache

variable {c : EventCache EventLog} {op : CacheOp} {latest p : Position} {t : Timestamp}

/-- Neither a recorded start nor the last watermark is ahead of the log. -/
def Reached (c : EventCache EventLog) : Prop := ∀ p ∈ c.starts.values ++ c.watermark.toList, c.log.Reaches p

instance (c : EventCache EventLog) : Decidable c.Reached :=
  inferInstanceAs (Decidable (∀ p ∈ c.starts.values ++ c.watermark.toList, c.log.Reaches p))

/-- The log has reached every recorded start and is trimmed to the last watermark. -/
structure Trimmed (c : EventCache EventLog) : Prop where
  starts : c.StartsReached
  watermark : ∀ m ∈ c.watermark, c.log.TrimmedTo m

theorem Reached.trimmed (h : c.Reached) (hempty : c.log.retained = ∅) : c.Trimmed where
  starts p hp := h p (List.mem_append_left _ hp)
  watermark m hm :=
    EventLog.trimmedTo_of_retained_eq_empty (h m (List.mem_append_right _ (Option.mem_toList.2 hm))) hempty

/-- After a snapshot the log retains nothing. -/
theorem retained_step_snapshot {u : Update} (hop : u ∈ op.update?) (hu : u.IsSnapshot) :
    (c.step op).log.retained = ∅ := by
  rcases c.log_step_cases op with ⟨v, hv, heq⟩ | ⟨hnone, -⟩
  · cases Option.mem_unique hop hv
    rw [heq]
    exact EventLog.retained_update_of_isSnapshot hu
  · cases hnone.symm.trans hop

theorem trimmedTo_step (h : c.log.TrimmedTo p) (hop : ∀ u ∈ op.update?, ¬u.IsSnapshot) :
    (c.step op).log.TrimmedTo p := by
  rcases c.log_step_cases op with ⟨u, hu, heq⟩ | ⟨-, heq | ⟨before, heq⟩⟩
  · rw [heq]
    exact h.update (hop u hu)
  · rwa [heq]
  · rw [heq]
    exact h.compact

namespace Trimmed

/-- Only a snapshot may set a log back. -/
theorem step (h : c.Trimmed) (op : CacheOp) (hop : ∀ u ∈ op.update?, ¬u.IsSnapshot) : (c.step op).Trimmed where
  starts := h.starts.step op hop
  watermark m hm := by
    rcases c.watermark_step_cases op with heq | ⟨latest, hlatest, hlog, hmark⟩
    · exact trimmedTo_step (h.watermark m (heq ▸ hm)) hop
    · have hlatest' : latest ∈ (c.step op).log.latest? := by rwa [hlog, EventLog.latest?_compact]
      have hreached := (h.starts.step op hop).watermarkAt hlatest'
      rw [hlog, EventLog.reaches_compact] at hreached
      cases hmark.symm.trans hm
      rw [hlog]
      exact EventLog.trimmedTo_compact hreached

theorem foldl (h : c.Trimmed) {ops : List CacheOp} (hops : ∀ u ∈ CacheOp.updates ops, ¬u.IsSnapshot) :
    (ops.foldl EventCache.step c).Trimmed := by
  induction ops generalizing c with
  | nil => exact h
  | cons op ops ih =>
    exact ih (h.step op fun u hu => hops u (CacheOp.mem_updates_cons.2 (.inl hu)))
      fun u hu => hops u (CacheOp.mem_updates_cons.2 (.inr hu))

/-- The log of a cache is trimmed from a snapshot on that leaves nothing recorded ahead of it. -/
theorem run (config : Config) (before : List CacheOp) {op : CacheOp} {after : List CacheOp} {u : Update}
    (hop : u ∈ op.update?) (hu : u.IsSnapshot) (hreached : (EventCache.run config (before ++ [op])).Reached)
    (hafter : ∀ u ∈ CacheOp.updates after, ¬u.IsSnapshot) :
    (EventCache.run config (before ++ op :: after)).Trimmed := by
  rw [run_concat] at hreached
  rw [run_append_cons]
  exact (hreached.trimmed (retained_step_snapshot hop hu)).foldl hafter

end Trimmed

/-! ## Finished transactions -/

/-- After a compaction the last watermark is not below what the live transactions need. -/
theorem exists_le_watermark_compact (hlatest : latest ∈ c.log.latest?) :
    ∃ m ∈ c.compact.watermark, c.compact.watermarkAt latest ≤ m := by
  rw [watermarkAt_compact]
  rcases c.compact_cases with ⟨latest', hlatest', -, heq⟩ | ⟨hstays, heq⟩
  · cases Option.mem_unique hlatest hlatest'
    exact ⟨c.watermarkAt latest, by rw [heq]; rfl, rfl, UInt64.le_refl _⟩
  · rw [heq]
    exact advances_eq_false_iff.1 (hstays latest hlatest)

/-- The last watermark lies between what the others need and what is retained. -/
theorem Trimmed.needsFrom_finish (h : c.Trimmed) (hlatest : latest ∈ c.log.latest?)
    (hfinish : c.finish t = (c.forget t).compact) :
    ∃ n, (c.finish t).NeedsFrom latest n ∧
      ∀ e ∈ (c.finish t).log.retained, n.back (c.finish t).config.retainedSequences ≤ e.sequence := by
  obtain ⟨m, hm, hle⟩ := exists_le_watermark_compact (c := c.forget t) hlatest
  obtain ⟨n, hn, hmark⟩ := (c.finish t).exists_needsFrom latest
  rw [← hfinish] at hm hle
  rw [hmark] at hle
  have htrimmed : (c.finish t).log.TrimmedTo m := (h.step (.finish t) nofun).watermark m hm
  have hretained := htrimmed.le_retained latest (c.latest?_finish t ▸ hlatest) hle.1.symm
  exact ⟨n, hn, fun e he => UInt64.le_trans hle.2 (hretained e he)⟩

end EventCache

open EventCache

/-- **A finished transaction leaves nothing that nobody needs**: if compaction is on, no snapshot has come since one
that left neither a recorded start nor the last watermark ahead of the log, and the log knows a position, then after
a live transaction has finished, the log retains no event below what the others need, less the reserve. -/
theorem finish_retains_needed (config : Config) (hcompaction : config.compaction = true)
    (before : List CacheOp) (op : CacheOp) (after : List CacheOp) (hop : ∃ u ∈ op.update?, u.IsSnapshot)
    (hreached : (run config (before ++ [op])).Reached) (hafter : ∀ u ∈ CacheOp.updates after, ¬u.IsSnapshot)
    (c : EventCache EventLog) (hc : c = run config (before ++ op :: after))
    (t : Timestamp) (p latest : Position) (hlive : c.starts.get? t = some p) (hlatest : c.log.latest? = some latest) :
    ∃ n, (c.finish t).NeedsFrom latest n ∧
      ∀ e ∈ (c.finish t).log.retained, n.back config.retainedSequences ≤ e.sequence := by
  obtain ⟨u, hu, hsnapshot⟩ := hop
  have htrimmed : c.Trimmed := hc ▸ Trimmed.run config before hu hsnapshot hreached hafter
  have hconfig : c.config = config := hc ▸ config_runOver config EventLog.unknown _
  have hfinish : c.finish t = (c.forget t).compact := by
    rw [finish_eq, Table.contains_eq_isSome_get?, hlive, hconfig, hcompaction]
    rfl
  have hreserve : (c.finish t).config = config := (c.config_step (.finish t)).trans hconfig
  rw [← hreserve]
  exact htrimmed.needsFrom_finish hlatest hfinish

namespace EventCache

/-- Transaction 10 is of an earlier epoch, and the later one is told of twice. -/
def beforeRetention : List CacheOp :=
  [.start (.ofList [10]) (.snapshot (.ofByte 1) 8 ∅ ∅), .start (.ofList [20]) (.snapshot (.ofByte 2) 3 ∅ ∅), .finish 20]

/-- When transaction 30 finishes, the log is told of a watermark, and when 50 finishes, it is not. -/
def afterRetention : List CacheOp :=
  [.start (.ofList [40, 50]) (.success (.ofByte 2) 7 [.lockByte 7 7, .lockByte 6 6]), .finish 30,
    .update (.success (.ofByte 2) 9 [.lockByte 8 8, .lockByte 9 9]), .finish 50]

/-- With a reserve of one, transaction 40 leaves two of the four events. -/
theorem sample_finish_retains_needed :
    let c := run { retainedSequences := 1 }
      (beforeRetention ++ .start (.ofList [30]) (.snapshot (.ofByte 2) 5 ∅ ∅) :: afterRetention)
    c.log.oldest? = some 6 ∧ (c.finish 40).log.oldest? = some 8 ∧
      ∃ n, (c.finish 40).NeedsFrom ⟨.ofByte 2, 9⟩ n ∧ ∀ e ∈ (c.finish 40).log.retained, n.back 1 ≤ e.sequence :=
  ⟨by decide, by decide,
    finish_retains_needed { retainedSequences := 1 } rfl beforeRetention
      (.start (.ofList [30]) (.snapshot (.ofByte 2) 5 ∅ ∅)) afterRetention ⟨.snapshot (.ofByte 2) 5 ∅ ∅, rfl, trivial⟩
      (by decide) (by decide) _ rfl 40 ⟨.ofByte 2, 7⟩ ⟨.ofByte 2, 9⟩ (by decide) (by decide)⟩

/-- The log is set back below the last watermark within its epoch. -/
def sampleSetBack : List CacheOp :=
  [.start (.ofList [1]) (.snapshot (.ofByte 1) 10 ∅ ∅), .finish 1, .start (.ofList [2]) (.snapshot (.ofByte 1) 0 ∅ ∅),
    .start (.ofList [3]) (.success (.ofByte 1) 2 [.lockByte 1 1, .lockByte 2 2])]

/-- What transaction 2 leaves behind is not needed from event 1 on, and yet the log keeps that. -/
theorem sample_finish_retains_unneeded :
    (run {} sampleSetBack).starts.get? 2 = some ⟨.ofByte 1, 0⟩ ∧
    (run {} sampleSetBack).log.latest? = some ⟨.ofByte 1, 2⟩ ∧
    ((run {} sampleSetBack).finish 2).NeedsFrom ⟨.ofByte 1, 2⟩ 2 ∧
    ∃ e ∈ ((run {} sampleSetBack).finish 2).log.retained,
      ¬(2 : Sequence).back ({} : Config).retainedSequences ≤ e.sequence :=
  ⟨by decide, by decide, by decide, .lockByte 1 1, by decide, by decide⟩

end EventCache

end LockReplica
