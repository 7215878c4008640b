import LockReplica.EventCache.Run
import LockReplica.EventLog.Stored

/-!
# Storage

Working on the fields of a log and working on the log come to the same.

* **One call** (`EventLog.stored_update`, `EventLog.stored_compact`, `EventLog.query_stored`): the fields after a call
  are those of the log after the call, and questions to them are answered alike.
* **Runs** (`EventLog.stored_run`): from empty fields every run reaches the fields of the log that the same calls
  reach, so what holds of the runs of a log holds of its fields.
* **Caches** (`EventCache.mapLog_run`): a cache cannot tell a log from what represents it (`LockLog.Represents`), and so
  works over the fields as it does over the log.
-/

namespace LockReplica

universe u v

/-! ## One call -/

namespace EventLog

variable {r : Replica} (log : EventLog)

/-- The fields hold what the log shows. -/
theorem stored_eq_mk : log.stored = ⟨log.retained, log.latest?, log.baseline⟩ := by
  cases log <;> rfl

theorem latest_stored : log.stored.latest = log.latest? := congrArg StoredLog.latest log.stored_eq_mk

theorem oldest?_stored : log.stored.oldest? = log.oldest? := by
  cases log <;> rfl

theorem stored_deliver (epoch : Epoch) (lastKnown : Sequence) (events : List Event) :
    (log.deliver epoch lastKnown events).stored = log.stored.update (.success epoch lastKnown events) := by
  cases log with
  | unknown => rfl
  | known r =>
    by_cases hepoch : epoch = r.epoch
    · subst hepoch
      have hsame : (known r).stored.isLeaderChange r.epoch = false := decide_eq_false fun h => h rfl
      rw [deliver, if_pos rfl, StoredLog.update, hsame, if_neg Bool.false_ne_true, Replica.extend]
      show _ = if lastKnown ≤ r.latest.sequence then _ else _
      split <;> rfl
    · have hother : (known r).stored.isLeaderChange epoch = true := decide_eq_true fun h => hepoch h.symm
      rw [deliver, if_neg hepoch, StoredLog.update, hother, if_pos rfl]
      rfl

/-- The fields of a log after an update are its fields, updated. -/
theorem stored_update (u : Update) : (log.update u).stored = log.stored.update u := by
  cases u with
  | success epoch lastKnown events => exact log.stored_deliver epoch lastKnown events
  | snapshot epoch lastKnown locked watched => rfl
  | failed epoch => rfl

/-- The fields of a compacted log are its fields, compacted. -/
theorem stored_compact (before : Position) : (log.compact before).stored = log.stored.compact before := by
  cases log with
  | unknown => rfl
  | known r =>
    rw [compact]
    show _ = if r.latest.epoch ≠ before.epoch then _ else _
    by_cases hepoch : before.epoch = r.epoch
    · rw [if_pos hepoch, if_neg (fun h => h hepoch.symm)]
      by_cases hnone : (r.retained.filter fun e => e.sequence < before.sequence).isEmpty
      · -- without events to fold the state stays as it is
        have hstate : r.baseline.applyAll (r.retained.filter fun e => e.sequence < before.sequence).toList =
            r.baseline := by rw [List.isEmpty_iff.1 hnone, LockState.applyAll_nil]
        simp only [stored, Replica.compactBelow, hstate]
        exact (if_pos hnone).symm
      · exact (if_neg hnone).symm
    · rw [if_neg hepoch, if_pos fun h => hepoch h.symm]

/-! ### Questions -/

theorem baselinePosition_stored : (known r).stored.baselinePosition r.latest = r.baselinePosition := rfl

/-- Where the second sequence is below the first there is nothing in between. -/
theorem eventsIn_stored (first last : Sequence) : (known r).stored.eventsIn first last = r.eventsIn first last := by
  show (if last < first then [] else r.eventsIn first last) = _
  split
  · rename_i hlt
    refine (List.eq_nil_iff_forall_not_mem.2 fun e he => ?_).symm
    obtain ⟨-, hfirst, hlast⟩ := Replica.mem_eventsIn.1 he
    exact absurd (UInt64.le_trans hfirst hlast) (UInt64.not_le.2 hlt)
  · rfl

theorem rooted_stored (last : Sequence) :
    (known r).stored.rooted r.latest last = Replica.range.rooted r last := by
  have holdest : (known r).stored.oldest? = r.oldest? := oldest?_stored (known r)
  cases hr : r.oldest? with
  | none =>
    simp only [StoredLog.rooted, holdest, hr]
    exact congrArg (fun rest => EventRange.rooted (_ :: rest)) (Replica.eventsUpTo_of_oldest?_eq_none hr last).symm
  | some first =>
    simp only [StoredLog.rooted, holdest, hr]
    have hrest : (known r).stored.eventsIn first last = r.eventsUpTo last :=
      (eventsIn_stored first last).trans (Replica.eventsIn_of_oldest?_eq_some hr last)
    exact congrArg (fun rest => EventRange.rooted (_ :: rest)) hrest

/-- The fields allow an exact answer if the position of the state is at most the start. -/
theorem exactStart?_stored (start : Option Position) : (known r).stored.exactStart? start r.latest =
    start.bind fun p => if r.baselinePosition ≤ p then some p.sequence.next else none := by
  cases start with
  | none => rfl
  | some p =>
    have hbase : r.baselinePosition.epoch = r.latest.epoch := r.baselinePosition_epoch
    rw [StoredLog.exactStart?, baselinePosition_stored, Option.bind_some]
    by_cases hepoch : p.epoch = r.latest.epoch
    · rw [if_neg (not_not_intro hepoch)]
      by_cases hlt : p.sequence < r.baselinePosition.sequence
      · rw [if_pos hlt, if_neg fun h => UInt64.not_le.2 hlt h.2]
      · rw [if_neg hlt, if_pos ⟨hbase.trans hepoch.symm, UInt64.not_lt.1 hlt⟩]
    · rw [if_pos hepoch, if_neg fun h => hepoch (h.1.symm.trans hbase)]

theorem range_stored (start : Option Position) (last : Sequence) :
    (known r).stored.range r.latest start last = r.range start last := by
  rw [StoredLog.range, exactStart?_stored]
  cases start with
  | none => exact rooted_stored last
  | some p =>
    rw [Option.bind_some, Replica.range]
    by_cases hbase : r.baselinePosition ≤ p
    · rw [if_pos hbase, if_pos hbase]
      exact congrArg EventRange.delta (eventsIn_stored _ _)
    · rw [if_neg hbase, if_neg hbase]
      exact rooted_stored last

/-- Fields answer as the log does. -/
theorem query_stored (start : Option Position) (last : Position) :
    log.stored.query start last = log.query start last := by
  cases log with
  | unknown => rfl
  | known r =>
    rw [StoredLog.query, query, ← range_stored]
    rfl

/-! ## Runs -/

theorem stored_step (op : LogOp) : (log.step op).stored = log.stored.step op := by
  cases op with
  | update u => exact log.stored_update u
  | compact before => exact log.stored_compact before

/-- A run on the fields reaches the fields of the log that the run on the log reaches. -/
theorem stored_run (ops : List LogOp) : (run ops).stored = StoredLog.run ops :=
  (List.foldl_hom stored fun log op => (stored_step log op).symm).symm

/-- After every run the fields give the answers of the log. -/
theorem query_run_stored (ops : List LogOp) (start : Option Position) (last : Position) :
    (StoredLog.run ops).query start last = (run ops).query start last := by
  rw [← stored_run, query_stored]

end EventLog

/-! ## Caches -/

/-- A log represents another one in a form in which every call does the same and is answered alike. -/
structure LockLog.Represents {σ : Type u} {τ : Type v} [LockLog σ] [LockLog τ] (form : σ → τ) : Prop where
  update : ∀ log u, LockLog.update (form log) u = (LockLog.update log u).map id form
  query : ∀ log start last, LockLog.query (form log) start last = (LockLog.query log start last).map id form
  compact : ∀ log before, LockLog.compact (form log) before = form (LockLog.compact log before)
  latest? : ∀ log, LockLog.latest? (form log) = (LockLog.latest? log).map id form

namespace EventCache

variable {σ : Type u} {τ : Type v} {form : σ → τ}

/-- The same cache over another form of its log. -/
def mapLog (form : σ → τ) (c : EventCache σ) : EventCache τ :=
  { config := c.config, starts := c.starts, watermark := c.watermark, log := form c.log }

variable [LockLog σ] [LockLog τ] (h : LockLog.Represents form) (c : EventCache σ)

include h

theorem update_mapLog (u : Update) : (c.mapLog form).update u = (c.update u).mapLog form := by
  simp [update, mapLog, h.update]

theorem start_mapLog (timestamps : SortedSet Timestamp) (u : Update) :
    (c.mapLog form).start timestamps u = (c.start timestamps u).mapLog form := by
  simp only [start, mapLog, h.update]
  rcases LockLog.update c.log u with ⟨_ | p, log⟩ <;> rfl

theorem earliestLive?_mapLog : (c.mapLog form).earliestLive? = c.earliestLive?.map id (mapLog form) := by
  simp only [earliestLive?, mapLog, h.latest?]
  rfl

theorem compact_mapLog : (c.mapLog form).compact = c.compact.mapLog form := by
  simp only [compact, mapLog, h.latest?]
  rcases LockLog.latest? c.log with ⟨_ | latest, log⟩
  · rfl
  · -- whether the watermark advances does not depend on the log
    show (if c.advances (c.watermarkAt latest) then
        { c.mapLog form with
          log := LockLog.compact (form log) (c.watermarkAt latest), watermark := some (c.watermarkAt latest) }
      else { c.mapLog form with log := form log }) = mapLog form (if c.advances (c.watermarkAt latest) then _ else _)
    rw [h.compact]
    split <;> rfl

theorem finish_mapLog (t : Timestamp) : (c.mapLog form).finish t = (c.finish t).mapLog form := by
  rw [finish_eq, finish_eq]
  show (if c.starts.contains t && c.config.compaction then ((c.forget t).mapLog form).compact
    else (c.forget t).mapLog form) = _
  rw [compact_mapLog h]
  split <;> rfl

/-- The questions of a batch are answered alike, one by one. -/
theorem askAll_form (log : σ) (last : Position) (starts : List (Option Position)) :
    askAll (form log) last starts = (askAll log last starts).map id form := by
  induction starts generalizing log with
  | nil => rfl
  | cons start starts ih =>
    rw [askAll, askAll, h.query]
    rcases LockLog.query log start last with ⟨_ | range, log⟩
    · rfl
    · simp only [Prod.map_apply, id_eq, ih]
      rcases askAll log last starts with ⟨_ | ranges, log⟩ <;> rfl

theorem rangesFrom_mapLog (starts : Table Timestamp (Option Position)) (last : Position) :
    (c.mapLog form).rangesFrom starts last = (c.rangesFrom starts last).map id (mapLog form) := by
  simp only [rangesFrom, mapLog, askAll_form h]
  rfl

theorem rangesOf_mapLog (timestamps : SortedSet Timestamp) (last : Position) :
    (c.mapLog form).rangesOf timestamps last = (c.rangesOf timestamps last).map id (mapLog form) :=
  rangesFrom_mapLog h c _ last

/-- A cache makes every call over one form of its log as over the other. -/
theorem step_mapLog (op : CacheOp) : (c.mapLog form).step op = (c.step op).mapLog form := by
  cases op with
  | update u => exact update_mapLog h c u
  | start timestamps u => exact start_mapLog h c timestamps u
  | finish t => exact finish_mapLog h c t
  | rangesFrom starts last => exact congrArg Prod.snd (rangesFrom_mapLog h c starts last)
  | rangesOf timestamps last => exact congrArg Prod.snd (rangesOf_mapLog h c timestamps last)
  | earliestLive => exact congrArg Prod.snd (earliestLive?_mapLog h c)

/-- A run of a cache is one over any form of its log. -/
theorem runOver_mapLog (config : Config) (log : σ) (ops : List CacheOp) :
    (runOver config log ops).mapLog form = runOver config (form log) ops :=
  (List.foldl_hom (mapLog form) fun c op => (step_mapLog h c op)).symm

end EventCache

/-! ### Over fields -/

/-- Fields represent the log that they store. -/
theorem EventLog.represents_stored : LockLog.Represents EventLog.stored where
  update log u := by
    show (((log.stored.update u).latest, log.stored.update u) : _ × _) =
      ((log.update u).latest?, (log.update u).stored)
    rw [← stored_update, latest_stored]
  query log start last := by
    show ((log.stored.query start last, log.stored) : _ × _) = (log.query start last, log.stored)
    rw [query_stored]
  compact log before := (log.stored_compact before).symm
  latest? log := by
    show ((log.stored.latest, log.stored) : _ × _) = (log.latest?, log.stored)
    rw [latest_stored]

/-- A cache over an event log and one over fields, of which none is written at first, are the same after every run but
for the form of the log. -/
theorem EventCache.mapLog_run (config : Config) (ops : List CacheOp) :
    (run config ops).mapLog EventLog.stored = runOver config ({} : StoredLog) ops :=
  runOver_mapLog EventLog.represents_stored config .unknown ops

end LockReplica
