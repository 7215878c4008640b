import LockReplica.EventCache.Run
import LockReplica.Proofs.Answers
import LockReplica.Proofs.Batch
import LockReplica.Run

/-!
# Compaction spares live transactions

Fix a run of a cache over an event log. A transaction that is tracked with a start in the epoch of the log keeps
the watermark at or below that start, so that no event after it is folded away.

* **Cover** (`EventLog.Covers`): every sequence after a position, up to that of the log, has a retained event.
  A log covers its own position; updates without gaps (`Covers.update`) and compactions at or below the
  position (`Covers.compact`) keep that.
* **Runs** (`EventCache.Spares`): so the log of a cache covers the start of a transaction from its record on.
* **Answers** (`Replica.Covers.range_eq`): from a covered start the answer is exact and leaves nothing out.
-/

namespace LockReplica

/-! ## Cover -/

/-- Every sequence after the position, up to that of the replica, has a retained event. -/
structure Replica.Covers (r : Replica) (p : Position) : Prop where
  le_latest : p ≤ r.latest
  exists_mem : ∀ n, p.sequence < n → n ≤ r.latest.sequence → ∃ e ∈ r.retained, e.sequence = n

/-- A log that knows a position covers another one if its replica does. -/
def EventLog.Covers (log : EventLog) (p : Position) : Prop := ∀ r, log = .known r → r.Covers p

namespace Replica

variable {r : Replica} {h : History} {p : Position}

theorem covers_latest (r : Replica) : r.Covers r.latest where
  le_latest := ⟨rfl, UInt64.le_refl _⟩
  exists_mem _ hlow hhigh := absurd hlow (UInt64.not_lt.2 hhigh)

namespace Covers

theorem append (hc : r.Covers p) (hr : r.Follows h) {events : List Event}
    (hgap : ∀ e ∈ events, ∀ n, r.latest.sequence < n → n ≤ e.sequence → ∃ d ∈ events, d.sequence = n) :
    (r.append events).Covers p := by
  refine ⟨⟨hc.le_latest.1, UInt64.le_trans hc.le_latest.2 (Timeline.le_highest _ _)⟩, ?_⟩
  intro n hlow hhigh
  refine Ascending.exists_mem_insertAll_iff.2 ?_
  by_cases hn : n ≤ r.latest.sequence
  · exact .inl (hc.exists_mem n hlow hn)
  · have hlt := UInt64.not_le.1 hn
    -- the new position is that of a new event, below which none is missing
    rcases hr.latest_append events with heq | ⟨e, he, heq⟩
    · exact absurd (heq ▸ hhigh) hn
    · obtain ⟨hevent, -⟩ := mem_fresh.1 he
      obtain ⟨d, hd, hdn⟩ := hgap e hevent n hlt (heq ▸ hhigh)
      exact .inr ⟨d, mem_fresh.2 ⟨hd, hdn ▸ hlt⟩, hdn⟩

theorem compactBelow (hc : r.Covers p) {n : Sequence} (hn : n ≤ p.sequence) : (r.compactBelow n).Covers p := by
  refine ⟨hc.le_latest, ?_⟩
  intro m hlow hhigh
  obtain ⟨e, he, hem⟩ := hc.exists_mem m hlow hhigh
  exact ⟨e, mem_retained_compactBelow.2 ⟨he, hem ▸ UInt64.le_trans hn (UInt64.le_of_lt hlow)⟩, hem⟩

/-- The baseline is not after a covered position. -/
theorem baseline_le (hc : r.Covers p) (hr : r.Follows h) : r.baselinePosition ≤ p := by
  refine ⟨r.baselinePosition_epoch.trans hc.le_latest.1.symm, UInt64.not_lt.1 ?_⟩
  intro hlt
  obtain ⟨e, he, heq⟩ := hc.exists_mem _ hlt hr.baseline_le_latest
  exact UInt64.lt_irrefl _ (heq ▸ hr.baseline_lt he)

/-- The answer from a covered position is exact. -/
theorem range_eq (hc : r.Covers p) (hr : r.Follows h) (hp : p.sequence < Sequence.greatest) (n : Sequence) :
    r.range (some p) n =
      .delta (h.accepted.filter fun e => p.sequence < e.sequence && e.sequence ≤ n).toList := by
  have hbase := hc.baseline_le hr
  have hne : p.sequence ≠ Sequence.greatest := fun heq => UInt64.lt_irrefl _ (heq ▸ hp)
  rw [range, if_pos hbase, hr.eventsIn_eq hne hbase.2]

/-- No sequence after a covered position is left out of the history. -/
theorem map_toNat_eq_range' (hc : r.Covers p) (hr : r.Follows h) {n : Sequence} (hn : n ≤ r.latest.sequence) :
    ((h.accepted.filter fun e => p.sequence < e.sequence && e.sequence ≤ n).toList.map fun e => e.sequence.toNat) =
      List.range' (p.sequence.toNat + 1) (n.toNat - p.sequence.toNat) := by
  refine Timeline.map_toNat_eq_range' (fun e he => by simpa using (Ascending.mem_filter.1 he).2) fun m hlow hhigh => ?_
  obtain ⟨e, he, rfl⟩ := hc.exists_mem m hlow (UInt64.le_trans hhigh hn)
  exact ⟨e, Ascending.mem_filter.2 ⟨hr.mem_accepted he, by simp [hlow, hhigh]⟩, rfl⟩

end Covers

end Replica

namespace EventLog

variable {log : EventLog} {told : Option History} {p : Position}

theorem covers_of_latest?_eq_some (hp : log.latest? = some p) : log.Covers p := by
  rintro r rfl
  cases hp
  exact r.covers_latest

theorem Covers.le_latest (hc : log.Covers p) {latest : Position} (hl : log.latest? = some latest) : p ≤ latest := by
  cases log with
  | unknown => cases hl
  | known r =>
    cases hl
    exact (hc r rfl).le_latest

/-- Events without a gap keep a position covered, if they come from the leader that the log follows. -/
theorem Covers.update (hc : log.Covers p) (hl : log.Follows told) {u : Update} (hreset : ¬log.Resets u)
    (hgap : log.Gapless u) : (log.update u).Covers p := by
  obtain ⟨r, lastKnown, events, rfl, rfl, heq⟩ := exists_extend_of_not_resets hreset
  have hcr := hc r rfl
  cases hl with | @known _ h hr => ?_
  rw [heq]
  rintro r' hr'
  cases hr'
  unfold Replica.extend
  split
  · exact hcr
  · exact hcr.append hr (hgap r.latest rfl rfl (UInt64.not_le.1 ‹_›))

theorem Covers.compact (hc : log.Covers p) {before : Position} (hb : before.sequence ≤ p.sequence) :
    (log.compact before).Covers p := by
  cases log with
  | unknown => exact hc
  | known r =>
    rintro r' hr'
    rw [EventLog.compact] at hr'
    split at hr'
    · cases hr'
      exact (hc r rfl).compactBelow hb
    · cases hr'
      exact hc r rfl

end EventLog

/-! ## Runs -/

namespace EventCache

variable {c : EventCache EventLog} {told : Option History} {t : Timestamp}

theorem follows_step (hl : c.log.Follows told) (op : CacheOp) :
    (c.step op).log.Follows (op.update?.toList.foldl History.update told) := by
  rcases c.log_step_cases op with ⟨u, hu, heq⟩ | ⟨hnone, heq | ⟨before, heq⟩⟩
  · rw [heq, Option.mem_def.1 hu]
    exact hl.update u
  · rw [heq, hnone]
    exact hl
  · rw [heq, hnone]
    exact hl.compact before

/-- The log of a cache follows the history of the updates among the calls. -/
theorem follows_run (config : Config) (ops : List CacheOp) :
    (run config ops).log.Follows (History.run (CacheOp.updates ops)) := by
  have hfold : ∀ (c : EventCache EventLog) (told : Option History), c.log.Follows told →
      (ops.foldl step c).log.Follows ((CacheOp.updates ops).foldl History.update told) := by
    induction ops with
    | nil => exact fun c told hl => hl
    | cons op ops ih =>
      intro c told hl
      have hstep := ih (c.step op) _ (follows_step hl op)
      cases hu : op.update? with
      | none => simpa [CacheOp.updates, hu] using hstep
      | some u => simpa [CacheOp.updates, hu] using hstep
  exact hfold _ _ .unknown

/-- The log of a cache covers the start of a transaction, if that is tracked. -/
structure Spares (t : Timestamp) (c : EventCache EventLog) : Prop where
  follows : ∃ told, c.log.Follows told
  covers : ∀ p, c.starts.get? t = some p → c.log.Covers p

/-- An update that may come while a transaction is live: the log goes on from where it is. -/
def Continues (c : EventCache EventLog) (op : CacheOp) : Prop :=
  ∀ u ∈ op.update?, ¬c.log.Resets u ∧ c.log.Gapless u

instance (c : EventCache EventLog) (op : CacheOp) : Decidable (c.Continues op) :=
  inferInstanceAs (Decidable (∀ u ∈ op.update?, ¬c.log.Resets u ∧ c.log.Gapless u))

namespace Spares

/-- A transaction is spared from its start on, whatever the log did before. -/
theorem of_start (hl : c.log.Follows told) {timestamps : SortedSet Timestamp} (ht : t ∈ timestamps) (u : Update) :
    (c.start timestamps u).Spares t where
  follows := ⟨_, (c.log_start timestamps u).symm ▸ hl.update u⟩
  covers p hp := by
    rw [get?_starts_start, if_pos ht] at hp
    rw [log_start]
    cases hlatest : (c.log.update u).latest? with
    | none =>
      rintro r hr
      rw [hr] at hlatest
      cases hlatest
    | some latest =>
      rw [hlatest] at hp
      cases hp
      exact EventLog.covers_of_latest?_eq_some hlatest

theorem start (hs : c.Spares t) (timestamps : SortedSet Timestamp) {u : Update} (hreset : ¬c.log.Resets u)
    (hgap : c.log.Gapless u) : (c.start timestamps u).Spares t := by
  obtain ⟨told, hl⟩ := hs.follows
  by_cases ht : t ∈ timestamps
  · exact of_start hl ht u
  · refine ⟨⟨_, (c.log_start timestamps u).symm ▸ hl.update u⟩, ?_⟩
    intro p hp
    rw [get?_starts_start, if_neg ht] at hp
    rw [log_start]
    exact (hs.covers p hp).update hl hreset hgap

theorem finish (hs : c.Spares t) (t' : Timestamp) : (c.finish t').Spares t := by
  obtain ⟨told, hl⟩ := hs.follows
  refine ⟨⟨_, follows_step hl (.finish t')⟩, ?_⟩
  intro p hp
  rw [get?_starts_finish] at hp
  split at hp
  · cases hp
  · have hcovers := hs.covers p hp
    rcases c.log_finish_cases t' with ⟨heq, -⟩ | ⟨latest, hlatest, heq, -⟩
    · rwa [heq]
    · -- the start is one of those that the watermark is the least of
      have hrest : (c.forget t').starts.get? t = some p := by
        rw [get?_starts_forget, if_neg ‹_›]
        exact hp
      rw [heq]
      exact hcovers.compact (watermarkAt_le (Table.mem_values_iff.2 ⟨t, hrest⟩) (hcovers.le_latest hlatest).1)

theorem step (c : EventCache EventLog) (op : CacheOp) (hs : c.Spares t) (hop : c.Continues op) :
    (c.step op).Spares t := by
  cases op with
  | update u =>
    obtain ⟨told, hl⟩ := hs.follows
    obtain ⟨hreset, hgap⟩ := hop u rfl
    exact ⟨⟨_, hl.update u⟩, fun p hp => (hs.covers p hp).update hl hreset hgap⟩
  | start timestamps u => exact hs.start timestamps (hop u rfl).1 (hop u rfl).2
  | finish t' => exact hs.finish t'
  | rangesFrom starts last =>
    rw [EventCache.step, rangesFrom_cache]
    exact hs
  | rangesOf timestamps last =>
    rw [EventCache.step, rangesOf_cache]
    exact hs
  | earliestLive => exact hs

/-- As long as the log goes on, the transaction stays spared. -/
theorem run (config : Config) (before : List CacheOp) {after : List CacheOp} {timestamps : SortedSet Timestamp}
    (ht : t ∈ timestamps) (u : Update)
    (hafter : Along EventCache.step Continues (EventCache.run config (before ++ [.start timestamps u])) after) :
    (EventCache.run config (before ++ .start timestamps u :: after)).Spares t := by
  rw [run_concat] at hafter
  rw [run_append_cons]
  exact hafter.foldl step (of_start (follows_run config before) ht u)

end Spares

/-- **Compaction spares live transactions**: as long as the log goes on without gaps after the start of a
transaction is recorded, the answer from that start to any later position that the log has reached is exact,
with one accepted event for every sequence in between. -/
theorem live_transaction_gets_delta (config : Config) (before after : List CacheOp)
    (timestamps : SortedSet Timestamp) (u : Update) (t : Timestamp) (ht : t ∈ timestamps)
    (hafter : Along step Continues (run config (before ++ [.start timestamps u])) after)
    (c : EventCache EventLog) (hc : c = run config (before ++ .start timestamps u :: after))
    (p last latest : Position) (hp : c.starts.get? t = some p) (hgreatest : p.sequence < Sequence.greatest)
    (hlatest : c.log.latest? = some latest) (hlast : last ≤ latest) :
    ∃ h range, History.run (CacheOp.updates (before ++ .start timestamps u :: after)) = some h ∧
      (c.rangesOf (.ofList [t]) last).1 = .ok ⟨some last, .ofList [(t, range)]⟩ ∧
      range.fromSnapshot = false ∧
      range.sequences.map UInt64.toNat =
        List.range' (p.sequence.toNat + 1) (last.sequence.toNat - p.sequence.toNat) ∧
      range.events =
        (h.accepted.filter fun e => p.sequence < e.sequence && e.sequence ≤ last.sequence).toList := by
  have hspares : c.Spares t := hc ▸ Spares.run config before ht u hafter
  have hfollows := follows_run config (before ++ .start timestamps u :: after)
  rw [← hc] at hfollows
  have hcovers := hspares.covers p hp
  generalize hlog : c.log = log at hfollows hcovers hlatest
  generalize History.run _ = told at hfollows
  cases hfollows with
  | unknown => cases hlatest
  | @known r h hr =>
    cases hlatest
    have hcr := hcovers r rfl
    have hquery : c.log.query (c.starts.get? t) last = .ok (r.range (some p) last.sequence) := by
      rw [hlog, hp]
      exact EventLog.query_eq_ok_iff.2 ⟨r, rfl, hlast, rfl⟩
    have hrange := hcr.range_eq hr hgreatest last.sequence
    refine ⟨h, r.range (some p) last.sequence, rfl, rangesOf_singleton c last hquery, ?_⟩
    rw [hrange]
    refine ⟨rfl, ?_, rfl⟩
    rw [← hcr.map_toNat_eq_range' hr hlast.2, EventRange.sequences, List.map_map]
    rfl

/-- The start of transaction 10 is of an earlier epoch. -/
def sampleEarlierEpoch : List CacheOp :=
  [.update (.snapshot (.ofByte 1) 8 ∅ ∅), .start (.ofList [10]) (.success (.ofByte 1) 9 [.lockByte 9 9]),
    .update (.snapshot (.ofByte 2) 5 ∅ ∅), .start (.ofList [20]) (.success (.ofByte 2) 6 [.lockByte 6 6])]

/-- When transaction 20 finishes, the log is compacted up to the start of transaction 30. -/
def sampleCompactedToStart : List CacheOp :=
  [.start (.ofList [40]) (.success (.ofByte 2) 9 [.lockByte 9 9, .lockByte 8 8]), .finish 20,
    .rangesOf (.ofList [10, 30, 40]) ⟨.ofByte 2, 9⟩, .finish 40,
    .update (.success (.ofByte 2) 10 [.lockByte 9 1, .lockByte 10 10])]

/-- The cache after transaction 30 has started in between. -/
def sampleStillLive : EventCache EventLog :=
  run {} (sampleEarlierEpoch ++
    .start (.ofList [30]) (.success (.ofByte 2) 7 [.lockByte 7 7]) :: sampleCompactedToStart)

theorem sample_live_transaction_gets_delta :
    sampleStillLive.log.oldest? = some 7 ∧
    ∃ range, (sampleStillLive.rangesOf (.ofList [30]) ⟨.ofByte 2, 9⟩).1 =
        .ok ⟨some ⟨.ofByte 2, 9⟩, .ofList [(30, range)]⟩ ∧
      range.fromSnapshot = false ∧ range.sequences.map UInt64.toNat = [8, 9] := by
  refine ⟨by decide, ?_⟩
  obtain ⟨h, range, -, hranges, hexact, hsequences, -⟩ :=
    live_transaction_gets_delta {} sampleEarlierEpoch sampleCompactedToStart (.ofList [30])
      (.success (.ofByte 2) 7 [.lockByte 7 7]) 30 (by decide) (by decide) sampleStillLive rfl
      ⟨.ofByte 2, 7⟩ ⟨.ofByte 2, 9⟩ ⟨.ofByte 2, 10⟩ (by decide) (by decide) (by decide) (by decide)
  exact ⟨range, hranges, hexact, hsequences⟩

end EventCache

end LockReplica
