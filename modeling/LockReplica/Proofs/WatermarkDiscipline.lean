import LockReplica.EventCache.Journaled
import LockReplica.EventCache.Run
import Mathlib.Data.List.Chain

/-!
# What a cache tells its log about compaction

Fix a log that answers as it likes, whatever it was told before, and keeps a journal of the calls it gets.

* **One call** (`EventCache.step_cases`): it adds nothing to the compactions in the journal, or it finishes a live
  transaction and adds one watermark, not above what the others need (`EventCache.Marks`).
* **Runs** (`EventCache.Recorded`): the last watermark of the cache is the last compaction in the journal, so that
  within an epoch each compaction is above the one before (`watermarks_rise`).
-/

namespace LockReplica

universe u

namespace EventCache

variable {σ : Type u} [LockLog σ]

/-! ## One call -/

/-- The call finishes a live transaction and tells the log of a watermark: it is of the epoch that the log reports,
and above no start of that epoch that is left, or not above the reported position if none is left. -/
structure Marks (c : EventCache (Journaled σ)) (op : CacheOp) (mark : Position) : Prop where
  journal : (c.step op).log.compactions = c.log.compactions ++ [mark]
  finishes : ∃ t p, op = .finish t ∧ c.starts.get? t = some p
  compaction : c.config.compaction = true
  within : ∃ latest, (LockLog.latest? c.log).1 = some latest ∧ mark.epoch = latest.epoch ∧
    (∀ p ∈ (c.step op).starts.values, p.epoch = latest.epoch → mark.sequence ≤ p.sequence) ∧
    ((∀ p ∈ (c.step op).starts.values, p.epoch ≠ latest.epoch) → mark.sequence ≤ latest.sequence)

/-- Questions are not compactions. -/
theorem compactions_askAll (log : Journaled σ) (last : Position) (starts : List (Option Position)) :
    (askAll log last starts).2.compactions = log.compactions := by
  induction starts generalizing log with
  | nil => rfl
  | cons start starts ih =>
    have hquery : (LockLog.query log start last).2.compactions = log.compactions := rfl
    rw [askAll]
    generalize LockLog.query log start last = answer at hquery
    rcases answer with ⟨e | range, log'⟩
    · exact hquery
    · have hrest := (ih log').trans hquery
      dsimp only
      generalize askAll log' last starts = answers at hrest
      rcases answers with ⟨e | ranges, log''⟩
      · exact hrest
      · exact hrest

theorem finish_cases (c : EventCache (Journaled σ)) (t : Timestamp) :
    (c.finish t).log.compactions = c.log.compactions ∧ (c.finish t).watermark = c.watermark ∨
      ∃ mark, c.Marks (.finish t) mark ∧ (c.finish t).watermark = some mark ∧ c.advances mark = true := by
  by_cases hlive : (c.starts.contains t && c.config.compaction) = true
  · have hfinish : c.finish t = (c.forget t).compact := by rw [finish_eq, if_pos hlive]
    rw [Bool.and_eq_true, Table.contains_eq_isSome_get?, Option.isSome_iff_exists] at hlive
    obtain ⟨⟨p, hp⟩, hcompaction⟩ := hlive
    rcases (c.forget t).compact_cases with ⟨latest, hlatest, hadvances, heq⟩ | ⟨-, heq⟩
    · have hstarts : (c.step (.finish t)).starts = (c.forget t).starts := c.starts_finish t
      refine .inr ⟨(c.forget t).watermarkAt latest,
        ⟨?_, ⟨t, p, rfl, hp⟩, hcompaction, latest, hlatest, ?_⟩, ?_, hadvances⟩
      · rw [step, hfinish, heq]
        rfl
      · rw [hstarts]
        exact ⟨epoch_watermarkAt _ _, fun p hp hepoch => watermarkAt_le hp hepoch,
          fun hnone => watermarkAt_le_latest fun p hp hepoch => absurd hepoch (hnone p hp)⟩
      · rw [hfinish, heq]
    · exact .inl (by rw [hfinish, heq]; exact ⟨rfl, rfl⟩)
  · exact .inl (by rw [finish_eq, if_neg hlive]; exact ⟨rfl, rfl⟩)

/-- A call leaves the compactions in the journal as they are, or it marks a position that advances. -/
theorem step_cases (c : EventCache (Journaled σ)) (op : CacheOp) :
    (c.step op).log.compactions = c.log.compactions ∧ (c.step op).watermark = c.watermark ∨
      ∃ mark, c.Marks op mark ∧ (c.step op).watermark = some mark ∧ c.advances mark = true := by
  cases op with
  | finish t => exact c.finish_cases t
  | update u => exact .inl ⟨rfl, rfl⟩
  | start timestamps u =>
    refine .inl ?_
    have hupdate : (LockLog.update c.log u).2.compactions = c.log.compactions := rfl
    simp only [step, start]
    generalize LockLog.update c.log u = answer at hupdate
    rcases answer with ⟨_ | p, log⟩
    · exact ⟨hupdate, rfl⟩
    · exact ⟨hupdate, rfl⟩
  | rangesFrom starts last => exact .inl ⟨compactions_askAll c.log last _, rfl⟩
  | rangesOf timestamps last => exact .inl ⟨compactions_askAll c.log last _, rfl⟩
  | earliestLive => exact .inl ⟨rfl, rfl⟩

/-! ## Runs -/

/-- The last watermark of the cache is the last compaction in the journal, and within an epoch each compaction is
above the one before. -/
structure Recorded (c : EventCache (Journaled σ)) : Prop where
  getLast?_compactions : c.log.compactions.getLast? = c.watermark
  rising : c.log.compactions.IsChain fun m m' => m.epoch = m'.epoch → m.sequence < m'.sequence

theorem Recorded.step {c : EventCache (Journaled σ)} (hc : c.Recorded) (op : CacheOp) : (c.step op).Recorded := by
  rcases c.step_cases op with ⟨hjournal, hmark⟩ | ⟨mark, hmarks, hmark, hadvances⟩
  · exact ⟨by rw [hjournal, hmark, hc.getLast?_compactions], by rw [hjournal]; exact hc.rising⟩
  · refine ⟨by rw [hmarks.journal, hmark, List.getLast?_concat], ?_⟩
    rw [hmarks.journal]
    refine hc.rising.append (.singleton mark) fun m hm m' hm' hepoch => ?_
    cases hm'
    -- the compaction before is the last watermark, which the new one advances
    exact advances_iff.1 hadvances m (hc.getLast?_compactions ▸ hm) hepoch

theorem recorded_runOver (config : Config) (log : σ) (ops : List CacheOp) :
    (runOver config ({ log } : Journaled σ) ops).Recorded := by
  suffices h : ∀ c : EventCache (Journaled σ), c.Recorded → (ops.foldl step c).Recorded from h _ ⟨rfl, .nil⟩
  induction ops with
  | nil => exact fun _ hc => hc
  | cons op ops ih => exact fun c hc => ih (c.step op) (hc.step op)

end EventCache

open EventCache

/-- **Watermarks rise**, over a log that answers as it likes: a call of the cache is a compaction of the log at most
once, and only if it finishes a live transaction under settings that compact, while the log reports a position; the
watermark is of the epoch reported and above no start that is left there; and of two compactions that follow each
other within an epoch, the second is above the first. -/
theorem watermarks_rise {σ : Type u} [LockLog σ] (config : Config) (log : σ) (ops : List CacheOp) :
    (∀ op, ((runOver config ({ log } : Journaled σ) ops).step op).log.compactions =
        (runOver config ({ log } : Journaled σ) ops).log.compactions ∨
      config.compaction = true ∧ ∃ mark, (runOver config ({ log } : Journaled σ) ops).Marks op mark) ∧
    (runOver config ({ log } : Journaled σ) ops).log.compactions.IsChain fun m m' =>
      m.epoch = m'.epoch → m.sequence < m'.sequence := by
  refine ⟨fun op => ?_, (recorded_runOver config log ops).rising⟩
  rcases (runOver config ({ log } : Journaled σ) ops).step_cases op with ⟨hjournal, -⟩ | ⟨mark, hmarks, -⟩
  · exact .inl hjournal
  · exact .inr ⟨config_runOver config ({ log } : Journaled σ) ops ▸ hmarks.compaction, mark, hmarks⟩

end LockReplica
