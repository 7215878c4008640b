import LockReplica.EventCache.Basic

/-!
# Watermarks

The watermark is what the live transactions need from (`NeedsFrom`), less the reserve (`exists_needsFrom`). A
compaction tells the log of it if it advances, and does nothing otherwise (`compact_cases`). To finish a
transaction is to forget it and, if it was live and compaction is on, to compact (`finish_eq`).
-/

namespace LockReplica

universe u

namespace EventCache

variable {σ : Type u}

/-! ## What live transactions need -/

section Needs

variable {c : EventCache σ} {latest p q : Position} {t : Timestamp}

/-- The live transactions of the epoch of a position need the events after `n`: it is the least of their starts
or, if there is none of the epoch, the position itself. -/
structure NeedsFrom (c : EventCache σ) (latest : Position) (n : Sequence) : Prop where
  le_start : ∀ p ∈ c.starts.values, p.epoch = latest.epoch → n ≤ p.sequence
  eq_start_or : (∃ p ∈ c.starts.values, p.epoch = latest.epoch ∧ p.sequence = n) ∨
    (∀ p ∈ c.starts.values, p.epoch ≠ latest.epoch) ∧ n = latest.sequence

instance (c : EventCache σ) (latest : Position) (n : Sequence) : Decidable (c.NeedsFrom latest n) :=
  decidable_of_iff ((∀ p ∈ c.starts.values, p.epoch = latest.epoch → n ≤ p.sequence) ∧
      ((∃ p ∈ c.starts.values, p.epoch = latest.epoch ∧ p.sequence = n) ∨
        (∀ p ∈ c.starts.values, p.epoch ≠ latest.epoch) ∧ n = latest.sequence))
    ⟨fun h => ⟨h.1, h.2⟩, fun h => ⟨h.le_start, h.eq_start_or⟩⟩

/-- If no start of the epoch is after a position, then nothing after it is needed. -/
theorem NeedsFrom.le_latest {n : Sequence} (hn : c.NeedsFrom latest n)
    (h : ∀ p ∈ c.starts.values, p.epoch = latest.epoch → p.sequence ≤ latest.sequence) : n ≤ latest.sequence := by
  rcases hn.eq_start_or with ⟨p, hp, hepoch, rfl⟩ | ⟨-, rfl⟩
  · exact h p hp hepoch
  · exact UInt64.le_refl _

/-- The watermark is what the live transactions need from, less the reserve. -/
theorem exists_needsFrom (c : EventCache σ) (latest : Position) :
    ∃ n, c.NeedsFrom latest n ∧ c.watermarkAt latest = ⟨latest.epoch, n.back c.config.retainedSequences⟩ := by
  have hmem : ∀ n, n ∈ (c.starts.values.filter (·.epoch = latest.epoch)).map (·.sequence) ↔
      ∃ p ∈ c.starts.values, p.epoch = latest.epoch ∧ p.sequence = n := fun n => by simp [and_assoc]
  unfold watermarkAt earliestIn?
  cases hmin : ((c.starts.values.filter (·.epoch = latest.epoch)).map (·.sequence)).min? with
  | none =>
    rw [List.min?_eq_none_iff] at hmin
    have hnone : ∀ p ∈ c.starts.values, p.epoch ≠ latest.epoch := fun p hp hepoch =>
      List.not_mem_nil (hmin ▸ (hmem p.sequence).2 ⟨p, hp, hepoch, rfl⟩)
    exact ⟨latest.sequence, ⟨fun p hp hepoch => absurd hepoch (hnone p hp), .inr ⟨hnone, rfl⟩⟩, rfl⟩
  | some n =>
    obtain ⟨hn, hle⟩ := List.min?_eq_some_iff.1 hmin
    exact ⟨n, ⟨fun p hp hepoch => hle _ ((hmem _).2 ⟨p, hp, hepoch, rfl⟩), .inl ((hmem n).1 hn)⟩, rfl⟩

/-- The watermark depends on the starts and the reserve alone. -/
theorem watermarkAt_congr {c c' : EventCache σ} (hstarts : c.starts = c'.starts) (hconfig : c.config = c'.config)
    (latest : Position) : c.watermarkAt latest = c'.watermarkAt latest := by
  rw [watermarkAt, watermarkAt, earliestIn?, earliestIn?, hstarts, hconfig]

@[simp] theorem epoch_watermarkAt (c : EventCache σ) (latest : Position) :
    (c.watermarkAt latest).epoch = latest.epoch := by
  obtain ⟨n, -, heq⟩ := c.exists_needsFrom latest
  rw [heq]

/-- No live transaction of the epoch started before the watermark. -/
theorem watermarkAt_le (hp : p ∈ c.starts.values) (hepoch : p.epoch = latest.epoch) :
    (c.watermarkAt latest).sequence ≤ p.sequence := by
  obtain ⟨n, hn, heq⟩ := c.exists_needsFrom latest
  rw [heq]
  exact UInt64.le_trans Sequence.back_le (hn.le_start p hp hepoch)

/-- If no start of the epoch is after a position, then the watermark is not either. -/
theorem watermarkAt_le_latest (h : ∀ p ∈ c.starts.values, p.epoch = latest.epoch → p.sequence ≤ latest.sequence) :
    (c.watermarkAt latest).sequence ≤ latest.sequence := by
  obtain ⟨n, hn, heq⟩ := c.exists_needsFrom latest
  rw [heq]
  exact UInt64.le_trans Sequence.back_le (hn.le_latest h)

/-- A watermark advances unless the last one is of its epoch and not below it. -/
theorem advances_iff : c.advances p = true ↔ ∀ q ∈ c.watermark, q.epoch = p.epoch → q.sequence < p.sequence := by
  unfold advances
  cases c.watermark with
  | none => simp
  | some q =>
    by_cases hepoch : q.epoch = p.epoch
    · simp [hepoch]
    · simp [hepoch]

theorem advances_eq_false_iff : c.advances p = false ↔ ∃ q ∈ c.watermark, p ≤ q := by
  unfold advances
  cases c.watermark with
  | none => simp
  | some q =>
    by_cases hepoch : q.epoch = p.epoch
    · simp [hepoch, Position.le_def]
    · simp [hepoch, Position.le_def, Ne.symm hepoch]

theorem advances_of_le (h : c.advances p = true) (hpq : p ≤ q) : c.advances q = true :=
  advances_iff.2 fun m hm hepoch => UInt64.lt_of_lt_of_le (advances_iff.1 h m hm (hepoch.trans hpq.1.symm)) hpq.2

end Needs

/-! ## Finished transactions -/

/-- Drops the record of a transaction. -/
def forget (c : EventCache σ) (t : Timestamp) : EventCache σ := { c with starts := c.starts.erase t }

variable {t t' : Timestamp}

theorem get?_starts_forget (c : EventCache σ) :
    (c.forget t).starts.get? t' = if t' = t then none else c.starts.get? t' := Table.get?_erase

theorem mem_starts_of_forget {c : EventCache σ} {p : Position} (hp : p ∈ (c.forget t).starts.values) :
    p ∈ c.starts.values := Table.mem_values_of_mem_values_erase hp

theorem forget_forget (c : EventCache σ) (t t' : Timestamp) : (c.forget t).forget t' = (c.forget t').forget t := by
  have hstarts : ((c.forget t).forget t').starts = ((c.forget t').forget t).starts := Table.ext_get? fun k => by
    simp only [get?_starts_forget]
    split <;> split <;> rfl
  exact congrArg (fun starts => { c with starts }) hstarts

/-- To forget a transaction that is not live changes nothing. -/
theorem forget_eq_self {c : EventCache σ} (h : c.starts.get? t = none) : c.forget t = c := by
  have hstarts : (c.forget t).starts = c.starts := Table.ext_get? fun k => by
    rw [get?_starts_forget]
    split
    · rw [‹k = t›, h]
    · rfl
  exact congrArg (fun starts => { c with starts }) hstarts

variable [LockLog σ]

theorem finish_eq (c : EventCache σ) (t : Timestamp) :
    c.finish t = if c.starts.contains t && c.config.compaction then (c.forget t).compact else c.forget t := rfl

/-- A compaction tells the log of a watermark that advances, or does nothing but ask for the position. -/
theorem compact_cases (c : EventCache σ) :
    (∃ latest, (LockLog.latest? c.log).1 = some latest ∧ c.advances (c.watermarkAt latest) = true ∧
      c.compact = { c with
        log := LockLog.compact (LockLog.latest? c.log).2 (c.watermarkAt latest)
        watermark := some (c.watermarkAt latest) }) ∨
    (∀ latest, (LockLog.latest? c.log).1 = some latest → c.advances (c.watermarkAt latest) = false) ∧
      c.compact = { c with log := (LockLog.latest? c.log).2 } := by
  unfold compact
  generalize LockLog.latest? c.log = answer
  rcases answer with ⟨_ | latest, log⟩
  · exact .inr ⟨nofun, rfl⟩
  · cases hadvances : c.advances (c.watermarkAt latest) with
    | true => exact .inl ⟨latest, rfl, hadvances, by simp [hadvances]⟩
    | false =>
      refine .inr ⟨fun latest' hlatest => ?_, by simp [hadvances]⟩
      cases hlatest
      exact hadvances

@[simp] theorem config_compact (c : EventCache σ) : c.compact.config = c.config := by
  rcases c.compact_cases with ⟨latest, -, -, heq⟩ | ⟨-, heq⟩ <;> rw [heq]

@[simp] theorem starts_compact (c : EventCache σ) : c.compact.starts = c.starts := by
  rcases c.compact_cases with ⟨latest, -, -, heq⟩ | ⟨-, heq⟩ <;> rw [heq]

@[simp] theorem watermarkAt_compact (c : EventCache σ) (latest : Position) :
    c.compact.watermarkAt latest = c.watermarkAt latest :=
  watermarkAt_congr c.starts_compact c.config_compact latest

theorem starts_finish (c : EventCache σ) (t : Timestamp) : (c.finish t).starts = (c.forget t).starts := by
  rw [finish_eq]
  split
  · exact (c.forget t).starts_compact
  · rfl

@[simp] theorem config_finish (c : EventCache σ) (t : Timestamp) : (c.finish t).config = c.config := by
  rw [finish_eq]
  split
  · exact (c.forget t).config_compact
  · rfl

theorem watermarkAt_finish (c : EventCache σ) (t : Timestamp) (latest : Position) :
    (c.finish t).watermarkAt latest = (c.forget t).watermarkAt latest :=
  watermarkAt_congr (c.starts_finish t) (c.config_finish t) latest

/-! ## Over an event log -/

section

variable (c : EventCache EventLog)

theorem get?_starts_finish : (c.finish t).starts.get? t' = if t' = t then none else c.starts.get? t' := by
  rw [starts_finish, get?_starts_forget]

/-- A finished transaction leaves the log as it is or compacts it below the watermark of the others. -/
theorem log_finish_cases (t : Timestamp) :
    (c.finish t).log = c.log ∧ (c.finish t).watermark = c.watermark ∨
      ∃ latest ∈ c.log.latest?, (c.finish t).log = c.log.compact ((c.forget t).watermarkAt latest) ∧
        (c.finish t).watermark = some ((c.forget t).watermarkAt latest) := by
  rw [finish_eq]
  split
  · rcases (c.forget t).compact_cases with ⟨latest, hlatest, -, heq⟩ | ⟨-, heq⟩
    · exact .inr ⟨latest, hlatest, by rw [heq]; exact ⟨rfl, rfl⟩⟩
    · exact .inl (by rw [heq]; exact ⟨rfl, rfl⟩)
  · exact .inl ⟨rfl, rfl⟩

@[simp] theorem latest?_finish (t : Timestamp) : (c.finish t).log.latest? = c.log.latest? := by
  rcases c.log_finish_cases t with ⟨heq, -⟩ | ⟨latest, -, heq, -⟩
  · rw [heq]
  · rw [heq, EventLog.latest?_compact]

end

end EventCache

end LockReplica
