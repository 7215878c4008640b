import LockReplica.EventCache.LockLog
import LockReplica.Proofs.Conservation

/-!
# Compactions and updates change places

Fix a log and a position at which it may be compacted.

* **Compactions** (`EventLog.compact_compact`, `EventLog.compact_comm`): within one epoch two of them do what the higher
  one does, and of two epochs the log follows at most one.
* **One update** (`EventLog.update_compact`): what an update brings lies above the position of the log, so a compaction
  that goes no further than one above it (`EventLog.SparesNew`) may come before or after. A compaction that goes
  further folds what comes next away if it comes after, and not if it comes before (`EventLog.sparesNew_of_commutes`).
* **Runs** (`EventLog.foldl_step_compact`): a log that takes in no snapshot only moves on, so that the compaction may
  as well wait until the end.
-/

namespace LockReplica

/-! ## One replica -/

namespace Replica

variable {r : Replica} {n : Sequence}

/-- New events are not looked at by a compaction that goes no further than one above the position. -/
theorem append_compactBelow (hn : n.toNat ≤ r.latest.sequence.toNat + 1) (events : List Event) :
    (r.compactBelow n).append events = (r.append events).compactBelow n := by
  have hfresh : ∀ e ∈ r.fresh events, n ≤ e.sequence := by
    intro e he
    have habove := UInt64.lt_iff_toNat_lt.1 (mem_fresh.1 he).2
    exact UInt64.le_iff_toNat_le.2 (by omega)
  have hkept : (r.retained.insertAll (r.fresh events)).filter (fun e => n ≤ e.sequence) =
      (r.retained.filter fun e => n ≤ e.sequence).insertAll (r.fresh events) :=
    Ascending.filter_insertAll_of_forall fun e he => decide_eq_true (hfresh e he)
  have hfolded : (r.retained.insertAll (r.fresh events)).filter (fun e => e.sequence < n) =
      r.retained.filter fun e => e.sequence < n := by
    refine Ascending.filter_insertAll_of_forall_not fun e he d hde => ?_
    rw [hde]
    exact decide_eq_false (UInt64.not_lt.2 (hfresh e he))
  have hlatest : Timeline.highest r.latest.sequence
      ((r.retained.insertAll (r.fresh events)).filter fun e => n ≤ e.sequence) =
      Timeline.highest r.latest.sequence (r.retained.insertAll (r.fresh events)) := by
    refine Timeline.highest_filter fun e _ hbelow => UInt64.le_iff_toNat_le.2 ?_
    have hlt := UInt64.lt_iff_toNat_lt.1 (UInt64.not_le.1 (of_decide_eq_false hbelow))
    omega
  show Replica.mk { r.latest with
      sequence := Timeline.highest r.latest.sequence
        ((r.retained.filter fun e => n ≤ e.sequence).insertAll (r.fresh events)) }
    (r.baseline.applyAll (r.retained.filter fun e => e.sequence < n).toList)
    ((r.retained.filter fun e => n ≤ e.sequence).insertAll (r.fresh events)) = _
  rw [← hkept, hlatest, ← hfolded]
  rfl

/-- A delivery may come before or after such a compaction. -/
theorem extend_compactBelow (hn : n.toNat ≤ r.latest.sequence.toNat + 1) (lastKnown : Sequence) (events : List Event) :
    (r.compactBelow n).extend lastKnown events = (r.extend lastKnown events).compactBelow n := by
  unfold extend
  rw [latest_compactBelow]
  split
  · rfl
  · exact append_compactBelow hn events

/-- An event above the position is taken in if it is delivered alone. -/
theorem mem_retained_extend_singleton {e : Event} (h : r.latest.sequence < e.sequence) :
    e ∈ (r.extend e.sequence [e]).retained := by
  have hfresh : r.fresh [e] = [e] := by simp [fresh, h]
  rw [extend, if_neg (UInt64.not_le.2 h), append, hfresh]
  exact Ascending.mem_insert.2 (.inl rfl)

end Replica

/-! ## One update -/

namespace EventLog

variable {log : EventLog} {p : Position}

/-- A compaction there folds nothing away that is still to come: if the log follows the epoch, the compaction goes no
further than one above its position. -/
def SparesNew (log : EventLog) (before : Position) : Prop :=
  ∀ latest ∈ log.latest?, before.epoch = latest.epoch → before.sequence.toNat ≤ latest.sequence.toNat + 1

/-- An update may come before or after such a compaction. -/
theorem update_compact (h : log.SparesNew p) (u : Update) : (log.compact p).update u = (log.update u).compact p := by
  cases u with
  | failed epoch => rfl
  | snapshot epoch lastKnown locked watched =>
    -- nothing is retained then
    simp only [update, compact]
    split <;> rfl
  | success epoch lastKnown events =>
    cases log with
    | unknown => rfl
    | known r =>
      by_cases hp : p.epoch = r.epoch
      · have hextend := Replica.extend_compactBelow (h r.latest rfl hp) lastKnown events
        by_cases hepoch : epoch = r.epoch <;> simp [update, deliver, compact, hp, hepoch, hextend]
      · by_cases hepoch : epoch = r.epoch <;> simp [update, deliver, compact, hp, hepoch]

/-- A compaction that goes further folds the next event away, unless it comes before that event. -/
theorem sparesNew_of_commutes (h : ∀ u, (log.compact p).update u = (log.update u).compact p) : log.SparesNew p := by
  intro latest hlatest hepoch
  cases log with
  | unknown => cases hlatest
  | known r =>
    cases hlatest
    refine Nat.not_lt.1 fun hfar => ?_
    -- the event right above the position is retained in the one order and folded away in the other
    have hne : r.latest.sequence ≠ Sequence.greatest :=
      Sequence.ne_greatest_of_lt (UInt64.lt_iff_toNat_lt.2 (Nat.lt_of_succ_lt hfar))
    let e : Event := .unlock r.latest.sequence.next ∅
    have hnext : e.sequence.toNat = r.latest.sequence.toNat + 1 := Sequence.toNat_next hne
    have habove : r.latest.sequence < e.sequence := UInt64.lt_iff_toNat_lt.2 (by omega)
    have hbelow : e.sequence < p.sequence := UInt64.lt_iff_toNat_lt.2 (by omega)
    have hp : p.epoch = r.epoch := hepoch
    have heq := h (.success r.epoch e.sequence [e])
    simp only [compact, update, deliver, Replica.epoch_compactBelow, Replica.epoch_extend, if_pos hp, if_pos] at heq
    have hret : e ∈ ((r.compactBelow p.sequence).extend e.sequence [e]).retained :=
      Replica.mem_retained_extend_singleton habove
    rw [known.inj heq] at hret
    exact UInt64.not_lt.2 (Replica.mem_retained_compactBelow.1 hret).2 hbelow

/-! ## Runs -/

theorem SparesNew.step (h : log.SparesNew p) {op : LogOp} (hop : ∀ u ∈ op.update?, ¬u.IsSnapshot) :
    (log.step op).SparesNew p := by
  intro latest hlatest hepoch
  cases op with
  | compact before =>
    rw [EventLog.step, latest?_compact] at hlatest
    exact h latest hlatest hepoch
  | update u =>
    obtain ⟨q, hq, hle⟩ := exists_le_of_mem_latest?_update (hop u rfl) hlatest
    have hqp := h q hq (hepoch.trans hle.1.symm)
    have := UInt64.le_iff_toNat_le.1 hle.2
    omega

/-- A call may come before or after such a compaction. -/
theorem step_compact (h : log.SparesNew p) (op : LogOp) : (log.compact p).step op = (log.step op).compact p := by
  cases op with
  | compact before => exact log.compact_comm p before
  | update u => exact update_compact h u

/-- **A compaction may wait**: until the end of any run in which no snapshot comes. -/
theorem foldl_step_compact (h : log.SparesNew p) {ops : List LogOp} (hops : ∀ u ∈ LogOp.updates ops, ¬u.IsSnapshot) :
    ops.foldl EventLog.step (log.compact p) = (ops.foldl EventLog.step log).compact p := by
  induction ops generalizing log with
  | nil => rfl
  | cons op ops ih =>
    have hop : ∀ u ∈ op.update?, ¬u.IsSnapshot := fun u hu => hops u (LogOp.mem_updates_cons.2 (.inl hu))
    rw [List.foldl_cons, List.foldl_cons, step_compact h op]
    exact ih (h.step hop) fun u hu => hops u (LogOp.mem_updates_cons.2 (.inr hu))

end EventLog

/-- **Compaction composes and commutes**: compactions may change places, and within one epoch they do what the highest one
does. A compaction may change places with every update, to the same state and the same reported position, if and only if
it is of another epoch than the log or goes no further than one above its position. -/
theorem compaction_commutes (log : EventLog) :
    (∀ p q, (log.compact p).compact q = (log.compact q).compact p) ∧
    (∀ epoch m n, (log.compact ⟨epoch, m⟩).compact ⟨epoch, n⟩ = log.compact ⟨epoch, max m n⟩) ∧
    (∀ p, (log.compact p).compact p = log.compact p) ∧
    ∀ p, (∀ u, LockLog.update (log.compact p) u = ((LockLog.update log u).1, (LockLog.update log u).2.compact p)) ↔
      log.SparesNew p := by
  refine ⟨log.compact_comm, log.compact_compact, fun p => ?_, fun p => ⟨fun h => ?_, fun h u => ?_⟩⟩
  · exact log.compact_compact_of_le p.le_refl
  · exact EventLog.sparesNew_of_commutes fun u => (Prod.mk.inj (h u)).2
  · have heq := EventLog.update_compact h u
    show (((log.compact p).update u).latest?, (log.compact p).update u) = (_, _)
    rw [heq, EventLog.latest?_compact]
    rfl

-- event 3 is the next one, so that a compaction at 4 must come before it or fold it away
example :
    let log := EventLog.run [.update (.snapshot (.ofByte 1) 2 ∅ ∅)]
    let u := Update.success (.ofByte 1) 3 [.lockByte 3 3]
    (log.compact ⟨.ofByte 1, 3⟩).update u = (log.update u).compact ⟨.ofByte 1, 3⟩ ∧
      (log.compact ⟨.ofByte 1, 4⟩).update u ≠ (log.update u).compact ⟨.ofByte 1, 4⟩ := by decide

end LockReplica
