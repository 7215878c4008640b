import LockReplica.EventCache.LockLog
import LockReplica.Proofs.Conservation
import LockReplica.Run

/-!
# Redelivered updates are absorbed

A success that comes again is stale, or its events lie at or below the position of the log and none is taken in.

* **Absorption** (`Replica.Absorbs`): a replica absorbs every delivery that it has taken in (`absorbs_extend`),
  and what it absorbs does not change it (`extend_eq_self`).
* **Runs** (`EventLog.Absorbs.step`): a log that follows one leader moves forward only, so that it goes on to absorb
  what it has absorbed.
-/

namespace LockReplica

/-! ## One replica -/

namespace Replica

variable {r r' : Replica} {lastKnown : Sequence} {events : List Event}

/-- The delivery has nothing above the position, or is stale. -/
def Absorbs (r : Replica) (lastKnown : Sequence) (events : List Event) : Prop :=
  lastKnown ≤ r.latest.sequence ∨ ∀ e ∈ events, e.sequence ≤ r.latest.sequence

theorem Absorbs.mono (h : r.Absorbs lastKnown events) (hle : r.latest ≤ r'.latest) :
    r'.Absorbs lastKnown events :=
  h.imp (fun hstale => UInt64.le_trans hstale hle.2) fun hall e he => UInt64.le_trans (hall e he) hle.2

/-- What is delivered is retained under its sequence or was below the position. -/
theorem absorbs_append (r : Replica) (events : List Event) : (r.append events).Absorbs lastKnown events := by
  refine .inr fun e he => ?_
  by_cases hlt : r.latest.sequence < e.sequence
  · obtain ⟨d, hd, hde⟩ := Ascending.exists_mem_insertAll_iff (s := r.retained).2
      (.inr ⟨e, mem_fresh.2 ⟨he, hlt⟩, rfl⟩)
    rw [← hde]
    exact Timeline.le_highest_of_mem hd
  · exact UInt64.le_trans (UInt64.not_lt.1 hlt) (Timeline.le_highest _ _)

theorem absorbs_extend (r : Replica) (lastKnown : Sequence) (events : List Event) :
    (r.extend lastKnown events).Absorbs lastKnown events := by
  unfold extend
  split
  · exact .inl ‹_›
  · exact r.absorbs_append events

/-- A delivery that is absorbed changes nothing. -/
theorem extend_eq_self (h : r.Absorbs lastKnown events) (hr : ∀ e ∈ r.retained, e.sequence ≤ r.latest.sequence) :
    r.extend lastKnown events = r := by
  unfold extend
  split
  · rfl
  · have hall : ∀ e ∈ events, e.sequence ≤ r.latest.sequence := h.resolve_left ‹_›
    have hfresh : r.fresh events = [] := List.filter_eq_nil_iff.2 fun e he => by simpa using hall e he
    have hhighest : Timeline.highest r.latest.sequence r.retained = r.latest.sequence :=
      Timeline.highest_eq_iff.2 ⟨UInt64.le_refl _, hr, .inl rfl⟩
    rw [append, hfresh, Ascending.insertAll_nil, hhighest]

/-- Whatever a replica holds, it absorbs at once what it has just taken in. -/
theorem extend_extend (r : Replica) (lastKnown : Sequence) (events : List Event) :
    (r.extend lastKnown events).extend lastKnown events = r.extend lastKnown events := by
  by_cases hstale : lastKnown ≤ r.latest.sequence
  · have heq : r.extend lastKnown events = r := if_pos hstale
    rw [heq, heq]
  · have heq : r.extend lastKnown events = r.append events := if_neg hstale
    rw [heq]
    exact extend_eq_self (r.absorbs_append events) fun e he => Timeline.le_highest_of_mem he

end Replica

/-! ## One log -/

namespace EventLog

variable {log : EventLog} {told : Option History} {u : Update} {op : LogOp} {p : Position}

/-- The update is a success of the leader that the log follows, and has nothing for it. -/
def Absorbs (log : EventLog) : Update → Prop
  | .success epoch lastKnown events => ∃ r, log = known r ∧ r.epoch = epoch ∧ r.Absorbs lastKnown events
  | .snapshot .. | .failed _ => False

theorem update_update (log : EventLog) (u : Update) : (log.update u).update u = log.update u := by
  cases u with
  | failed epoch => rfl
  | snapshot epoch lastKnown locked watched => rfl
  | success epoch lastKnown events =>
    cases log with
    | unknown => rfl
    | known r =>
      by_cases hepoch : epoch = r.epoch
      · have hepoch' : epoch = (r.extend lastKnown events).epoch := hepoch.trans (r.epoch_extend _ _).symm
        simp only [update, deliver, if_pos hepoch, if_pos hepoch', r.extend_extend]
      · simp only [update, deliver, if_neg hepoch]

/-- A log absorbs what it has just taken in from its leader. -/
theorem absorbs_update (hreset : ¬log.Resets u) : (log.update u).Absorbs u := by
  obtain ⟨r, lastKnown, events, -, rfl, heq⟩ := exists_extend_of_not_resets hreset
  exact ⟨r.extend lastKnown events, heq, r.epoch_extend _ _, r.absorbs_extend lastKnown events⟩

theorem Absorbs.step (log : EventLog) (op : LogOp) (h : log.Absorbs u) (hop : log.Continues op) :
    (log.step op).Absorbs u := by
  match u, h with
  | .success epoch lastKnown events, ⟨r, hlog, hepoch, habs⟩ =>
    obtain ⟨q, hq, hle⟩ := exists_le_latest?_step (p := r.latest) (by rw [hlog]; rfl) hop
    cases hstep : log.step op with
    | unknown =>
      rw [hstep] at hq
      cases hq
    | known r' =>
      rw [hstep] at hq
      cases hq
      exact ⟨r', rfl, hle.1.symm.trans hepoch, habs.mono hle⟩

/-- An update that is absorbed changes nothing. -/
theorem Absorbs.update_eq_self (h : log.Absorbs u) (hl : log.Follows told) : log.update u = log := by
  match u, h with
  | .success epoch lastKnown events, ⟨r, hlog, hepoch, habs⟩ =>
    subst hlog
    cases hl with
    | @known _ h hr =>
      rw [update, deliver, if_pos hepoch.symm, Replica.extend_eq_self habs fun e he => hr.le_latest he]

end EventLog

/-! ## Runs -/

/-- **Redelivered updates are absorbed**: the same update twice in a row does what it does once; and a success
of the leader that a log follows changes nothing when it comes again, as long as the log goes on with that
leader, whatever it compacts. -/
theorem redelivery_absorbed :
    (∀ (log : EventLog) (u : Update),
      LockLog.update (LockLog.update log u).2 u = LockLog.update log u) ∧
    ∀ (before : List LogOp) (u : Update) (after : List LogOp), ¬(EventLog.run before).Resets u →
      Along EventLog.step EventLog.Continues (EventLog.run (before ++ [.update u])) after →
      (EventLog.run (before ++ .update u :: after)).update u = EventLog.run (before ++ .update u :: after) := by
  refine ⟨fun log u => ?_, fun before u after hreset hafter => ?_⟩
  · show ((log.update u).update u |>.latest?, (log.update u).update u) = (_, _)
    rw [log.update_update]
  · have hrun : EventLog.run (before ++ .update u :: after) =
        after.foldl EventLog.step (EventLog.run (before ++ [.update u])) := by
      rw [EventLog.run, EventLog.run, ← List.foldl_append, List.append_assoc, List.singleton_append]
    have hseen : (EventLog.run (before ++ [.update u])).Absorbs u := by
      rw [EventLog.run, List.foldl_append]
      exact EventLog.absorbs_update hreset
    have habs : (EventLog.run (before ++ .update u :: after)).Absorbs u := hrun ▸ hafter.foldl EventLog.Absorbs.step hseen
    exact habs.update_eq_self (EventLog.follows_run _)

/-- The update declares more than it carries, so that it is not stale when it comes again, after its events are
compacted. -/
theorem sample_redelivery_absorbed :
    let u := Update.success (.ofByte 1) 9 [.lockByte 2 2, .lockByte 1 1, .lockByte 2 7]
    let log := EventLog.run [.update (.snapshot (.ofByte 1) 0 ∅ ∅), .update u,
      .update (.success (.ofByte 1) 5 [.lockByte 4 4, .lockByte 3 3]), .compact ⟨.ofByte 1, 4⟩]
    log.latest? = some ⟨.ofByte 1, 4⟩ ∧ log.oldest? = some 4 ∧ log.update u = log :=
  ⟨by decide, by decide, redelivery_absorbed.2 [.update (.snapshot (.ofByte 1) 0 ∅ ∅)] _ _ (by decide) (by decide)⟩

end LockReplica
