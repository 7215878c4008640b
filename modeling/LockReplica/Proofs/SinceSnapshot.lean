import LockReplica.Proofs.Compaction
import LockReplica.Run

/-!
# Since the last snapshot

Fix a run of a log. Its calls alone tell what has come about since its last snapshot (`EventLog.SinceSnapshot`), and if
the log follows a history, then replica and history hold just that.

* **The principle** (`EventLog.sinceSnapshot_iff`): a fact of replica and history is what some call has brought about
  since the last snapshot, if this is so of every single call.
* **The origin** (`EventLog.snapshotLast_iff`): a history starts where the last snapshot of the run was.
* **The floor** (`EventLog.foldedSince_iff`, `EventLog.isFloor`): the accepted events that a log retains no more are
  those that compactions have folded away. The highest of them, or the snapshot if that is higher, is the floor of what
  is left.
-/

namespace LockReplica

namespace EventLog

/-- Some call of the run has brought it about, and no snapshot has come since. -/
def SinceSnapshot (made : EventLog → LogOp → Prop) (ops : List LogOp) : Prop :=
  Since step made (fun _ op => ∀ u ∈ op.update?, ¬u.IsSnapshot) unknown ops

section

variable {made : EventLog → LogOp → Prop} {ops : List LogOp} {r : Replica} {h : History}

/-- A fact of replica and history that holds of a snapshot if it brings it about, and after any other call if that does
or it held before, is what some call has brought about since the last snapshot. -/
theorem sinceSnapshot_iff {Q : Replica → History → Prop}
    (snapshot : ∀ log p s, Q (.ofSnapshot p s) { origin := p, state := s } ↔
      made log (.update (.snapshot p.epoch p.sequence s.locked s.watched)))
    (success : ∀ r h lastKnown events, r.Follows h →
      (Q (r.extend lastKnown events) (if lastKnown ≤ h.latest.sequence then h else h.accept events) ↔
        made (known r) (.update (.success h.epoch lastKnown events)) ∨ Q r h))
    (compact : ∀ r r' h before, r.Follows h → (known r).compact before = known r' →
      (Q r' h ↔ made (known r) (.compact before) ∨ Q r h))
    (hlog : run ops = known r) (hh : History.run (LogOp.updates ops) = some h) : SinceSnapshot made ops ↔ Q r h := by
  refine run_induction (P := fun ops r h => SinceSnapshot made ops ↔ Q r h) ?_ ?_ ?_ hlog hh
  · intro ops p s
    rw [SinceSnapshot, since_concat_iff, snapshot]
    exact or_iff_left fun ⟨_, hkept⟩ => hkept _ rfl trivial
  · intro ops r h lastKnown events hlog hr ih
    rw [SinceSnapshot, since_concat_iff, ← SinceSnapshot, ← run, hlog, ih, success r h lastKnown events hr]
    refine or_congr_right (and_iff_left fun u hu => ?_)
    cases hu
    exact id
  · intro ops r r' h before hlog hr ih hr'
    rw [SinceSnapshot, since_concat_iff, ← SinceSnapshot, ← run, hlog, ih, compact r r' h before hr hr']
    exact or_congr_right (and_iff_left nofun)

end

variable {ops : List LogOp} {h : History} {e : Event}

/-! ## The last snapshot -/

/-- The last snapshot of the run told the state at the position. -/
def SnapshotLast (ops : List LogOp) (p : Position) (s : LockState) : Prop :=
  SinceSnapshot (fun _ op => op = .update (.snapshot p.epoch p.sequence s.locked s.watched)) ops

theorem snapshotLast_iff (hh : History.run (LogOp.updates ops) = some h) {p : Position} {s : LockState} :
    SnapshotLast ops p s ↔ p = h.origin ∧ s = h.state := by
  obtain ⟨r, hlog, -⟩ := exists_follows_run hh
  refine sinceSnapshot_iff (Q := fun _ h => p = h.origin ∧ s = h.state) ?_ ?_ ?_ hlog hh
  · rintro log ⟨epoch, lastKnown⟩ ⟨locked, watched⟩
    cases p
    cases s
    constructor
    · rintro ⟨hp, hs⟩
      cases hp
      cases hs
      rfl
    · intro heq
      cases heq
      exact ⟨rfl, rfl⟩
  · intro r h lastKnown events _
    split <;> exact (or_iff_right nofun).symm
  · intro r r' h before _ _
    exact (or_iff_right nofun).symm

/-! ## The floor -/

/-- The call folds the event into the baseline. -/
def Folds (log : EventLog) (op : LogOp) (e : Event) : Prop :=
  ∃ before, op = .compact before ∧ e ∈ log.retained ∧ e ∉ (log.compact before).retained

/-- Some compaction of the run has folded the event away, and no snapshot has come since. -/
def FoldedSince (ops : List LogOp) (e : Event) : Prop := SinceSnapshot (fun log op => log.Folds op e) ops

/-- The highest sequence that is gone: that of the last snapshot, or of an event folded away since. -/
structure IsFloor (ops : List LogOp) (floor : Sequence) : Prop where
  snapshot_le : ∀ p s, SnapshotLast ops p s → p.sequence ≤ floor
  folded_le : ∀ e, FoldedSince ops e → e.sequence ≤ floor
  reached : (∃ p s, SnapshotLast ops p s ∧ p.sequence = floor) ∨ ∃ e, FoldedSince ops e ∧ e.sequence = floor

/-- The highest sequence of the snapshot and of the accepted events that the log retains no more. -/
def floor (log : EventLog) (h : History) : Sequence := Timeline.highest h.origin.sequence (log.folded h)

theorem mem_folded_iff {log : EventLog} : e ∈ log.folded h ↔ e ∈ h.accepted ∧ e ∉ log.retained := by
  rw [folded, Ascending.mem_filter, decide_eq_true_iff]

/-- What is accepted and not retained was folded away. -/
theorem foldedSince_iff (hh : History.run (LogOp.updates ops) = some h) :
    FoldedSince ops e ↔ e ∈ (run ops).folded h := by
  obtain ⟨r, hlog, -⟩ := exists_follows_run hh
  rw [hlog, mem_folded_iff, retained]
  refine sinceSnapshot_iff (Q := fun r h => e ∈ h.accepted ∧ e ∉ r.retained) ?_ ?_ ?_ hlog hh
  · intro log p s
    exact iff_of_false (fun he => Ascending.not_mem_empty he.1) fun ⟨_, hop, _⟩ => nomatch hop
  · intro r h lastKnown events hr
    rw [hr.folded_extend_iff]
    exact (or_iff_right fun ⟨_, hop, _⟩ => nomatch hop).symm
  · intro r r' h before hr hr'
    have hfolds : (known r).Folds (.compact before) e ↔ e ∈ r.retained ∧ e ∉ r'.retained := by
      constructor
      · rintro ⟨_, hop, he, hnot⟩
        cases hop
        rw [hr'] at hnot
        exact ⟨he, hnot⟩
      · rintro ⟨he, hnot⟩
        refine ⟨before, rfl, he, ?_⟩
        rwa [hr']
    have hsub : e ∈ r'.retained → e ∈ r.retained := by
      rcases eq_of_compact_eq_known hr' with rfl | rfl
      · exact fun he => (Replica.mem_retained_compactBelow.1 he).1
      · exact id
    have hmem : e ∈ r.retained → e ∈ h.accepted := hr.mem_accepted
    rw [hfolds]
    tauto

theorem isFloor (hh : History.run (LogOp.updates ops) = some h) : IsFloor ops ((run ops).floor h) := by
  obtain ⟨horigin, hle, hreached⟩ := Timeline.highest_spec h.origin.sequence ((run ops).folded h)
  refine ⟨fun p s hs => ?_, fun e he => hle e ((foldedSince_iff hh).1 he), ?_⟩
  · rw [((snapshotLast_iff hh).1 hs).1]
    exact horigin
  · rcases hreached with heq | ⟨e, he, heq⟩
    · exact .inl ⟨h.origin, h.state, (snapshotLast_iff hh).2 ⟨rfl, rfl⟩, heq.symm⟩
    · exact .inr ⟨e, (foldedSince_iff hh).2 he, heq⟩

end EventLog

end LockReplica
