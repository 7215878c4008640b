import LockReplica.Proofs.ExactAnswers

/-!
# Consecutive answers join

Fix a log and a point that the baseline has not gone beyond. Events are cut there into those up to the point and those
from the next sequence on, wherever the point falls: on an event, in a gap or above everything retained.

* **Cuts** (`Replica.eventsUpTo_append`, `Replica.eventsIn_append`): the two parts of a listing make the whole again. The
  greatest sequence follows itself, so that a cut there would list its event twice.
* **Answers** (`Replica.range_append`): whether an answer is exact depends on its start alone, so the answer up to the
  point is of the kind of the whole one, and the answer from the point on is exact.
-/

namespace LockReplica

namespace Replica

variable {first m n : Sequence}

/-! ## Cuts -/

theorem eventsUpTo_append (r : Replica) (hm : m ≠ Sequence.greatest) (hmn : m ≤ n) :
    r.eventsUpTo m ++ r.eventsIn m.next n = r.eventsUpTo n := by
  rw [r.eventsIn_next hm]
  exact Timeline.upTo_append_between r.retained hmn

/-- What is retained from a sequence on is what a compaction there leaves. -/
theorem eventsUpTo_compactBelow (r : Replica) (first n : Sequence) :
    (r.compactBelow first).eventsUpTo n = r.eventsIn first n := by
  refine congrArg Ascending.toList (Ascending.ext_mem fun e => ?_)
  simp [and_assoc]

theorem eventsIn_append (r : Replica) (hm : m ≠ Sequence.greatest) (hfirst : first ≤ m.next) (hmn : m ≤ n) :
    r.eventsIn first m ++ r.eventsIn m.next n = r.eventsIn first n := by
  have hafter : (r.compactBelow first).eventsIn m.next n = r.eventsIn m.next n := by
    refine congrArg Ascending.toList (Ascending.ext_mem fun e => ?_)
    simp only [Ascending.mem_filter, mem_retained_compactBelow, Bool.and_eq_true, decide_eq_true_eq]
    constructor
    · rintro ⟨⟨he, -⟩, hwithin⟩
      exact ⟨he, hwithin⟩
    · rintro ⟨he, hwithin⟩
      exact ⟨⟨he, UInt64.le_trans hfirst hwithin.1⟩, hwithin⟩
  have hcut := (r.compactBelow first).eventsUpTo_append hm hmn
  rwa [hafter, eventsUpTo_compactBelow, eventsUpTo_compactBelow] at hcut

/-! ## Answers -/

/-- A point that the baseline has not gone beyond cuts every answer, unless that is exact and starts after the point. -/
theorem range_append (r : Replica) {start : Option Position} {q : Position} (hq : q.sequence ≠ Sequence.greatest)
    (hqn : q.sequence ≤ n) (hbase : r.baselinePosition ≤ q) (hstart : ∀ p ∈ start, r.baselinePosition ≤ p → p ≤ q) :
    (r.range start q.sequence).fromSnapshot = (r.range start n).fromSnapshot ∧
      (r.range (some q) n).fromSnapshot = false ∧
      (r.range start q.sequence).events ++ (r.range (some q) n).events = (r.range start n).events := by
  have hsecond : r.range (some q) n = .delta (r.eventsIn q.sequence.next n) := if_pos hbase
  rw [hsecond]
  rcases r.range_kinds start with ⟨p, hp, hle, heq⟩ | ⟨-, heq⟩
  · have hpq : p.sequence.next ≤ q.sequence.next :=
      Sequence.next_le_iff.2 (.inl (UInt64.lt_of_le_of_lt (hstart p hp hle).2 (Sequence.lt_next hq)))
    rw [heq, heq]
    exact ⟨rfl, rfl, r.eventsIn_append hq hpq hqn⟩
  · rw [heq, heq]
    exact ⟨rfl, rfl, congrArg (List.cons _) (r.eventsUpTo_append hq hqn)⟩

end Replica

namespace EventLog

/-- An answer is that of two queries, of which one ends at the point and the other starts there. The first is of the
kind of the whole, and the second is exact. -/
def JoinsAt (log : EventLog) (start : Option Position) (q last : Position) (range : EventRange) : Prop :=
  ∃ first second, log.query start q = .ok first ∧ log.query (some q) last = .ok second ∧
    first.fromSnapshot = range.fromSnapshot ∧ second.fromSnapshot = false ∧
    first.events ++ second.events = range.events

theorem joinsAt_known {r : Replica} {start : Option Position} {q last : Position}
    (hq : q.sequence < Sequence.greatest) (hqlast : q ≤ last) (hlast : last ≤ r.latest)
    (hbase : r.baselinePosition ≤ q) (hstart : ∀ p ∈ start, r.baselinePosition ≤ p → p ≤ q) :
    (known r).JoinsAt start q last (r.range start last.sequence) :=
  ⟨_, _, query_eq_ok_iff.2 ⟨r, rfl, Position.le_trans hqlast hlast, rfl⟩, query_eq_ok_iff.2 ⟨r, rfl, hlast, rfl⟩,
    r.range_append (Sequence.ne_greatest_of_lt hq) hqlast.2 hbase hstart⟩

end EventLog

/-- **Consecutive answers join** at every point below the greatest sequence, without loss or overlap: an exact answer at
every point from its start on, and a rooted one, whatever its start, at every point from its first event on. -/
theorem answers_join (log : EventLog) (q last : Position) (hq : q.sequence < Sequence.greatest) (hqlast : q ≤ last) :
    (∀ p ≤ q, ∀ range, log.query (some p) last = .ok range → range.fromSnapshot = false →
      log.JoinsAt (some p) q last range) ∧
    ∀ start range, log.query start last = .ok range → range.fromSnapshot = true →
      (∀ root ∈ range.root?, root.sequence ≤ q.sequence) → log.JoinsAt start q last range := by
  refine ⟨fun p hpq range hanswer hexact => ?_, fun start range hanswer hrooted hroot => ?_⟩
  · obtain ⟨r, rfl, hlast, rfl⟩ := EventLog.query_eq_ok_iff.1 hanswer
    rcases r.range_cases (some p) last.sequence with ⟨p', hp', hbase, -⟩ | ⟨-, heq⟩
    · cases hp'
      refine EventLog.joinsAt_known hq hqlast hlast (Position.le_trans hbase hpq) fun p' hp' _ => ?_
      cases hp'
      exact hpq
    · rw [heq] at hexact
      cases hexact
  · obtain ⟨r, rfl, hlast, rfl⟩ := EventLog.query_eq_ok_iff.1 hanswer
    rcases r.range_cases start last.sequence with ⟨p, -, -, heq⟩ | ⟨hnot, heq⟩
    · rw [heq] at hrooted
      cases hrooted
    · have hbase : r.baselinePosition ≤ q := by
        rw [heq] at hroot
        exact ⟨r.baselinePosition_epoch.trans (Position.le_trans hqlast hlast).1.symm, hroot _ rfl⟩
      exact EventLog.joinsAt_known hq hqlast hlast hbase fun p hp hle => absurd hle (hnot p hp)

/-- Event 6 never comes, and the log is cut there. From 4 on it answers exactly, and from 3 on with the state at 4. -/
theorem sample_answers_join :
    (∃ range, (EventLog.run LogOp.gappedSample).query (some ⟨.ofByte 1, 4⟩) ⟨.ofByte 1, 8⟩ = .ok range ∧
      range.fromSnapshot = false ∧ range.sequences = [5, 7, 8] ∧
      (EventLog.run LogOp.gappedSample).JoinsAt (some ⟨.ofByte 1, 4⟩) ⟨.ofByte 1, 6⟩ ⟨.ofByte 1, 8⟩ range) ∧
    ∃ range, (EventLog.run LogOp.gappedSample).query (some ⟨.ofByte 1, 3⟩) ⟨.ofByte 1, 8⟩ = .ok range ∧
      range.fromSnapshot = true ∧ range.sequences = [4, 5, 7, 8] ∧
      (EventLog.run LogOp.gappedSample).JoinsAt (some ⟨.ofByte 1, 3⟩) ⟨.ofByte 1, 6⟩ ⟨.ofByte 1, 8⟩ range := by
  obtain ⟨hexact, hrooted⟩ :=
    answers_join (EventLog.run LogOp.gappedSample) ⟨.ofByte 1, 6⟩ ⟨.ofByte 1, 8⟩ (by decide) (by decide)
  refine ⟨⟨_, rfl, by decide, by decide, ?_⟩, ⟨_, rfl, by decide, by decide, ?_⟩⟩
  · exact hexact ⟨.ofByte 1, 4⟩ (by decide) _ rfl (by decide)
  · exact hrooted (some ⟨.ofByte 1, 3⟩) _ rfl (by decide) (by decide)

end LockReplica
