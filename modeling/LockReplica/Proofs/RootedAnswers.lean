import LockReplica.Proofs.ExactAnswers

/-!
# Rooted answers

A rooted answer begins with an event for the state at the position that labels the baseline.

* **Content** (`rooted_answer_rebuilds`): that event comes before all that is retained, and the answer makes the state
  at its end out of nothing.
* **The floor** (`Replica.Follows.lt_baseline_iff`): the baseline is at the floor of what is left, unless the oldest
  retained event skips the sequence after the floor. Then it is higher, just before that event.
* **Need** (`rooted_iff_lost_or_skipped`): so an answer is rooted if events after its start are lost, but also if there
  are none to lose and the next one has skipped a sequence.
-/

namespace LockReplica

open EventLog (AcceptedSince)

/-! ## Content -/

/-- **A rooted answer rebuilds the state**: it begins with the registration of all that is watched, together with all
that is locked, its sequences ascend, the first of them below that of every retained event, and unless it begins beyond
its end, it makes out of nothing the state that the last snapshot and the events accepted since make at its end. -/
theorem rooted_answer_rebuilds (ops : List LogOp) (start : Option Position) (last : Position) (range : EventRange)
    (hanswer : (EventLog.run ops).query start last = .ok range) (hrooted : range.fromSnapshot = true) :
    ∃ h : History, h.ToldBy ops ∧ ∃ n references descriptors rest,
      range.events = .watchCreated n references descriptors :: rest ∧
      (range.events.Pairwise fun d e => d.sequence < e.sequence) ∧
      (∀ e ∈ (EventLog.run ops).retained, n < e.sequence) ∧
      (n ≤ last.sequence → (∅ : LockState).applyAll range.events = h.stateAt last.sequence) := by
  obtain ⟨r, h, hlog, hh, hr, -, rfl⟩ := EventLog.exists_follows_of_query hanswer
  rcases r.range_cases start last.sequence with ⟨p, -, -, heq⟩ | ⟨-, heq⟩
  · rw [heq] at hrooted
    cases hrooted
  · rw [heq, hlog]
    refine ⟨h, History.toldBy_of_run hh, r.baselinePosition.sequence, r.baseline.watched, r.baseline.locked,
      r.eventsUpTo last.sequence, rfl, ?_, fun e he => hr.baseline_lt he, fun hbase => ?_⟩
    · refine List.pairwise_cons.2 ⟨fun e he => ?_, Timeline.pairwise_lt _⟩
      exact hr.baseline_lt (Replica.mem_eventsUpTo.1 he).1
    · have hstate := hr.applyAll_rooted last.sequence
      rwa [Sequence.max_eq_right hbase] at hstate

/-- Event 3 is folded away, and the baseline is told to be that before event 5. -/
theorem sample_rooted_answer_rebuilds :
    ∃ (h : History) (range : EventRange),
      (EventLog.run LogOp.gappedSample).query (some ⟨.ofByte 1, 3⟩) ⟨.ofByte 1, 7⟩ = .ok range ∧
      range.fromSnapshot = true ∧ range.sequences = [4, 5, 7] ∧ h.ToldBy LogOp.gappedSample ∧
      (h.stateAt 7).locked = .ofList [⟨[3]⟩, ⟨[5]⟩, ⟨[7]⟩] ∧
      (∅ : LockState).applyAll range.events = h.stateAt 7 := by
  obtain ⟨range, hanswer, hrooted, hsequences⟩ : ∃ range,
      (EventLog.run LogOp.gappedSample).query (some ⟨.ofByte 1, 3⟩) ⟨.ofByte 1, 7⟩ = .ok range ∧
      range.fromSnapshot = true ∧ range.sequences = [4, 5, 7] := ⟨_, rfl, by decide, by decide⟩
  obtain ⟨h, hh, hlocked⟩ : ∃ h, History.run (LogOp.updates LogOp.gappedSample) = some h ∧
      (h.stateAt 7).locked = .ofList [⟨[3]⟩, ⟨[5]⟩, ⟨[7]⟩] := ⟨_, rfl, by decide⟩
  obtain ⟨h', htold', n, references, descriptors, rest, hevents, -, -, hstate⟩ :=
    rooted_answer_rebuilds LogOp.gappedSample (some ⟨.ofByte 1, 3⟩) ⟨.ofByte 1, 7⟩ range hanswer hrooted
  obtain rfl := htold'.unique (History.toldBy_of_run hh)
  have hn : n = 4 := by
    rw [EventRange.sequences, hevents] at hsequences
    exact (List.cons.inj hsequences).1
  exact ⟨h', range, hanswer, hrooted, hsequences, htold', hlocked, hstate (by rw [hn]; decide)⟩

/-! ## The floor -/

namespace Replica.Follows

variable {r : Replica} {h : History} {n : Sequence}

theorem floor_le_baseline (hr : r.Follows h) : (EventLog.known r).floor h ≤ r.baselinePosition.sequence := by
  rcases (Timeline.highest_spec h.origin.sequence ((EventLog.known r).folded h)).2.2 with heq | ⟨e, he, heq⟩
  · rw [EventLog.floor, heq]
    exact hr.origin_le_baseline
  · obtain ⟨haccepted, hret⟩ := EventLog.mem_folded_iff.1 he
    rw [EventLog.floor, ← heq]
    exact UInt64.not_lt.1 fun hlt => hret (hr.mem_retained_iff.2 ⟨haccepted, hlt⟩)

/-- If nothing is retained, then nothing is above the floor. -/
theorem latest_le_floor (hr : r.Follows h) (hnone : ∀ e, e ∉ r.retained) :
    r.latest.sequence ≤ (EventLog.known r).floor h := by
  have hspec := Timeline.highest_spec h.origin.sequence ((EventLog.known r).folded h)
  rw [hr.latest]
  rcases (Timeline.highest_spec h.origin.sequence h.accepted).2.2 with heq | ⟨e, he, heq⟩
  · rw [History.latest, heq]
    exact hspec.1
  · rw [History.latest, ← heq]
    exact hspec.2.1 e (EventLog.mem_folded_iff.2 ⟨he, hnone e⟩)

/-- The baseline is above the floor as far as the oldest retained event skips sequences. -/
theorem lt_baseline_iff (hr : r.Follows h) : n < r.baselinePosition.sequence ↔
    n < (EventLog.known r).floor h ∨ (∃ e ∈ h.accepted, n < e.sequence) ∧
      ∀ e ∈ h.accepted, e.sequence ≤ (EventLog.known r).floor h ∨ n.next < e.sequence := by
  constructor
  · intro hlt
    rcases hr.baseline_cases with ⟨hnone, hbase⟩ | ⟨d, hd, -, -⟩
    · exact .inl (UInt64.lt_of_lt_of_le hlt (hbase ▸ hr.latest_le_floor hnone))
    · refine .inr ⟨⟨d, hr.mem_accepted hd, UInt64.lt_trans hlt (hr.baseline_lt hd)⟩, fun e he => ?_⟩
      by_cases hret : e ∈ r.retained
      · exact .inr (UInt64.lt_of_le_of_lt (Sequence.next_le_iff.2 (.inl hlt)) (hr.baseline_lt hret))
      · exact .inl ((Timeline.highest_spec _ _).2.1 e (EventLog.mem_folded_iff.2 ⟨he, hret⟩))
  · rintro (hlost | ⟨⟨e, he, hne⟩, hskips⟩)
    · exact UInt64.lt_of_lt_of_le hlost hr.floor_le_baseline
    · refine UInt64.not_le.1 fun hbase => ?_
      -- the event is retained, and the oldest one comes right after the baseline
      have hret := hr.mem_retained_iff.2 ⟨he, UInt64.lt_of_le_of_lt hbase hne⟩
      rcases hr.baseline_cases with ⟨hnone, -⟩ | ⟨d, hd, -, holdest⟩
      · exact hnone e hret
      · rcases hskips d (hr.mem_accepted hd) with hle | hnext
        · exact UInt64.not_lt.2 (UInt64.le_trans hle hr.floor_le_baseline) (hr.baseline_lt hd)
        · have hn : n ≠ Sequence.greatest := Sequence.ne_greatest_of_lt hne
          rw [UInt64.lt_iff_toNat_lt, Sequence.toNat_next hn] at hnext
          have hbase := UInt64.le_iff_toNat_le.1 hbase
          omega

end Replica.Follows

/-! ## Need -/

/-- An event after `n` was accepted, but none above the floor up to the sequence that follows `n`. -/
def EventLog.SkipsPast (ops : List LogOp) (floor n : Sequence) : Prop :=
  (∃ e, AcceptedSince ops e ∧ n < e.sequence) ∧
    ∀ e, AcceptedSince ops e → e.sequence ≤ floor ∨ n.next < e.sequence

/-- **When an answer is rooted**: if it has no start in the epoch of the log, or what comes after the start is in part
below the floor of what is left, and also, though nothing is lost then, if the events that are left skip the sequence
after the start. -/
theorem rooted_iff_lost_or_skipped (ops : List LogOp) (start : Option Position) (last : Position) (range : EventRange)
    (hanswer : (EventLog.run ops).query start last = .ok range) :
    ∃ floor, EventLog.IsFloor ops floor ∧
      (range.fromSnapshot = true ↔ ∀ p ∈ start, p.epoch = last.epoch →
        p.sequence < floor ∨ EventLog.SkipsPast ops floor p.sequence) := by
  obtain ⟨r, h, hlog, hh, hr, hlast, rfl⟩ := EventLog.exists_follows_of_query hanswer
  have hepoch : r.baselinePosition.epoch = last.epoch := r.baselinePosition_epoch.trans hlast.1.symm
  have hfloor := EventLog.isFloor hh
  rw [hlog] at hfloor
  have hbefore : ∀ n, n < r.baselinePosition.sequence ↔
      n < (EventLog.known r).floor h ∨ EventLog.SkipsPast ops ((EventLog.known r).floor h) n := fun n => by
    simp only [hr.lt_baseline_iff, EventLog.SkipsPast, mem_accepted_iff hh]
  refine ⟨_, hfloor, ?_⟩
  simp only [← hbefore]
  rcases r.range_cases start last.sequence with ⟨p, hp, hle, heq⟩ | ⟨hnot, heq⟩
  · rw [heq]
    refine iff_of_false Bool.noConfusion fun hall => ?_
    exact UInt64.not_lt.2 hle.2 (hall p hp (hle.1.symm.trans hepoch))
  · rw [heq]
    refine iff_of_true rfl fun p hp hpe => UInt64.not_le.1 fun hle => ?_
    exact hnot p hp ⟨hepoch.trans hpe.symm, hle⟩

/-- The floor is at event 3, and event 5 comes right after the start. -/
theorem sample_rooted_iff_lost_or_skipped :
    ∃ range floor, (EventLog.run LogOp.gappedSample).query (some ⟨.ofByte 1, 4⟩) ⟨.ofByte 1, 8⟩ = .ok range ∧
      range.fromSnapshot = false ∧ EventLog.IsFloor LogOp.gappedSample floor ∧
      ¬EventLog.SkipsPast LogOp.gappedSample floor 4 ∧ floor ≤ 4 := by
  obtain ⟨range, hanswer, hexact⟩ : ∃ range,
      (EventLog.run LogOp.gappedSample).query (some ⟨.ofByte 1, 4⟩) ⟨.ofByte 1, 8⟩ = .ok range ∧
      range.fromSnapshot = false := ⟨_, rfl, by decide⟩
  obtain ⟨floor, hfloor, hiff⟩ :=
    rooted_iff_lost_or_skipped LogOp.gappedSample (some ⟨.ofByte 1, 4⟩) ⟨.ofByte 1, 8⟩ range hanswer
  have hnot : ¬((4 : Sequence) < floor ∨ EventLog.SkipsPast LogOp.gappedSample floor 4) := fun hneed =>
    Bool.noConfusion (hexact.symm.trans (hiff.2 fun p hp _ => by cases hp; exact hneed))
  obtain ⟨hlost, hskips⟩ := not_or.1 hnot
  exact ⟨range, floor, hanswer, hexact, hfloor, hskips, UInt64.not_lt.1 hlost⟩

/-- Nothing happens up to 8, and then event 9 comes. -/
def LogOp.quietSample : List LogOp :=
  [.update (.snapshot (.ofByte 1) 0 ∅ ∅), .update (.success (.ofByte 1) 8 []),
    .update (.success (.ofByte 1) 9 [.lockByte 9 9])]

/-- From the position of the snapshot nothing is lost, as nothing is compacted at all, and yet the answer is rooted. -/
theorem sample_rooted_without_loss :
    (EventLog.run (LogOp.quietSample.take 1)).latest? = some ⟨.ofByte 1, 0⟩ ∧
    EventLog.IsFloor LogOp.quietSample 0 ∧ (∀ e, ¬EventLog.FoldedSince LogOp.quietSample e) ∧
    ∃ range, (EventLog.run LogOp.quietSample).query (some ⟨.ofByte 1, 0⟩) ⟨.ofByte 1, 9⟩ = .ok range ∧
      range.fromSnapshot = true ∧ range.sequences = [8, 9] := by
  obtain ⟨h, hh, hfloor, hfolded⟩ : ∃ h, History.run (LogOp.updates LogOp.quietSample) = some h ∧
      (EventLog.run LogOp.quietSample).floor h = 0 ∧ (EventLog.run LogOp.quietSample).folded h = ∅ :=
    ⟨_, rfl, by decide, by decide⟩
  refine ⟨by decide, hfloor ▸ EventLog.isFloor hh, fun e he => ?_, _, rfl, by decide, by decide⟩
  rw [EventLog.foldedSince_iff hh, hfolded] at he
  exact Ascending.not_mem_empty he

end LockReplica
