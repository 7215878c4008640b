import LockReplica.Proofs.Conservation

/-!
# What answers tell of the history

Fix a replica that follows a history. Its baseline is the state at the position that labels it (`baseline_eq`).
So an exact answer leads from the state at its start to the state at its end (`applyAll_exact`), and a rooted
one makes the state at its end or, if the baseline has gone beyond the end, at the baseline
(`applyAll_rooted`). Only in the last case does an answer go beyond its end (`answer_within_end_iff`).
-/

namespace LockReplica

/-! ## States -/

namespace Replica

variable {r : Replica} {h : History} {d e : Event}

namespace Follows

/-- The baseline is the state at its position. -/
theorem baseline_eq (hr : r.Follows h) : r.baseline = h.stateAt r.baselinePosition.sequence := by
  obtain ⟨hsplit, hbase⟩ := hr.split_filter
  rw [hbase, History.stateAt]
  refine congrArg _ (Timeline.eq_filter_of_append hsplit (fun e he => ?_) fun e he => hr.baseline_lt he)
  obtain ⟨he, her⟩ := Ascending.mem_filter.1 he
  exact UInt64.not_lt.1 fun hlt => of_decide_eq_true her (hr.mem_retained_iff.2 ⟨he, hlt⟩)

theorem eventsUpTo_eq (hr : r.Follows h) (n : Sequence) : r.eventsUpTo n =
    (h.accepted.filter fun e => r.baselinePosition.sequence < e.sequence && e.sequence ≤ n).toList := by
  refine congrArg Ascending.toList (Ascending.ext_mem fun e => ?_)
  simp [hr.mem_retained_iff, and_assoc]

/-- An exact answer lists the accepted events after its start, up to its end. -/
theorem eventsIn_eq (hr : r.Follows h) {m n : Sequence} (hm : m ≠ Sequence.greatest)
    (hbase : r.baselinePosition.sequence ≤ m) :
    r.eventsIn m.next n = (h.accepted.filter fun e => m < e.sequence && e.sequence ≤ n).toList := by
  rw [r.eventsIn_next hm]
  refine congrArg Ascending.toList (Ascending.ext_mem fun e => ?_)
  simp only [Ascending.mem_filter, hr.mem_retained_iff, Bool.and_eq_true, decide_eq_true_eq]
  constructor
  · rintro ⟨⟨he, -⟩, hwithin⟩
    exact ⟨he, hwithin⟩
  · rintro ⟨he, hwithin⟩
    exact ⟨⟨he, UInt64.lt_of_le_of_lt hbase hwithin.1⟩, hwithin⟩

/-- An exact answer leads from the state at its start to the state at its end. -/
theorem applyAll_exact (hr : r.Follows h) {m n : Sequence} (hbase : r.baselinePosition.sequence ≤ m) (hmn : m ≤ n) :
    (h.stateAt m).applyAll (r.eventsIn m.next n) = h.stateAt n := by
  by_cases hm : m = Sequence.greatest
  · -- the start does not move on, so that the answer may repeat the event of the greatest sequence
    have hn : n = m := UInt64.le_antisymm (hm ▸ Sequence.le_greatest n) hmn
    have hall : ∀ e ∈ r.eventsIn m.next n, e ∈ h.accepted ∧ e.sequence = m := fun e he => by
      obtain ⟨he, hlow, hhigh⟩ := Replica.mem_eventsIn.1 he
      exact ⟨hr.mem_accepted he, UInt64.le_antisymm (hn ▸ hhigh) (by simpa [hm, Sequence.next] using hlow)⟩
    have hpair : (r.eventsIn m.next n).Pairwise fun d e => d.sequence < e.sequence := Timeline.pairwise_lt _
    rcases hl : r.eventsIn m.next n with _ | ⟨e, _ | ⟨d, l⟩⟩
    · rw [hn]
      rfl
    · obtain ⟨he, hem⟩ := hall e (by rw [hl]; exact List.mem_cons_self)
      rw [hn]
      exact History.apply_stateAt he (UInt64.le_of_eq hem) fun d _ => by
        rw [hem, hm]; exact Sequence.le_greatest _
    · rw [hl] at hpair
      have hlt := (List.pairwise_cons.1 hpair).1 d List.mem_cons_self
      rw [(hall e (by simp [hl])).2, (hall d (by simp [hl])).2] at hlt
      exact absurd hlt (UInt64.lt_irrefl m)
  · rw [hr.eventsIn_eq hm hbase]
    exact h.applyAll_stateAt hmn

/-- A rooted answer makes the later one of the states at its end and at the baseline. -/
theorem applyAll_rooted (hr : r.Follows h) (n : Sequence) :
    (∅ : LockState).applyAll (Replica.range.rooted r n).events =
      h.stateAt (max r.baselinePosition.sequence n) := by
  show ((∅ : LockState).apply (r.baseline.asEvent _)).applyAll (r.eventsUpTo n) = _
  rw [LockState.apply_empty_asEvent, hr.eventsUpTo_eq, hr.baseline_eq]
  by_cases hle : r.baselinePosition.sequence ≤ n
  · rw [h.applyAll_stateAt hle, Sequence.max_eq_right hle]
  · have hnil : (h.accepted.filter fun e => r.baselinePosition.sequence < e.sequence && e.sequence ≤ n) = ∅ :=
      Ascending.ext_mem fun e => by simp; grind
    rw [hnil, Ascending.toList_empty, LockState.applyAll_nil, Sequence.max_eq_left]
    exact UInt64.le_of_lt (UInt64.not_le.1 hle)

theorem applyAll_rooted_of_le (hr : r.Follows h) {n : Sequence} (hbase : r.baselinePosition.sequence ≤ n) :
    (∅ : LockState).applyAll (Replica.range.rooted r n).events = h.stateAt n := by
  rw [hr.applyAll_rooted, Sequence.max_eq_right hbase]

/-- An answer takes a reader that holds the state at its start to the state at its end. -/
theorem applyAll_range (hr : r.Follows h) {start : Option Position} {n : Sequence} {known : LockState}
    (hbase : r.baselinePosition.sequence ≤ n)
    (hknown : ∀ p ∈ start, r.baselinePosition ≤ p → p.sequence ≤ n ∧ known = h.stateAt p.sequence) :
    (if (r.range start n).fromSnapshot then ∅ else known).applyAll (r.range start n).events = h.stateAt n := by
  rcases r.range_cases start n with ⟨p, hp, hle, heq⟩ | ⟨-, heq⟩
  · obtain ⟨hpn, hstate⟩ := hknown p hp hle
    rw [heq, hstate]
    exact hr.applyAll_exact hle.2 hpn
  · rw [heq]
    exact hr.applyAll_rooted_of_le hbase

/-! ## Bounds -/

/-- An exact answer lists accepted events, none of them after its end. -/
theorem le_of_mem_exact (hr : r.Follows h) {first n : Sequence} (he : e ∈ r.eventsIn first n) :
    e ∈ h.accepted ∧ e.sequence ≤ n := by
  obtain ⟨hret, -, hle⟩ := Replica.mem_eventsIn.1 he
  exact ⟨hr.mem_accepted hret, hle⟩

end Follows

/-- Only the leading event of a rooted answer may be after its end. -/
theorem forall_mem_rooted_le_iff {n : Sequence} :
    (∀ e ∈ (range.rooted r n).events, e.sequence ≤ n) ↔ r.baselinePosition.sequence ≤ n := by
  have hhead : (r.baseline.asEvent r.baselinePosition.sequence).sequence = r.baselinePosition.sequence := rfl
  refine ⟨fun hall => hhead ▸ hall _ List.mem_cons_self, ?_⟩
  intro hbase e he
  rcases List.mem_cons.1 he with rfl | he
  · exact hbase
  · exact (mem_eventsUpTo.1 he).2

end Replica

/-- What is answered after a run is answered by a replica that follows the history of its updates. -/
theorem EventLog.exists_follows_of_query {ops : List LogOp} {start : Option Position} {last : Position}
    {range : EventRange} (hanswer : (run ops).query start last = .ok range) :
    ∃ r h, run ops = .known r ∧ History.run (LogOp.updates ops) = some h ∧ r.Follows h ∧ last ≤ r.latest ∧
      r.range start last.sequence = range := by
  have hfollows := follows_run ops
  obtain ⟨r, hlog, hlast, hrange⟩ := query_eq_ok_iff.1 hanswer
  rw [hlog] at hfollows
  generalize History.run (LogOp.updates ops) = told at hfollows ⊢
  cases hfollows with
  | @known _ h hr => exact ⟨r, h, hlog, rfl, hr, hlast, hrange⟩

/-- **Which answers stay within their end**: all exact ones, and a rooted one as long as the baseline has not
gone beyond the end. The baseline is where the log has cut the accepted events, and a rooted answer tells the
state there if that is after its end. -/
theorem answer_within_end_iff (ops : List LogOp) (start : Option Position) (last : Position) (range : EventRange)
    (hanswer : (EventLog.run ops).query start last = .ok range) :
    ∃ h base, History.run (LogOp.updates ops) = some h ∧ (EventLog.run ops).baselinePosition? = some base ∧
      (∀ e, e ∈ (EventLog.run ops).retained ↔ e ∈ h.accepted ∧ base.sequence < e.sequence) ∧
      (range.fromSnapshot = false ↔ ∃ p ∈ start, base ≤ p) ∧
      ((∀ e ∈ range.events, e.sequence ≤ last.sequence) ↔
        range.fromSnapshot = false ∨ base.sequence ≤ last.sequence) ∧
      (range.fromSnapshot = false → ∀ e ∈ range.events, e ∈ h.accepted) ∧
      (range.fromSnapshot = true →
        (∅ : LockState).applyAll range.events = h.stateAt (max base.sequence last.sequence)) := by
  have hfollows := EventLog.follows_run ops
  generalize EventLog.run ops = log at *
  generalize History.run (LogOp.updates ops) = told at hfollows
  obtain ⟨r, rfl, -, rfl⟩ := EventLog.query_eq_ok_iff.1 hanswer
  cases hfollows with | @known _ h hr => ?_
  refine ⟨h, r.baselinePosition, rfl, rfl, fun e => hr.mem_retained_iff, ?_⟩
  rcases r.range_cases start last.sequence with ⟨p, hp, hbase, heq⟩ | ⟨hbase, heq⟩
  · rw [heq]
    have hexact : ∀ e ∈ r.eventsIn p.sequence.next last.sequence, e ∈ h.accepted ∧ e.sequence ≤ last.sequence :=
      fun e he => hr.le_of_mem_exact he
    refine ⟨iff_of_true rfl ⟨p, hp, hbase⟩, iff_of_true (fun e he => (hexact e he).2) (.inl rfl),
      fun _ e he => (hexact e he).1, fun hsnap => Bool.noConfusion hsnap⟩
  · rw [heq]
    refine ⟨iff_of_false Bool.noConfusion fun ⟨p, hp, hle⟩ => hbase p hp hle, ?_,
      fun hsnap => Bool.noConfusion hsnap, fun _ => hr.applyAll_rooted last.sequence⟩
    rw [Replica.forall_mem_rooted_le_iff]
    exact (or_iff_right Bool.noConfusion).symm

/-- The first position of this log is observed before two more events come and all are compacted. -/
def LogOp.overtakenSample : List LogOp :=
  [.update (.snapshot (.ofByte 1) 0 ∅ ∅), .update (.success (.ofByte 1) 1 [.lockByte 1 1]),
    .update (.success (.ofByte 1) 3 [.lockByte 2 2, .lockByte 3 3]), .compact ⟨.ofByte 1, 3⟩]

theorem sample_answer_within_end_iff :
    ∃ range base, (EventLog.run LogOp.overtakenSample).query none ⟨.ofByte 1, 2⟩ = .ok range ∧
      (EventLog.run LogOp.overtakenSample).baselinePosition? = some base ∧ base.sequence ≤ 2 ∧
      ∀ e ∈ range.events, e.sequence ≤ 2 := by
  obtain ⟨range, hanswer⟩ : ∃ range, (EventLog.run LogOp.overtakenSample).query none ⟨.ofByte 1, 2⟩ = .ok range :=
    ⟨_, rfl⟩
  obtain ⟨h, base, -, hbase, -, -, hiff, -⟩ :=
    answer_within_end_iff LogOp.overtakenSample none ⟨.ofByte 1, 2⟩ range hanswer
  have hat : (EventLog.run LogOp.overtakenSample).baselinePosition? = some ⟨.ofByte 1, 2⟩ := by decide
  have hle : base.sequence ≤ 2 := by
    cases hat.symm.trans hbase
    decide
  exact ⟨range, base, hanswer, hbase, hle, hiff.2 (.inr hle)⟩

/-- The answer up to the first position that was observed shows the second event. -/
theorem sample_answer_beyond_end :
    (EventLog.run (LogOp.overtakenSample.take 2)).latest? = some ⟨.ofByte 1, 1⟩ ∧
    ∃ range, (EventLog.run LogOp.overtakenSample).query none ⟨.ofByte 1, 1⟩ = .ok range ∧
      (∃ e ∈ range.events, 1 < e.sequence) ∧ Descriptor.mk [2] ∈ range.touched :=
  ⟨by decide, _, rfl, ⟨_, List.mem_cons_self, by decide⟩, by decide⟩

end LockReplica
