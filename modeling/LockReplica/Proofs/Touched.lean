import LockReplica.Proofs.RootedAnswers

/-!
# What an answer touches

A reader keeps what it has cached of a descriptor until some answer touches it.

* **Frame** (`EventRange.mem_locked_iff_of_not_touched`): to fold an answer changes nothing that it does not touch.
* **Touch** (`untouched_unchanged`): so an exact answer touches all that is locked at one of its ends and not at the
  other, and a rooted one all that is locked at its end.
-/

namespace LockReplica

/-- An answer leaves alone what it does not touch. -/
theorem EventRange.mem_locked_iff_of_not_touched {range : EventRange} {s : LockState} {d : Descriptor}
    (hd : d ∉ range.touched) : d ∈ (s.applyAll range.events).locked ↔ d ∈ s.locked :=
  LockState.mem_locked_applyAll_of_not_mem fun e he hde => hd (EventRange.mem_touched.2 ⟨e, he, hde⟩)

/-- **What an answer does not touch is unchanged**: a descriptor that is locked at exactly one of the start and the end
of an exact answer is touched, and so is one that is locked at the end of a rooted answer that does not begin beyond
it. The state at a sequence is what the last snapshot and the events accepted since, up to there, make. -/
theorem untouched_unchanged (ops : List LogOp) (start : Option Position) (last : Position) (range : EventRange)
    (hanswer : (EventLog.run ops).query start last = .ok range) :
    ∃ h : History, h.ToldBy ops ∧
      (range.fromSnapshot = false → ∃ p ∈ start, p.epoch = h.epoch ∧ (p.sequence ≤ last.sequence →
        ∀ d, ¬(d ∈ (h.stateAt p.sequence).locked ↔ d ∈ (h.stateAt last.sequence).locked) → d ∈ range.touched)) ∧
      (range.fromSnapshot = true → ∃ root ∈ range.root?, (root.sequence ≤ last.sequence →
        ∀ d ∈ (h.stateAt last.sequence).locked, d ∈ range.touched)) := by
  obtain ⟨r, h, hlog, hh, hr, hlast, rfl⟩ := EventLog.exists_follows_of_query hanswer
  refine ⟨h, History.toldBy_of_run hh, ?_⟩
  rcases r.range_cases start last.sequence with ⟨p, hp, hle, heq⟩ | ⟨-, heq⟩
  · rw [heq]
    have hepoch : p.epoch = h.epoch := hle.1.symm.trans (r.baselinePosition_epoch.trans hr.epoch)
    refine ⟨fun _ => ⟨p, hp, hepoch, fun hend d hd => ?_⟩, fun hrooted => Bool.noConfusion hrooted⟩
    refine Decidable.byContradiction fun htouched => hd ?_
    rw [← hr.applyAll_exact hle.2 hend]
    exact (EventRange.mem_locked_iff_of_not_touched htouched).symm
  · rw [heq]
    refine ⟨fun hexact => Bool.noConfusion hexact, fun _ => ⟨_, rfl, fun hroot d hd => ?_⟩⟩
    have hbase : r.baselinePosition.sequence ≤ last.sequence := hroot
    have hstate := hr.applyAll_rooted last.sequence
    rw [Sequence.max_eq_right hbase] at hstate
    rw [← hstate] at hd
    refine Decidable.byContradiction fun htouched => ?_
    exact Ascending.not_mem_empty ((EventRange.mem_locked_iff_of_not_touched htouched).1 hd)

/-- Descriptor 1 is released by the last event. -/
theorem sample_untouched_unchanged :
    ∃ (h : History) (range : EventRange),
      (EventLog.run (LogOp.sampleCompacting true)).query (some ⟨.ofByte 1, 3⟩) ⟨.ofByte 1, 4⟩ = .ok range ∧
      range.fromSnapshot = false ∧ h.ToldBy (LogOp.sampleCompacting true) ∧
      Descriptor.mk [1] ∈ (h.stateAt 3).locked ∧ Descriptor.mk [1] ∉ (h.stateAt 4).locked ∧
      Descriptor.mk [1] ∈ range.touched := by
  obtain ⟨range, hanswer, hexact⟩ : ∃ range, (EventLog.run (LogOp.sampleCompacting true)).query
      (some ⟨.ofByte 1, 3⟩) ⟨.ofByte 1, 4⟩ = .ok range ∧ range.fromSnapshot = false := ⟨_, rfl, by decide⟩
  obtain ⟨h, hh, hlocked, hreleased⟩ : ∃ h, History.run (LogOp.updates (LogOp.sampleCompacting true)) = some h ∧
      Descriptor.mk [1] ∈ (h.stateAt 3).locked ∧ Descriptor.mk [1] ∉ (h.stateAt 4).locked :=
    ⟨_, rfl, by decide, by decide⟩
  obtain ⟨h', htold', hdelta, -⟩ :=
    untouched_unchanged (LogOp.sampleCompacting true) (some ⟨.ofByte 1, 3⟩) ⟨.ofByte 1, 4⟩ range hanswer
  obtain rfl := htold'.unique (History.toldBy_of_run hh)
  obtain ⟨p, hp, -, htouched⟩ := hdelta hexact
  cases hp
  exact ⟨h', range, hanswer, hexact, htold', hlocked, hreleased,
    htouched (by decide) _ fun hiff => hreleased (hiff.1 hlocked)⟩

end LockReplica
