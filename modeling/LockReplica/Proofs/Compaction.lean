import LockReplica.Proofs.Answers

/-!
# Compaction is invisible to readers

Fix two runs of a log that are told the same updates and compact as they like. Both follow the history of the
updates, which no compaction changes, so what they answer is compared with the history, not with each other.

* **Exact answers** (`Replica.Follows.eventsIn_next_eq`): they list the accepted events, for every start at or
  above the baseline. At the greatest sequence, which follows itself, that needs that an event there is never
  folded away (`Replica.HoldsGreatest`): a compaction folds only what is below a sequence.
* **States** (`Replica.Follows.reconstruct_eq`): an answer leads to the state at its end.
-/

namespace LockReplica

/-! ## The greatest sequence -/

/-- No event of the greatest sequence is folded away. -/
def Replica.HoldsGreatest (r : Replica) (h : History) : Prop :=
  ∀ e ∈ h.accepted, e.sequence = Sequence.greatest → e ∈ r.retained

namespace Replica

variable {r : Replica} {h : History} {e : Event}

/-- New events are retained at first, and no event that was retained goes. -/
theorem Follows.mem_retained_append_iff (hr : r.Follows h) {events : List Event} :
    e ∈ (r.append events).retained ↔ e ∈ r.retained ∨ e ∈ (h.accept events).accepted ∧ e ∉ h.accepted := by
  constructor
  · intro he
    refine (Ascending.mem_or_mem_of_mem_insertAll he).imp_right fun hfresh => ?_
    have hlt : h.latest.sequence < e.sequence := hr.latest ▸ (mem_fresh.1 hfresh).2
    exact ⟨(hr.append events).mem_accepted he, fun hold => UInt64.not_lt.2 (History.le_latest_of_mem hold) hlt⟩
  · rintro (hold | ⟨he, hnew⟩)
    · -- nothing that is new takes its place
      refine Ascending.mem_insertAll_of_mem hold fun d hd hde => ?_
      exact absurd (mem_fresh.1 hd).2 (UInt64.not_lt.2 (hde ▸ hr.le_latest hold))
    · obtain ⟨hevent, hlt⟩ := (History.mem_accept he).resolve_left hnew
      have hfresh : e ∈ r.fresh events := mem_fresh.2 ⟨hevent, hr.latest ▸ hlt⟩
      obtain ⟨d, hd, hde⟩ : ∃ d ∈ (r.append events).retained, d.sequence = e.sequence :=
        Ascending.exists_mem_insertAll_iff.2 (.inr ⟨e, hfresh, rfl⟩)
      rwa [← Ascending.eq_of_key_eq ((hr.append events).mem_accepted hd) he hde]

/-- A delivery folds nothing away. -/
theorem Follows.folded_extend_iff (hr : r.Follows h) {lastKnown : Sequence} {events : List Event} :
    e ∈ (if lastKnown ≤ h.latest.sequence then h else h.accept events).accepted ∧
      e ∉ (r.extend lastKnown events).retained ↔ e ∈ h.accepted ∧ e ∉ r.retained := by
  rw [Replica.extend, hr.latest]
  split
  · exact Iff.rfl
  · rw [hr.mem_retained_append_iff]
    constructor
    · rintro ⟨he, hnot⟩
      obtain ⟨hret, hnew⟩ := not_or.1 hnot
      exact ⟨Decidable.byContradiction fun hold => hnew ⟨he, hold⟩, hret⟩
    · rintro ⟨hold, hret⟩
      exact ⟨History.mem_accept_of_mem hold, not_or.2 ⟨hret, fun hnew => hnew.2 hold⟩⟩

namespace HoldsGreatest

theorem extend (hg : r.HoldsGreatest h) (hr : r.Follows h) (lastKnown : Sequence) (events : List Event) :
    (r.extend lastKnown events).HoldsGreatest (if lastKnown ≤ h.latest.sequence then h else h.accept events) := by
  intro e he hgreatest
  refine Decidable.byContradiction fun hret => ?_
  obtain ⟨hold, hnot⟩ := hr.folded_extend_iff.1 ⟨he, hret⟩
  exact hnot (hg e hold hgreatest)

theorem compactBelow (hg : r.HoldsGreatest h) (n : Sequence) : (r.compactBelow n).HoldsGreatest h :=
  fun e he hgreatest => mem_retained_compactBelow.2 ⟨hg e he hgreatest, hgreatest ▸ n.le_greatest⟩

end HoldsGreatest

end Replica

theorem Replica.invariant_holdsGreatest : Replica.Invariant HoldsGreatest where
  ofSnapshot _ _ _ he := absurd he Ascending.not_mem_empty
  extend hr hg := hg.extend hr
  compactBelow _ hg := hg.compactBelow

/-! ## Answers -/

namespace Replica.Follows

variable {r r' : Replica} {h : History} {start : Option Position} {n : Sequence}

/-- An exact answer lists accepted events, whatever its start. -/
theorem eventsIn_next_eq (hr : r.Follows h) (hg : r.HoldsGreatest h) {m : Sequence}
    (hbase : r.baselinePosition.sequence ≤ m) :
    r.eventsIn m.next n = (h.accepted.filter fun e => m.next ≤ e.sequence && e.sequence ≤ n).toList := by
  refine congrArg Ascending.toList (Ascending.ext_mem fun e => ?_)
  simp only [Ascending.mem_filter, Bool.and_eq_true, decide_eq_true_eq]
  refine and_congr_left fun hwithin => ⟨hr.mem_accepted, fun he => ?_⟩
  rcases Sequence.next_le_iff.1 hwithin.1 with hlow | ⟨-, hgreatest⟩
  · exact hr.mem_retained_iff.2 ⟨he, UInt64.lt_of_le_of_lt hbase hlow⟩
  · exact hg e he hgreatest

/-- Two exact answers to one query are equal. -/
theorem range_eq_of_exact (hr : r.Follows h) (hg : r.HoldsGreatest h) (hr' : r'.Follows h) (hg' : r'.HoldsGreatest h)
    (hexact : (r.range start n).fromSnapshot = false) (hexact' : (r'.range start n).fromSnapshot = false) :
    r.range start n = r'.range start n := by
  rcases r.range_cases start n with ⟨p, hp, hbase, heq⟩ | ⟨-, heq⟩
  · rcases r'.range_cases start n with ⟨p', hp', hbase', heq'⟩ | ⟨-, heq'⟩
    · cases Option.mem_unique hp hp'
      rw [heq, heq', hr.eventsIn_next_eq hg hbase.2, hr'.eventsIn_next_eq hg' hbase'.2]
    · rw [heq'] at hexact'
      cases hexact'
  · rw [heq] at hexact
    cases hexact

/-- An answer leads to the state at its end, unless it starts or is rooted beyond. -/
theorem reconstruct_eq (hr : r.Follows h) (hstart : ∀ p ∈ start, p.epoch = r.epoch → p.sequence ≤ n)
    (hroot : ∀ e ∈ (r.range start n).root?, e.sequence ≤ n) :
    h.reconstruct start (r.range start n) = h.stateAt n := by
  rcases r.range_cases start n with ⟨p, hp, hbase, heq⟩ | ⟨-, heq⟩
  · cases hp
    rw [heq]
    exact hr.applyAll_exact hbase.2 (hstart p rfl (hbase.1.symm.trans r.baselinePosition_epoch))
  · rw [heq] at hroot ⊢
    exact hr.applyAll_rooted_of_le (hroot _ rfl)

end Replica.Follows

/-- **Compaction is invisible to readers**: two logs that are told the same updates are at the same position with
the same state, refuse the same queries for the same reason, give the same exact answers, and what they answer
to a query leads to the same state, that of the history at the end, unless the query starts beyond its end or an
answer is rooted there. -/
theorem compaction_invisible (ops ops' : List LogOp) (hupdates : LogOp.updates ops = LogOp.updates ops') :
    (EventLog.run ops).latest? = (EventLog.run ops').latest? ∧
    (EventLog.run ops).current = (EventLog.run ops').current ∧
    ∀ (start : Option Position) (last : Position),
      (∀ e, (EventLog.run ops).query start last = .error e ↔ (EventLog.run ops').query start last = .error e) ∧
      ∀ range range', (EventLog.run ops).query start last = .ok range →
        (EventLog.run ops').query start last = .ok range' →
        (range.fromSnapshot = false → range'.fromSnapshot = false → range = range') ∧
        ((∀ p ∈ start, p.epoch = last.epoch → p.sequence ≤ last.sequence) →
          (∀ e ∈ range.root?, e.sequence ≤ last.sequence) → (∀ e ∈ range'.root?, e.sequence ≤ last.sequence) →
          ∃ h, History.run (LogOp.updates ops) = some h ∧
            h.reconstruct start range = h.stateAt last.sequence ∧
            h.reconstruct start range' = h.stateAt last.sequence) := by
  have hfollows := EventLog.follows_run ops
  have hfollows' := EventLog.follows_run ops'
  have hgreatest := Replica.invariant_holdsGreatest.run ops
  have hgreatest' := Replica.invariant_holdsGreatest.run ops'
  rw [← hupdates] at hfollows' hgreatest'
  generalize EventLog.run ops = log at *
  generalize EventLog.run ops' = log' at *
  generalize History.run (LogOp.updates ops) = told at *
  have hlatest : log.latest? = log'.latest? := hfollows.latest?_eq.trans hfollows'.latest?_eq.symm
  refine ⟨hlatest, hfollows.current_eq.trans hfollows'.current_eq.symm, fun start last => ⟨fun e => ?_, ?_⟩⟩
  · exact ⟨EventLog.query_eq_error_of_latest?_eq hlatest, EventLog.query_eq_error_of_latest?_eq hlatest.symm⟩
  · intro range range' hok hok'
    obtain ⟨r, rfl, hlast, rfl⟩ := EventLog.query_eq_ok_iff.1 hok
    obtain ⟨r', rfl, hlast', rfl⟩ := EventLog.query_eq_ok_iff.1 hok'
    cases hfollows with
    | @known _ h hr =>
      cases hfollows' with
      | @known _ _ hr' =>
        refine ⟨hr.range_eq_of_exact (hgreatest r h rfl rfl) hr' (hgreatest' r' h rfl rfl), ?_⟩
        intro hstart hroot hroot'
        refine ⟨h, rfl, ?_, ?_⟩
        · exact hr.reconstruct_eq (fun p hp hepoch => hstart p hp (hepoch.trans hlast.1.symm)) hroot
        · exact hr'.reconstruct_eq (fun p hp hepoch => hstart p hp (hepoch.trans hlast'.1.symm)) hroot'

/-- The same updates with and without compactions. -/
def LogOp.sampleCompacting (compacting : Bool) : List LogOp :=
  let compact (n : Sequence) : List LogOp := if compacting then [.compact ⟨.ofByte 1, n⟩] else []
  [.update (.snapshot (.ofByte 1) 0 ∅ ∅), .update (.success (.ofByte 1) 2 [.lockByte 2 2, .lockByte 1 1])] ++
    compact 2 ++ [.update (.success (.ofByte 1) 4 [.lockByte 3 3, .unlock 4 (.ofList [⟨[1]⟩])])] ++ compact 4

/-- From the first position one log answers exactly and the other from a snapshot, to the same effect. -/
theorem sample_compaction_invisible :
    ∃ range range' : EventRange, ∃ h : History,
      (EventLog.run (LogOp.sampleCompacting false)).query (some ⟨.ofByte 1, 1⟩) ⟨.ofByte 1, 4⟩ = .ok range ∧
      (EventLog.run (LogOp.sampleCompacting true)).query (some ⟨.ofByte 1, 1⟩) ⟨.ofByte 1, 4⟩ = .ok range' ∧
      range.fromSnapshot = false ∧ range'.fromSnapshot = true ∧
      h.reconstruct (some ⟨.ofByte 1, 1⟩) range = h.stateAt 4 ∧
      h.reconstruct (some ⟨.ofByte 1, 1⟩) range' = h.stateAt 4 := by
  obtain ⟨-, -, hqueries⟩ :=
    compaction_invisible (LogOp.sampleCompacting false) (LogOp.sampleCompacting true) (by decide)
  obtain ⟨range, hok⟩ : ∃ range, (EventLog.run (LogOp.sampleCompacting false)).query (some ⟨.ofByte 1, 1⟩)
    ⟨.ofByte 1, 4⟩ = .ok range := ⟨_, rfl⟩
  obtain ⟨range', hok'⟩ : ∃ range', (EventLog.run (LogOp.sampleCompacting true)).query (some ⟨.ofByte 1, 1⟩)
    ⟨.ofByte 1, 4⟩ = .ok range' := ⟨_, rfl⟩
  have hexact : range.fromSnapshot = false := by cases hok; decide
  have hrooted : range'.fromSnapshot = true ∧ ∀ e ∈ range'.root?, e.sequence ≤ 4 := by cases hok'; decide
  obtain ⟨h, -, hstate, hstate'⟩ := ((hqueries (some ⟨.ofByte 1, 1⟩) ⟨.ofByte 1, 4⟩).2 range range' hok hok').2
    (by decide) (by simp [EventRange.root?, hexact]) hrooted.2
  exact ⟨range, range', h, hok, hok', hexact, hrooted.1, hstate, hstate'⟩

end LockReplica
