import LockReplica.EventLog.History
import LockReplica.EventLog.Run
import Mathlib.Data.List.Induction

/-!
# A log conserves what it was told

Fix a run of a log; its updates tell a history (`History.run`), and its compactions do not matter for that.

* **The relation** (`Replica.Follows`): the position of the replica is that of the history, and the accepted
  events are those folded into the baseline, followed by those retained. A snapshot, new events and a
  compaction keep it (`follows_ofSnapshot`, `Follows.append`, `Follows.compactBelow`).
* **The cut** (`mem_retained_iff`): the position that labels the baseline parts the accepted events into the
  folded and the retained ones.
* **Runs** (`follows_run`): so a log follows the history of its updates, by induction over the calls. What snapshots
  establish and deliveries and compactions keep holds after every such run (`run_induction`).
* **Conservation** (`run_conserves`): no accepted event is lost, kept twice, brought back or folded out of
  order.
-/

namespace LockReplica

/-- The replica holds the history: a first part of the accepted events is folded into the baseline, and the
rest is retained. -/
structure Replica.Follows (r : Replica) (h : History) : Prop where
  latest : r.latest = h.latest
  above : ∀ e ∈ h.accepted, h.origin.sequence < e.sequence
  split : ∃ folded, folded ++ r.retained.toList = h.accepted.toList ∧ r.baseline = h.state.applyAll folded

/-- A log without a position follows no history, and a replica the one that it holds. -/
inductive EventLog.Follows : EventLog → Option History → Prop
  | unknown : Follows .unknown none
  | known {r : Replica} {h : History} : r.Follows h → Follows (.known r) (some h)

/-! ## One call -/

namespace Replica.Follows

variable {r : Replica} {h : History} {e : Event}

theorem epoch (hr : r.Follows h) : r.epoch = h.epoch := by
  rw [Replica.epoch, hr.latest, History.epoch_latest]

theorem mem_accepted (hr : r.Follows h) (he : e ∈ r.retained) : e ∈ h.accepted := by
  obtain ⟨folded, hsplit, -⟩ := hr.split
  rw [Ascending.mem_def, ← hsplit]
  exact List.mem_append_right _ he

/-- No event lies above the position. -/
theorem le_latest (hr : r.Follows h) (he : e ∈ r.retained) : e.sequence ≤ r.latest.sequence :=
  hr.latest ▸ History.le_latest_of_mem (hr.mem_accepted he)

theorem fresh_eq (hr : r.Follows h) (events : List Event) :
    r.fresh events = events.filter fun e => h.latest.sequence < e.sequence := by
  rw [Replica.fresh, hr.latest]

/-- A position after new events that is not the old one is that of a new event. -/
theorem latest_append (hr : r.Follows h) (events : List Event) :
    (r.append events).latest.sequence = r.latest.sequence ∨
      ∃ e ∈ r.fresh events, e.sequence = (r.append events).latest.sequence := by
  have hspec := Timeline.highest_spec r.latest.sequence (r.retained.insertAll (r.fresh events))
  rcases hspec.2.2 with heq | ⟨e, he, heq⟩
  · exact .inl heq
  · rcases Ascending.mem_or_mem_of_mem_insertAll he with he | he
    · have hle := hr.le_latest he
      rw [heq] at hle
      exact .inl (UInt64.le_antisymm hle hspec.1)
    · exact .inr ⟨e, he, heq⟩

/-- The highest retained event is the highest of all, unless none is above the old position. -/
theorem highest_append (hr : r.Follows h) {events : List Event} {folded : List Event} {retained : Timeline}
    (hfolded : ∀ e ∈ folded, e ∈ h.accepted)
    (hsplit : folded ++ retained.toList = (h.accept events).accepted.toList) :
    Timeline.highest r.latest.sequence retained = (h.accept events).latest.sequence := by
  have hle : r.latest.sequence ≤ (h.accept events).latest.sequence :=
    hr.latest ▸ History.latest_le_accept h events
  have hmem : ∀ e, e ∈ (h.accept events).accepted ↔ e ∈ folded ∨ e ∈ retained := fun e => by
    rw [Ascending.mem_def, ← hsplit, List.mem_append, Ascending.mem_toList]
  refine Timeline.highest_eq_iff.2 ⟨hle, fun e he => History.le_latest_of_mem ((hmem e).2 (.inr he)), ?_⟩
  rcases (Timeline.highest_spec (h.accept events).origin.sequence (h.accept events).accepted).2.2 with ho | ⟨e, he, hs⟩
  · refine .inl (UInt64.le_antisymm ?_ hle)
    rw [hr.latest]
    exact UInt64.le_trans (UInt64.le_of_eq ho) (History.origin_le_latest h)
  · rcases (hmem e).1 he with hf | hret
    · refine .inl (UInt64.le_antisymm ?_ hle)
      rw [hr.latest]
      exact UInt64.le_trans (UInt64.le_of_eq hs.symm) (History.le_latest_of_mem (hfolded e hf))
    · exact .inr ⟨e, hret, hs⟩

/-- New events go behind all that is retained. -/
theorem append (hr : r.Follows h) (events : List Event) : (r.append events).Follows (h.accept events) := by
  obtain ⟨folded, hsplit, hbase⟩ := hr.split
  have hfolded : ∀ e ∈ folded, e ∈ h.accepted := fun e he => by
    rw [Ascending.mem_def, ← hsplit]
    exact List.mem_append_left _ he
  have hsplit' : folded ++ (r.retained.insertAll (r.fresh events)).toList = (h.accept events).accepted.toList := by
    rw [History.accept, ← hr.fresh_eq]
    refine (Ascending.toList_insertAll_of_append hsplit.symm fun d hd e he => ?_).symm
    have hlt := (Replica.mem_fresh.1 he).2
    rw [hr.latest] at hlt
    exact Std.compare_eq_lt.2 (UInt64.lt_of_le_of_lt (History.le_latest_of_mem (hfolded d hd)) hlt)
  refine ⟨?_, fun e he => ?_, folded, hsplit', hbase⟩
  · have hseq := hr.highest_append hfolded hsplit'
    show ({ r.latest with sequence := _ } : Position) = _
    rw [hseq, hr.latest]
    rfl
  · rcases History.mem_accept he with he | ⟨-, hlt⟩
    · exact hr.above e he
    · exact UInt64.lt_of_le_of_lt (History.origin_le_latest h) hlt

theorem extend (hr : r.Follows h) (lastKnown : Sequence) (events : List Event) :
    (r.extend lastKnown events).Follows (if lastKnown ≤ h.latest.sequence then h else h.accept events) := by
  rw [Replica.extend, hr.latest]
  split
  · exact hr
  · exact hr.append events

/-- Compaction moves the first retained events behind those folded before. -/
theorem compactBelow (hr : r.Follows h) (n : Sequence) : (r.compactBelow n).Follows h := by
  obtain ⟨folded, hsplit, hbase⟩ := hr.split
  refine ⟨hr.latest, hr.above, folded ++ (r.retained.filter fun e => e.sequence < n).toList, ?_, ?_⟩
  · rw [List.append_assoc, ← hsplit]
    exact congrArg (folded ++ ·) (Timeline.below_append_from r.retained n)
  · rw [LockState.applyAll_append, ← hbase]
    rfl

end Replica.Follows

theorem Replica.follows_ofSnapshot (p : Position) (s : LockState) :
    (Replica.ofSnapshot p s).Follows { origin := p, state := s } :=
  ⟨rfl, fun _ he => absurd he Ascending.not_mem_empty, [], rfl, rfl⟩

/-! ## What is folded and what is retained -/

namespace Replica.Follows

variable {r : Replica} {h : History} {d e : Event}

/-- All that is folded away lies below all that is retained. -/
theorem folded_lt (hr : r.Follows h) (hd : d ∈ h.accepted) (hdr : d ∉ r.retained) (he : e ∈ r.retained) :
    d.sequence < e.sequence := by
  obtain ⟨folded, hsplit, -⟩ := hr.split
  have hpair := Timeline.pairwise_lt h.accepted
  rw [← hsplit] at hpair
  rw [Ascending.mem_def, ← hsplit] at hd
  exact (List.pairwise_append.1 hpair).2.2 d ((List.mem_append.1 hd).resolve_right hdr) e he

/-- What is folded away are the accepted events that are not retained. -/
theorem split_filter (hr : r.Follows h) :
    (h.accepted.filter fun e => e ∉ r.retained).toList ++ r.retained.toList = h.accepted.toList ∧
      r.baseline = h.state.applyAll (h.accepted.filter fun e => e ∉ r.retained).toList := by
  obtain ⟨folded, hsplit, hbase⟩ := hr.split
  have hpair := Timeline.pairwise_lt h.accepted
  rw [← hsplit] at hpair
  have hdisj : folded.filter (fun e => e ∉ r.retained) = folded := by
    refine List.filter_eq_self.2 fun e he => decide_eq_true ?_
    intro hret
    exact UInt64.lt_irrefl _ ((List.pairwise_append.1 hpair).2.2 e he e hret)
  have hnil : r.retained.toList.filter (fun e => e ∉ r.retained) = [] :=
    List.filter_eq_nil_iff.2 fun e he => by simpa using he
  have heq : (h.accepted.filter fun e => e ∉ r.retained).toList = folded := by
    rw [Ascending.toList_filter, ← hsplit, List.filter_append, hdisj, hnil, List.append_nil]
  rw [heq]
  exact ⟨hsplit, hbase⟩

/-- Before a retained event there is a sequence, so that counting back from it does not stop at zero. -/
theorem toNat_back_add_one (hr : r.Follows h) (he : e ∈ r.retained) :
    (e.sequence.back 1).toNat + 1 = e.sequence.toNat := by
  have hlt := UInt64.lt_iff_toNat_lt.1 (hr.above e (hr.mem_accepted he))
  rw [Sequence.toNat_back, UInt64.toNat_one]
  omega

end Replica.Follows

/-! ## The position of the baseline -/

namespace Replica

variable {r : Replica} {h : History} {e : Event}

namespace Follows

theorem baseline_cases (hr : r.Follows h) :
    (∀ e, e ∉ r.retained) ∧ r.baselinePosition.sequence = r.latest.sequence ∨
      ∃ d ∈ r.retained, (∀ e ∈ r.retained, d.sequence ≤ e.sequence) ∧
        r.baselinePosition.sequence.toNat + 1 = d.sequence.toNat := by
  unfold Replica.baselinePosition Replica.oldest?
  cases hf : r.retained.first? with
  | none => exact .inl ⟨Ascending.first?_eq_none_iff.1 hf, rfl⟩
  | some d =>
    have hd := (Ascending.mem_of_first?_eq_some hf).1
    exact .inr ⟨d, hd, fun e he => Timeline.le_of_first?_eq_some hf he, hr.toNat_back_add_one hd⟩

/-- The baseline is before everything retained, and not before its position otherwise. -/
theorem baseline_lt (hr : r.Follows h) (he : e ∈ r.retained) : r.baselinePosition.sequence < e.sequence := by
  rcases hr.baseline_cases with ⟨hnone, -⟩ | ⟨d, -, hfirst, hbase⟩
  · exact absurd he (hnone e)
  · have hle := UInt64.le_iff_toNat_le.1 (hfirst e he)
    exact UInt64.lt_iff_toNat_lt.2 (by omega)

/-- What lies before everything retained is not beyond the baseline. -/
theorem le_baseline_of_forall_lt (hr : r.Follows h) {n : Sequence} (hn : n ≤ r.latest.sequence)
    (hlt : ∀ e ∈ r.retained, n < e.sequence) : n ≤ r.baselinePosition.sequence := by
  rcases hr.baseline_cases with ⟨-, hbase⟩ | ⟨d, hd, -, hbase⟩
  · rwa [hbase]
  · have hnd := UInt64.lt_iff_toNat_lt.1 (hlt d hd)
    exact UInt64.le_iff_toNat_le.2 (by omega)

theorem baseline_le_latest (hr : r.Follows h) : r.baselinePosition.sequence ≤ r.latest.sequence := by
  rcases hr.baseline_cases with ⟨-, hbase⟩ | ⟨d, hd, -, hbase⟩
  · exact UInt64.le_of_eq hbase
  · have hle := UInt64.le_iff_toNat_le.1 (hr.le_latest hd)
    exact UInt64.le_iff_toNat_le.2 (by omega)

theorem origin_le_baseline (hr : r.Follows h) : h.origin.sequence ≤ r.baselinePosition.sequence :=
  hr.le_baseline_of_forall_lt (hr.latest ▸ History.origin_le_latest h) fun e he => hr.above e (hr.mem_accepted he)

/-- The position of the baseline cuts the accepted events into the folded and the retained ones. -/
theorem mem_retained_iff (hr : r.Follows h) :
    e ∈ r.retained ↔ e ∈ h.accepted ∧ r.baselinePosition.sequence < e.sequence := by
  refine ⟨fun he => ⟨hr.mem_accepted he, hr.baseline_lt he⟩, ?_⟩
  rintro ⟨he, hlt⟩
  refine Decidable.byContradiction fun her => UInt64.not_lt.2 ?_ hlt
  exact hr.le_baseline_of_forall_lt (hr.latest ▸ History.le_latest_of_mem he) fun d hd => hr.folded_lt he her hd

/-- The retained events are the accepted ones from some sequence on. -/
theorem exists_cut (hr : r.Follows h) :
    ∃ cut : Nat, ∀ e, e ∈ r.retained ↔ e ∈ h.accepted ∧ cut ≤ e.sequence.toNat := by
  refine ⟨r.baselinePosition.sequence.toNat + 1, ?_⟩
  intro e
  rw [hr.mem_retained_iff, UInt64.lt_iff_toNat_lt]
  rfl

end Follows

end Replica

/-! ## Runs -/

namespace EventLog.Follows

variable {log : EventLog} {told : Option History}

theorem update (hl : log.Follows told) (u : Update) : (log.update u).Follows (History.update told u) := by
  cases u with
  | success epoch lastKnown events =>
    cases hl with
    | unknown => exact .unknown
    | @known r h hr =>
      simp only [EventLog.update, EventLog.deliver, History.update, Option.bind_some, hr.epoch]
      split
      · exact .known (hr.extend lastKnown events)
      · exact .unknown
  | snapshot epoch lastKnown locked watched => exact .known (Replica.follows_ofSnapshot _ _)
  | failed epoch => exact .unknown

theorem compact (hl : log.Follows told) (before : Position) : (log.compact before).Follows told := by
  cases hl with
  | unknown => exact .unknown
  | @known r h hr =>
    rw [EventLog.compact]
    split
    · exact .known (hr.compactBelow _)
    · exact .known hr

/-- The position of the log is that of the history. -/
theorem latest?_eq (hl : log.Follows told) : log.latest? = told.map History.latest := by
  cases hl with
  | unknown => rfl
  | known hr => exact congrArg some hr.latest

/-- The log holds the state that the snapshot and all accepted events make. -/
theorem current_eq (hl : log.Follows told) :
    log.current = told.elim ∅ fun h => h.state.applyAll h.accepted.toList := by
  cases hl with
  | unknown => rfl
  | @known r h hr =>
    obtain ⟨folded, hsplit, hbase⟩ := hr.split
    show r.baseline.applyAll r.retained.toList = h.state.applyAll h.accepted.toList
    rw [hbase, ← LockState.applyAll_append, hsplit]

theorem foldl (hl : log.Follows told) (ops : List LogOp) :
    (ops.foldl EventLog.step log).Follows ((LogOp.updates ops).foldl History.update told) := by
  induction ops generalizing log told with
  | nil => exact hl
  | cons op ops ih =>
    cases op with
    | update u => exact ih (hl.update u)
    | compact before => exact ih (hl.compact before)

end EventLog.Follows

/-- **A log follows the history of its updates**, whatever it compacts. -/
theorem EventLog.follows_run (ops : List LogOp) : (run ops).Follows (History.run (LogOp.updates ops)) :=
  EventLog.Follows.unknown.foldl ops

/-- Where updates tell a history, the log has a replica, which follows it. -/
theorem EventLog.exists_follows_run {ops : List LogOp} {h : History}
    (hh : History.run (LogOp.updates ops) = some h) : ∃ r, run ops = .known r ∧ r.Follows h := by
  have hfollows := follows_run ops
  rw [hh] at hfollows
  generalize run ops = log at hfollows ⊢
  cases hfollows with
  | @known r _ hr => exact ⟨r, rfl, hr⟩

/-! ## Invariants of runs -/

/-- A compaction folds the events below some sequence, or is ignored. -/
theorem EventLog.eq_of_compact_eq_known {r r' : Replica} {before : Position}
    (h : (known r).compact before = known r') : r.compactBelow before.sequence = r' ∨ r = r' := by
  rw [compact] at h
  split at h
  · exact .inl (known.inj h)
  · exact .inr (known.inj h)

/-- Induction over the runs after which a log follows a history: a snapshot starts the history, whatever came before,
and deliveries of its epoch and compactions go on with it. -/
theorem EventLog.run_induction {P : List LogOp → Replica → History → Prop}
    (snapshot : ∀ ops p s, P (ops ++ [.update (.snapshot p.epoch p.sequence s.locked s.watched)]) (.ofSnapshot p s)
      { origin := p, state := s })
    (success : ∀ ops r h lastKnown events, run ops = .known r → r.Follows h → P ops r h →
      P (ops ++ [.update (.success h.epoch lastKnown events)]) (r.extend lastKnown events)
        (if lastKnown ≤ h.latest.sequence then h else h.accept events))
    (compact : ∀ ops r r' h before, run ops = .known r → r.Follows h → P ops r h →
      (known r).compact before = .known r' → P (ops ++ [.compact before]) r' h)
    {ops : List LogOp} {r : Replica} {h : History} (hlog : run ops = .known r)
    (hh : History.run (LogOp.updates ops) = some h) : P ops r h := by
  induction ops using List.reverseRecOn generalizing r h with
  | nil => cases hlog
  | append_singleton ops op ih =>
    rw [run_concat] at hlog
    rw [LogOp.updates_concat, History.run, List.foldl_append, ← History.run] at hh
    match op, hlog, hh with
    | .compact before, hlog, hh =>
      obtain ⟨r₀, hr₀, hfollows⟩ := exists_follows_run hh
      rw [hr₀] at hlog
      exact compact ops r₀ r h before hr₀ hfollows (ih hr₀ hh) hlog
    | .update (.failed epoch), hlog, hh => cases hlog
    | .update (.snapshot epoch lastKnown locked watched), hlog, hh =>
      cases hlog
      cases hh
      exact snapshot ops ⟨epoch, lastKnown⟩ ⟨locked, watched⟩
    | .update (.success epoch lastKnown events), hlog, hh =>
      cases htold : History.run (LogOp.updates ops) with
      | none => simp [LogOp.update?, History.update, htold] at hh
      | some h₀ =>
        obtain ⟨r₀, hr₀, hfollows⟩ := exists_follows_run htold
        rw [htold] at hh
        rw [hr₀] at hlog
        obtain ⟨rfl, rfl⟩ : epoch = h₀.epoch ∧ (if lastKnown ≤ h₀.latest.sequence then h₀ else h₀.accept events) = h := by
          simpa [LogOp.update?, History.update] using hh
        rw [step, update, deliver, if_pos hfollows.epoch.symm] at hlog
        cases hlog
        exact success ops r₀ h₀ lastKnown events hr₀ hfollows (ih hr₀ htold)

section Invariant

/-- What relates a replica to its history is established by snapshots and kept by new events and compactions. -/
structure Replica.Invariant (P : Replica → History → Prop) : Prop where
  ofSnapshot : ∀ p s, P (.ofSnapshot p s) { origin := p, state := s }
  extend : ∀ {r : Replica} {h : History}, r.Follows h → P r h → ∀ lastKnown events,
    P (r.extend lastKnown events) (if lastKnown ≤ h.latest.sequence then h else h.accept events)
  compactBelow : ∀ {r : Replica} {h : History}, r.Follows h → P r h → ∀ n, P (r.compactBelow n) h

/-- The relation holds of a log and a history, if they have anything to relate. -/
def EventLog.Relates (P : Replica → History → Prop) (log : EventLog) (told : Option History) : Prop :=
  ∀ r h, log = .known r → told = some h → P r h

variable {P : Replica → History → Prop}

/-- An invariant relates the replica of a log to the history of its updates after every run. -/
theorem Replica.Invariant.run (hP : Replica.Invariant P) (ops : List LogOp) :
    (EventLog.run ops).Relates P (History.run (LogOp.updates ops)) := by
  intro r h hlog hh
  refine EventLog.run_induction (P := fun _ => P) (fun _ p s => hP.ofSnapshot p s) ?_ ?_ hlog hh
  · intro _ r h lastKnown events _ hr hrel
    exact hP.extend hr hrel lastKnown events
  · intro _ r r' h before _ hr hrel hr'
    rcases EventLog.eq_of_compact_eq_known hr' with rfl | rfl
    · exact hP.compactBelow hr hrel _
    · exact hrel

end Invariant

/-! ## Conservation -/

/-- The accepted events that a log does not retain any more. -/
def EventLog.folded (log : EventLog) (h : History) : Timeline := h.accepted.filter fun e => e ∉ log.retained

/-- What a log at the position `p` has made of a history. -/
structure EventLog.Conserves (log : EventLog) (p : Position) (h : History) : Prop where
  epoch : p.epoch = h.origin.epoch
  /-- The position is the highest of the snapshot and the accepted events. -/
  highest : h.origin.sequence ≤ p.sequence ∧ (∀ e ∈ h.accepted, e.sequence ≤ p.sequence) ∧
    (p.sequence = h.origin.sequence ∨ ∃ e ∈ h.accepted, e.sequence = p.sequence)
  /-- Every accepted event is folded or retained, once and in order. -/
  listing : (log.folded h).toList ++ log.retained.toList = h.accepted.toList
  baseline : log.baseline = h.state.applyAll (log.folded h).toList
  /-- The retained events are the accepted ones from some sequence on. -/
  cut : ∃ cut : Nat, ∀ e, e ∈ log.retained ↔ e ∈ h.accepted ∧ cut ≤ e.sequence.toNat
  ascending : log.retained.toList.Pairwise fun d e => d.sequence < e.sequence
  stored : ∀ e ∈ log.retained, log.retained.find? e.sequence = some e
  above_origin : ∀ e ∈ log.retained, h.origin.sequence < e.sequence
  above_folded : ∀ e ∈ log.retained, ∀ d ∈ log.folded h, d.sequence < e.sequence
  /-- Counting back from a retained event does not stop at zero. -/
  back : ∀ e ∈ log.retained, (e.sequence.back 1).toNat + 1 = e.sequence.toNat

theorem Replica.Follows.conserves {r : Replica} {h : History} (hr : r.Follows h) :
    (EventLog.known r).Conserves r.latest h where
  epoch := hr.epoch
  highest := by
    rw [hr.latest]
    exact Timeline.highest_spec _ _
  listing := hr.split_filter.1
  baseline := hr.split_filter.2
  cut := hr.exists_cut
  ascending := Timeline.pairwise_lt _
  stored := fun _ he => Ascending.find?_eq_some_iff.2 ⟨he, rfl⟩
  above_origin := fun e he => hr.above e (hr.mem_accepted he)
  above_folded := fun e he d hd => by
    obtain ⟨hd, hdr⟩ := Ascending.mem_filter.1 hd
    exact hr.folded_lt hd (of_decide_eq_true hdr) he
  back := fun _ he => hr.toNat_back_add_one he

/-- **Conservation**: after any calls, a log without a position holds nothing, and a log at a position has
made of the history of its updates what `Conserves` says. -/
theorem run_conserves (ops : List LogOp) :
    ((EventLog.run ops).latest? = none → History.run (LogOp.updates ops) = none ∧
      (EventLog.run ops).retained = ∅ ∧ (EventLog.run ops).baseline = ∅) ∧
    ∀ p, (EventLog.run ops).latest? = some p →
      ∃ h, History.run (LogOp.updates ops) = some h ∧ (EventLog.run ops).Conserves p h := by
  have hfollows := EventLog.follows_run ops
  generalize EventLog.run ops = log at hfollows
  generalize History.run (LogOp.updates ops) = told at hfollows
  cases hfollows with
  | unknown => exact ⟨fun _ => ⟨rfl, rfl, rfl⟩, fun p hp => absurd hp (by simp [EventLog.latest?])⟩
  | @known r h hr =>
    refine ⟨fun hp => absurd hp (by simp [EventLog.latest?]), ?_⟩
    intro p hp
    cases Option.some.inj hp
    exact ⟨h, rfl, hr.conserves⟩

/-! ## Samples -/

/-- An epoch, told by one byte. -/
def Epoch.ofByte (b : UInt8) : Epoch := ⟨⟨List.replicate 16 b, List.length_replicate⟩⟩

/-- A lock of a descriptor of one byte. -/
def Event.lockByte (n : Sequence) (b : UInt8) : Event :=
  .lock n (.ofList [⟨[b]⟩]) ⟨⟨List.replicate 16 b, List.length_replicate⟩⟩

-- events 1 and 2 are folded when they are delivered again, in disorder and twice
example : (EventLog.run [.update (.snapshot (.ofByte 1) 0 ∅ ∅),
    .update (.success (.ofByte 1) 3 [.lockByte 3 3, .lockByte 1 1, .lockByte 2 9, .lockByte 2 2]),
    .compact ⟨.ofByte 1, 3⟩,
    .update (.success (.ofByte 1) 5 [.lockByte 5 5, .lockByte 2 9, .lockByte 3 3, .lockByte 1 1])]).retained.toList =
    [.lockByte 3 3, .lockByte 5 5] := by decide

end LockReplica
