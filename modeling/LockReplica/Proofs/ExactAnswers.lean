import LockReplica.Proofs.SinceSnapshot

/-!
# Exact answers are exact

Fix a run of a log. What it has accepted since the last snapshot is told by its calls alone (`EventLog.AcceptedSince`):
a success that reached above the position had the event above the position and, of those with its sequence, as the
last.

* **One success** (`History.mem_accept_iff_getLast?`): a history gets exactly these events. They lie above what it
  has, so that none takes the place of another.
* **Runs** (`mem_accepted_iff`): so the accepted events of the history are those that the calls tell, and the calls tell
  the whole history (`History.toldBy_of_run`, `History.ToldBy.unique`).
* **Answers** (`exact_answer_complete`): where the baseline is not after the start, no event after the start is folded
  away.
* **The start** (`start_excluded_iff`): an answer begins at the sequence that follows its start. Only at the greatest
  sequence, which follows itself, is that the start again.
-/

namespace LockReplica

/-! ## Accepted events -/

namespace EventLog

/-- The call is a success that extends the log, and the event is above the position of the log and the last one of its
sequence. -/
def Accepts (log : EventLog) (op : LogOp) (e : Event) : Prop :=
  ∃ p ∈ log.latest?, ∃ lastKnown events, op = .update (.success p.epoch lastKnown events) ∧
    p.sequence < lastKnown ∧ p.sequence < e.sequence ∧
    (events.filter fun d => d.sequence = e.sequence).getLast? = some e

/-- Some call of the run has made the log accept the event, and no snapshot has come since. -/
def AcceptedSince (ops : List LogOp) (e : Event) : Prop :=
  Since step (fun log op => log.Accepts op e) (fun _ op => ∀ u ∈ op.update?, ¬u.IsSnapshot) unknown ops

end EventLog

open EventLog (AcceptedSince)

section

variable {ops : List LogOp} {e : Event} {h : History}

/-- New events lie above all accepted ones, and of several with one sequence the last is accepted. -/
theorem History.mem_accept_iff_getLast? {events : List Event} : e ∈ (h.accept events).accepted ↔
    e ∈ h.accepted ∨ h.latest.sequence < e.sequence ∧
      (events.filter fun d => d.sequence = e.sequence).getLast? = some e := by
  have hfind : ∀ {t : Timeline}, e ∈ t ↔ t.find? e.sequence = some e := by simp [Ascending.find?_eq_some_iff]
  have hnew : (events.filter fun d => h.latest.sequence < d.sequence).filter (fun d => d.sequence = e.sequence) =
      if h.latest.sequence < e.sequence then events.filter fun d => d.sequence = e.sequence else [] := by
    rw [List.filter_filter]
    split
    · exact List.filter_congr fun d _ => by grind
    · exact List.filter_eq_nil_iff.2 fun d _ => by grind
  rw [hfind, accept, Ascending.find?_insertAll, hnew]
  by_cases habove : h.latest.sequence < e.sequence
  · have hold : h.accepted.find? e.sequence = none := Ascending.find?_eq_none_iff.2 fun d hd heq =>
      UInt64.not_lt.2 (le_latest_of_mem hd) (heq ▸ habove)
    have hnot : e ∉ h.accepted := fun he => UInt64.not_lt.2 (le_latest_of_mem he) habove
    simp [habove, hold, hnot]
  · simp [habove, ← hfind]

/-- A log that follows a history accepts what a success adds to the history. -/
theorem EventLog.mem_accepted_success_iff {r : Replica} (hr : r.Follows h) {lastKnown : Sequence}
    {events : List Event} : e ∈ (if lastKnown ≤ h.latest.sequence then h else h.accept events).accepted ↔
      (known r).Accepts (.update (.success h.epoch lastKnown events)) e ∨ e ∈ h.accepted := by
  have haccepts : (known r).Accepts (.update (.success h.epoch lastKnown events)) e ↔
      h.latest.sequence < lastKnown ∧ h.latest.sequence < e.sequence ∧
        (events.filter fun d => d.sequence = e.sequence).getLast? = some e := by
    constructor
    · rintro ⟨p, hp, lastKnown, events, hop, hlast, habove, hget⟩
      obtain ⟨-, rfl, rfl⟩ := Update.success.inj (LogOp.update.inj hop)
      cases hp
      rw [hr.latest] at hlast habove
      exact ⟨hlast, habove, hget⟩
    · rintro ⟨hlast, habove, hget⟩
      rw [← hr.latest] at hlast habove
      refine ⟨r.latest, rfl, lastKnown, events, ?_, hlast, habove, hget⟩
      rw [← hr.epoch, Replica.epoch]
  rw [haccepts]
  by_cases hlast : lastKnown ≤ h.latest.sequence
  · rw [if_pos hlast]
    exact (or_iff_right fun hnew => UInt64.not_lt.2 hlast hnew.1).symm
  · rw [if_neg hlast, History.mem_accept_iff_getLast?, or_comm, and_iff_right (UInt64.not_le.1 hlast)]

/-- The accepted events of a history are those that the calls tell. -/
theorem mem_accepted_iff (hh : History.run (LogOp.updates ops) = some h) : e ∈ h.accepted ↔ AcceptedSince ops e := by
  obtain ⟨r, hlog, -⟩ := EventLog.exists_follows_run hh
  refine (EventLog.sinceSnapshot_iff (Q := fun _ h => e ∈ h.accepted) ?_ ?_ ?_ hlog hh).symm
  · intro log p s
    exact iff_of_false Ascending.not_mem_empty fun ⟨_, _, _, _, hop, _⟩ => nomatch hop
  · intro r h lastKnown events hr
    exact EventLog.mem_accepted_success_iff hr
  · intro r r' h before _ _
    exact (or_iff_right fun ⟨_, _, _, _, hop, _⟩ => nomatch hop).symm

/-- The history is what the calls of a run tell: it starts at their last snapshot and has the events accepted since. -/
structure History.ToldBy (h : History) (ops : List LogOp) : Prop where
  snapshot : ∀ p s, EventLog.SnapshotLast ops p s ↔ p = h.origin ∧ s = h.state
  accepted : ∀ e, e ∈ h.accepted ↔ AcceptedSince ops e

theorem History.toldBy_of_run (hh : History.run (LogOp.updates ops) = some h) : h.ToldBy ops :=
  ⟨fun _ _ => EventLog.snapshotLast_iff hh, fun _ => mem_accepted_iff hh⟩

/-- Calls tell at most one history. -/
theorem History.ToldBy.unique {h' : History} (htold : h.ToldBy ops) (htold' : h'.ToldBy ops) : h = h' := by
  obtain ⟨horigin, hstate⟩ := (htold'.snapshot _ _).1 ((htold.snapshot h.origin h.state).2 ⟨rfl, rfl⟩)
  have haccepted : h.accepted = h'.accepted :=
    Ascending.ext_mem fun e => (htold.accepted e).trans (htold'.accepted e).symm
  cases h
  cases h'
  cases horigin
  cases hstate
  cases haccepted
  rfl

end

/-! ## Answers -/

/-- **Exact answers are exact**: an answer that is not rooted in a snapshot comes from a start in the epoch of the log,
and lists in ascending order exactly the accepted events after that start up to the end; none of them is lost to a
compaction or to another event of its sequence. -/
theorem exact_answer_complete (ops : List LogOp) (start last : Position) (range : EventRange)
    (hstart : start.sequence < Sequence.greatest) (hanswer : (EventLog.run ops).query (some start) last = .ok range)
    (hexact : range.fromSnapshot = false) :
    (∃ latest ∈ (EventLog.run ops).latest?, start.epoch = latest.epoch) ∧
      (range.events.Pairwise fun d e => d.sequence < e.sequence) ∧
      ∀ e, e ∈ range.events ↔ AcceptedSince ops e ∧ start.sequence < e.sequence ∧ e.sequence ≤ last.sequence := by
  have hfollows := EventLog.follows_run ops
  obtain ⟨r, hlog, -, rfl⟩ := EventLog.query_eq_ok_iff.1 hanswer
  have haccepted (h : History) (hh : History.run (LogOp.updates ops) = some h) (e : Event) :
      e ∈ h.accepted ↔ AcceptedSince ops e := mem_accepted_iff hh
  rw [hlog] at hfollows ⊢
  generalize History.run (LogOp.updates ops) = told at hfollows haccepted
  cases hfollows with | @known _ h hr => ?_
  have hne : start.sequence ≠ Sequence.greatest := fun heq => UInt64.lt_irrefl _ (heq ▸ hstart)
  rcases r.range_cases (some start) last.sequence with ⟨p, hp, hbase, heq⟩ | ⟨-, heq⟩
  · cases hp
    rw [heq, hr.eventsIn_eq hne hbase.2]
    refine ⟨⟨r.latest, rfl, hbase.1.symm.trans r.baselinePosition_epoch⟩, Timeline.pairwise_lt _, fun e => ?_⟩
    rw [← haccepted h rfl e]
    show e ∈ (h.accepted.filter _).toList ↔ _
    simp
  · rw [heq] at hexact
    cases hexact

/-- Events 1, 2, 4 and 6 never come, event 5 comes three times, and event 3 is folded away. -/
def LogOp.gappedSample : List LogOp :=
  [.update (.snapshot (.ofByte 1) 0 ∅ ∅),
    .update (.success (.ofByte 1) 5 [.lockByte 5 9, .lockByte 3 3, .lockByte 5 5]), .compact ⟨.ofByte 1, 5⟩,
    .update (.success (.ofByte 1) 9 [.lockByte 8 8, .lockByte 5 1, .lockByte 7 7])]

theorem sample_exact_answer_complete :
    ∃ range, (EventLog.run LogOp.gappedSample).query (some ⟨.ofByte 1, 4⟩) ⟨.ofByte 1, 8⟩ = .ok range ∧
      range.fromSnapshot = false ∧ (4 : Sequence) < Sequence.greatest ∧
      range.events = [.lockByte 5 5, .lockByte 7 7, .lockByte 8 8] ∧
      AcceptedSince LogOp.gappedSample (.lockByte 5 5) ∧ ¬AcceptedSince LogOp.gappedSample (.lockByte 5 1) := by
  obtain ⟨range, hanswer, hexact, hevents⟩ : ∃ range,
      (EventLog.run LogOp.gappedSample).query (some ⟨.ofByte 1, 4⟩) ⟨.ofByte 1, 8⟩ = .ok range ∧
      range.fromSnapshot = false ∧ range.events = [.lockByte 5 5, .lockByte 7 7, .lockByte 8 8] :=
    ⟨_, rfl, by decide, by decide⟩
  obtain ⟨-, -, hmem⟩ :=
    exact_answer_complete LogOp.gappedSample ⟨.ofByte 1, 4⟩ ⟨.ofByte 1, 8⟩ range (by decide) hanswer hexact
  refine ⟨range, hanswer, hexact, by decide, hevents, ?_, fun hnew => ?_⟩
  · exact ((hmem (.lockByte 5 5)).1 (by rw [hevents]; decide)).1
  · have hnot : Event.lockByte 5 1 ∉ range.events := by rw [hevents]; decide
    exact hnot ((hmem (.lockByte 5 1)).2 ⟨hnew, by decide, by decide⟩)

/-! ## The start -/

/-- What an exact answer lists. From the greatest sequence it goes on to the greatest sequence itself. -/
theorem EventLog.mem_exact_iff {ops : List LogOp} {start last : Position} {range : EventRange}
    (hanswer : (EventLog.run ops).query (some start) last = .ok range) (hexact : range.fromSnapshot = false)
    {e : Event} : e ∈ range.events ↔ AcceptedSince ops e ∧
      (start.sequence < e.sequence ∨ start.sequence = Sequence.greatest ∧ e.sequence = Sequence.greatest) ∧
      e.sequence ≤ last.sequence := by
  obtain ⟨r, h, hlog, hh, hr, -, rfl⟩ := EventLog.exists_follows_of_query hanswer
  have hgreatest : r.HoldsGreatest h := Replica.invariant_holdsGreatest.run ops r h hlog hh
  rcases r.range_cases (some start) last.sequence with ⟨p, hp, hbase, heq⟩ | ⟨-, heq⟩
  · cases hp
    rw [heq, hr.eventsIn_next_eq hgreatest hbase.2, ← mem_accepted_iff hh, ← Sequence.next_le_iff]
    show e ∈ (h.accepted.filter _).toList ↔ _
    simp
  · rw [heq] at hexact
    cases hexact

/-- **When an exact answer leaves its start out**: always, unless it is asked from the greatest sequence to itself and an
event of that sequence was accepted. No sequence follows that one, so that the answer begins at the start and repeats
its event. -/
theorem start_excluded_iff (ops : List LogOp) (start last : Position) (range : EventRange)
    (hanswer : (EventLog.run ops).query (some start) last = .ok range) (hexact : range.fromSnapshot = false) :
    ((∀ e ∈ range.events, start.sequence < e.sequence) ↔
      ¬(start.sequence = Sequence.greatest ∧ last.sequence = Sequence.greatest ∧
        ∃ e, AcceptedSince ops e ∧ e.sequence = Sequence.greatest)) ∧
    (start = last → (range.events = [] ↔
      ¬(start.sequence = Sequence.greatest ∧ ∃ e, AcceptedSince ops e ∧ e.sequence = Sequence.greatest))) := by
  have hmem (e : Event) := EventLog.mem_exact_iff hanswer hexact (e := e)
  refine ⟨⟨?_, ?_⟩, ?_⟩
  · rintro hall ⟨hstart, hlast, e, haccepted, hseq⟩
    have he := (hmem e).2 ⟨haccepted, .inr ⟨hstart, hseq⟩, by rw [hseq, hlast]; exact UInt64.le_refl _⟩
    have hlt := hall e he
    rw [hstart, hseq] at hlt
    exact UInt64.lt_irrefl _ hlt
  · intro hnot e he
    obtain ⟨haccepted, hlow, hhigh⟩ := (hmem e).1 he
    refine hlow.resolve_right fun ⟨hstart, hseq⟩ => hnot ⟨hstart, ?_, e, haccepted, hseq⟩
    exact UInt64.le_antisymm (Sequence.le_greatest _) (hseq ▸ hhigh)
  · rintro rfl
    rw [List.eq_nil_iff_forall_not_mem]
    constructor
    · rintro hnil ⟨hstart, e, haccepted, hseq⟩
      exact hnil e ((hmem e).2 ⟨haccepted, .inr ⟨hstart, hseq⟩, by rw [hseq, hstart]; exact UInt64.le_refl _⟩)
    · intro hnot e he
      obtain ⟨haccepted, hlow, hhigh⟩ := (hmem e).1 he
      rcases hlow with hlt | ⟨hstart, hseq⟩
      · exact UInt64.not_lt.2 hhigh hlt
      · exact hnot ⟨hstart, e, haccepted, hseq⟩

/-- Event 7 is retained, and yet nothing is answered from its position to itself. -/
theorem sample_start_excluded_iff :
    ∃ range, (EventLog.run LogOp.gappedSample).query (some ⟨.ofByte 1, 7⟩) ⟨.ofByte 1, 7⟩ = .ok range ∧
      range.fromSnapshot = false ∧ Event.lockByte 7 7 ∈ (EventLog.run LogOp.gappedSample).retained ∧
      range.events = [] := by
  obtain ⟨range, hanswer, hexact⟩ : ∃ range,
      (EventLog.run LogOp.gappedSample).query (some ⟨.ofByte 1, 7⟩) ⟨.ofByte 1, 7⟩ = .ok range ∧
      range.fromSnapshot = false := ⟨_, rfl, by decide⟩
  obtain ⟨-, hself⟩ := start_excluded_iff LogOp.gappedSample ⟨.ofByte 1, 7⟩ ⟨.ofByte 1, 7⟩ range hanswer hexact
  exact ⟨range, hanswer, hexact, by decide, (hself rfl).2 fun hgreatest => absurd hgreatest.1 (by decide)⟩

/-- The only event has the greatest sequence. -/
def LogOp.greatestSample : List LogOp :=
  [.update (.snapshot (.ofByte 1) 0 ∅ ∅),
    .update (.success (.ofByte 1) Sequence.greatest [.lockByte Sequence.greatest 9])]

/-- The log answers exactly, from its position to itself, with the event of the start. -/
theorem sample_start_repeated :
    (EventLog.run LogOp.greatestSample).latest? = some ⟨.ofByte 1, Sequence.greatest⟩ ∧
    ∃ range, (EventLog.run LogOp.greatestSample).query (some ⟨.ofByte 1, Sequence.greatest⟩)
        ⟨.ofByte 1, Sequence.greatest⟩ = .ok range ∧
      range.fromSnapshot = false ∧ range.events = [.lockByte Sequence.greatest 9] ∧
      ∃ e ∈ range.events, ¬Sequence.greatest < e.sequence :=
  ⟨by decide, _, rfl, by decide, by decide, _, List.mem_cons_self, by decide⟩

end LockReplica
