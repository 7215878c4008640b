import LockReplica.Proofs.Conservation

/-!
# A reset forgets everything

Fix a run of a log. After a reset (`EventLog.Resets`) the log is as if the update were the first that it ever got
(`update_of_resets`), so that nothing later tells two pasts apart.

* **Silence** (`foldl_step_unknown`): a log that knows no position learns of one from a snapshot only.
* **Subjects** (`Update.Mentions`): what an update speaks of. To fold events into a state adds nothing of which
  neither speaks (`mentions_of_mentions_applyAll`).
* **Sources** (`Replica.DrawsOn`): what a replica retains, and of what its baseline speaks, comes from updates of its
  epoch. New events and compactions keep that (`DrawsOn.extend`, `DrawsOn.compactBelow`), and a log that knows no
  position has nothing to draw on, so from a reset on a log draws on what it is told from there (`drawsOn_run`).
* **Answers** (`DrawsOn.range`): so does what it answers.
-/

namespace LockReplica

/-! ## Subjects -/

/-- What can be locked or watched. -/
inductive Subject where
  | descriptor (d : Descriptor)
  | reference (r : Reference)

/-- The references that an event mentions. -/
def Event.references : Event → ReferenceSet
  | lock .. | unlock .. => ∅
  | watchCreated _ rs _ => rs

def Event.Mentions (e : Event) : Subject → Prop
  | .descriptor d => d ∈ e.descriptors
  | .reference r => r ∈ e.references

def LockState.Mentions (s : LockState) : Subject → Prop
  | .descriptor d => d ∈ s.locked
  | .reference r => r ∈ s.watched

/-- The events that an update delivers. -/
def Update.events : Update → List Event
  | success _ _ events => events
  | snapshot .. | failed _ => []

/-- An update mentions what its events do, or the state that it tells. -/
def Update.Mentions : Update → Subject → Prop
  | success _ _ events, x => ∃ e ∈ events, e.Mentions x
  | snapshot _ _ locked watched, x => LockState.Mentions ⟨locked, watched⟩ x
  | failed _, _ => False

variable {x : Subject}

theorem Update.mentions_of_mem_events {u : Update} {e : Event} (he : e ∈ u.events) (hx : e.Mentions x) :
    u.Mentions x := by
  cases u with
  | success epoch lastKnown events => exact ⟨e, he, hx⟩
  | snapshot epoch lastKnown locked watched => cases he
  | failed epoch => cases he

namespace LockState

variable {s : LockState}

@[simp] theorem mentions_asEvent {n : Sequence} : (s.asEvent n).Mentions x ↔ s.Mentions x := by
  cases x with
  | descriptor d => exact Iff.rfl
  | reference r => exact Iff.rfl

theorem mentions_of_mentions_applyAll {es : List Event} (h : (s.applyAll es).Mentions x) :
    s.Mentions x ∨ ∃ e ∈ es, e.Mentions x := by
  cases x with
  | descriptor d =>
    by_cases hmentioned : ∃ e ∈ es, d ∈ e.descriptors
    · exact .inr hmentioned
    · have hnot : ∀ e ∈ es, d ∉ e.descriptors := fun e he hd => hmentioned ⟨e, he, hd⟩
      exact .inl ((mem_locked_applyAll_of_not_mem hnot).1 h)
  | reference r =>
    rcases mem_watched_applyAll.1 h with hs | ⟨n, rs, ds, he, hr⟩
    · exact .inl hs
    · exact .inr ⟨_, he, hr⟩

end LockState

/-! ## Sources -/

/-- What a replica retains was delivered by updates of its epoch, and what its baseline mentions, such updates do. -/
structure Replica.DrawsOn (r : Replica) (us : List Update) : Prop where
  retained : ∀ e ∈ r.retained, ∃ u ∈ us, u.epoch = r.epoch ∧ e ∈ u.events
  baseline : ∀ x, r.baseline.Mentions x → ∃ u ∈ us, u.epoch = r.epoch ∧ u.Mentions x

/-- The replica of a log, if it has one, draws on updates of its epoch. -/
def EventLog.DrawsOn (log : EventLog) (us : List Update) : Prop := ∀ r, log = .known r → r.DrawsOn us

/-- What an answer lists was delivered by updates of an epoch, and what it mentions, in the event for the state
before as well, such updates do. -/
structure EventRange.DrawsOn (range : EventRange) (epoch : Epoch) (us : List Update) : Prop where
  rest : ∀ e ∈ range.rest, ∃ u ∈ us, u.epoch = epoch ∧ e ∈ u.events
  mentions : ∀ e ∈ range.events, ∀ x, e.Mentions x → ∃ u ∈ us, u.epoch = epoch ∧ u.Mentions x

namespace Replica

variable {r : Replica} {us : List Update} {e : Event}

theorem drawsOn_ofSnapshot {epoch : Epoch} {lastKnown : Sequence} {locked : DescriptorSet} {watched : ReferenceSet}
    (hu : .snapshot epoch lastKnown locked watched ∈ us) :
    (ofSnapshot ⟨epoch, lastKnown⟩ ⟨locked, watched⟩).DrawsOn us where
  retained _ he := absurd he Ascending.not_mem_empty
  baseline _ hx := ⟨_, hu, rfl, hx⟩

namespace DrawsOn

theorem mentions (h : r.DrawsOn us) (he : e ∈ r.retained) (hx : e.Mentions x) :
    ∃ u ∈ us, u.epoch = r.epoch ∧ u.Mentions x := by
  obtain ⟨u, hu, hepoch, hevent⟩ := h.retained e he
  exact ⟨u, hu, hepoch, Update.mentions_of_mem_events hevent hx⟩

theorem extend (h : r.DrawsOn us) {lastKnown : Sequence} {events : List Event}
    (hu : .success r.epoch lastKnown events ∈ us) : (r.extend lastKnown events).DrawsOn us where
  retained e he := by
    rw [epoch_extend]
    rcases mem_retained_extend he with hold | ⟨hnew, -⟩
    · exact h.retained e hold
    · exact ⟨_, hu, rfl, hnew⟩
  baseline x hx := by
    have hbase : (r.extend lastKnown events).baseline = r.baseline := by
      unfold Replica.extend
      split <;> rfl
    rw [epoch_extend]
    exact h.baseline x (hbase ▸ hx)

/-- What is folded away was drawn on before. -/
theorem compactBelow (h : r.DrawsOn us) (n : Sequence) : (r.compactBelow n).DrawsOn us where
  retained e he := h.retained e (mem_retained_compactBelow.1 he).1
  baseline x hx := by
    rcases LockState.mentions_of_mentions_applyAll hx with hold | ⟨e, he, hx⟩
    · exact h.baseline x hold
    · exact h.mentions (Ascending.mem_filter.1 he).1 hx

theorem range (h : r.DrawsOn us) (start : Option Position) (last : Sequence) :
    (r.range start last).DrawsOn r.epoch us := by
  rcases r.range_cases start last with ⟨p, -, -, heq⟩ | ⟨-, heq⟩
  · rw [heq]
    exact ⟨fun e he => h.retained e (mem_eventsIn.1 he).1, fun e he x hx => h.mentions (mem_eventsIn.1 he).1 hx⟩
  · rw [heq]
    refine ⟨fun e he => h.retained e (mem_eventsUpTo.1 he).1, fun e he x hx => ?_⟩
    rcases List.mem_cons.1 he with rfl | he
    · exact h.baseline x (LockState.mentions_asEvent.1 hx)
    · exact h.mentions (mem_eventsUpTo.1 he).1 hx

end DrawsOn

end Replica

namespace EventLog

variable {log : EventLog} {us : List Update} {u : Update} {ops : List LogOp}

theorem drawsOn_unknown (us : List Update) : unknown.DrawsOn us := nofun

theorem DrawsOn.step (h : log.DrawsOn us) (op : LogOp) (hop : ∀ u ∈ op.update?, u ∈ us) :
    (log.step op).DrawsOn us := by
  cases op with
  | compact before =>
    cases log with
    | unknown => exact h
    | known r =>
      rintro r' hr'
      rw [EventLog.step, compact] at hr'
      split at hr'
      · cases hr'
        exact (h r rfl).compactBelow _
      · cases hr'
        exact h r rfl
  | update u =>
    cases u with
    | failed epoch => exact drawsOn_unknown us
    | snapshot epoch lastKnown locked watched =>
      rintro r' hr'
      cases hr'
      exact Replica.drawsOn_ofSnapshot (hop _ rfl)
    | success epoch lastKnown events =>
      cases log with
      | unknown => exact h
      | known r =>
        rintro r' hr'
        rw [EventLog.step, update, deliver] at hr'
        split at hr'
        · cases hr'
          subst epoch
          exact (h r rfl).extend (hop _ rfl)
        · cases hr'

theorem DrawsOn.foldl (h : log.DrawsOn us) (hops : ∀ u ∈ LogOp.updates ops, u ∈ us) :
    (ops.foldl EventLog.step log).DrawsOn us := by
  induction ops generalizing log with
  | nil => exact h
  | cons op ops ih =>
    exact ih (h.step op fun u hu => hops u (LogOp.mem_updates_cons.2 (.inl hu)))
      fun u hu => hops u (LogOp.mem_updates_cons.2 (.inr hu))

/-! ## Resets -/

/-- After a reset nothing is left of what the log was told before. -/
theorem update_of_resets (h : log.Resets u) : log.update u = unknown.update u := by
  cases u with
  | failed epoch => rfl
  | snapshot epoch lastKnown locked watched => rfl
  | success epoch lastKnown events =>
    cases log with
    | unknown => rfl
    | known r =>
      have hepoch : epoch ≠ r.epoch := fun heq => h (congrArg some heq.symm)
      exact if_neg hepoch

theorem update_unknown (hu : ¬u.IsSnapshot) : unknown.update u = unknown := by
  cases u with
  | failed epoch => rfl
  | snapshot epoch lastKnown locked watched => exact absurd trivial hu
  | success epoch lastKnown events => rfl

/-- A log that knows no position learns of one from a snapshot only. -/
theorem foldl_step_unknown (hops : ∀ u ∈ LogOp.updates ops, ¬u.IsSnapshot) : ops.foldl step unknown = unknown := by
  induction ops with
  | nil => rfl
  | cons op ops ih =>
    cases op with
    | compact before => exact ih hops
    | update u =>
      have hu : unknown.step (.update u) = unknown := update_unknown (hops u List.mem_cons_self)
      rw [List.foldl_cons, hu]
      exact ih fun v hv => hops v (List.mem_cons_of_mem _ hv)

theorem eq_unknown_of_latest?_eq_none (h : log.latest? = none) : log = unknown := by
  cases log with
  | unknown => rfl
  | known r => cases h

theorem run_of_resets {before : List LogOp} (h : (run before).Resets u) (after : List LogOp) :
    run (before ++ .update u :: after) = after.foldl step (unknown.update u) := by
  rw [run_append_cons, step, update_of_resets h]

/-- What a log is told from a reset on; of another reset than a snapshot it keeps nothing. -/
def toldFrom (u : Update) (after : List LogOp) : List Update :=
  (if u.IsSnapshot then [u] else []) ++ LogOp.updates after

theorem drawsOn_run {before : List LogOp} (h : (run before).Resets u) (after : List LogOp) :
    (run (before ++ .update u :: after)).DrawsOn (toldFrom u after) := by
  have hreset : (unknown.update u).DrawsOn (toldFrom u after) := by
    by_cases hu : u.IsSnapshot
    · refine (drawsOn_unknown _).step (.update u) fun v hv => ?_
      cases hv
      rw [toldFrom, if_pos hu]
      exact List.mem_cons_self
    · rw [update_unknown hu]
      exact drawsOn_unknown _
  rw [run_of_resets h]
  exact hreset.foldl fun v hv => List.mem_append_right _ hv

/-- Answers draw on what the log does, and are of its epoch. -/
theorem DrawsOn.query (h : log.DrawsOn us) {start : Option Position} {last : Position} {range : EventRange}
    (hanswer : log.query start last = .ok range) : range.DrawsOn last.epoch us := by
  obtain ⟨r, hlog, hlast, rfl⟩ := query_eq_ok_iff.1 hanswer
  have hepoch : last.epoch = r.epoch := hlast.1
  rw [hepoch]
  exact (h r hlog).range start last.sequence

end EventLog

open EventLog

/-- **A reset forgets everything**: two logs with any pasts are equal from a reset on, so that they answer alike
whatever comes; unless it is a snapshot, the reset leaves the log that knows nothing, and that learns of no position
and retains nothing until a snapshot comes; and what a log holds and answers later comes from updates from the reset
on, of its own epoch. -/
theorem reset_forgets :
    (∀ (before before' : List LogOp) (u : Update) (after : List LogOp), (run before).Resets u → (run before').Resets u →
      run (before ++ .update u :: after) = run (before' ++ .update u :: after)) ∧
    (∀ (before : List LogOp) (u : Update), (run before).Resets u → ¬u.IsSnapshot →
      run (before ++ [.update u]) = run []) ∧
    (∀ (log : EventLog) (ops : List LogOp), log.latest? = none → (∀ u ∈ LogOp.updates ops, ¬u.IsSnapshot) →
      (ops.foldl step log).latest? = none ∧ (ops.foldl step log).retained = ∅ ∧ (ops.foldl step log).baseline = ∅) ∧
    ∀ (before : List LogOp) (u : Update) (after : List LogOp), (run before).Resets u →
      (run (before ++ .update u :: after)).DrawsOn (toldFrom u after) ∧
      ∀ start last range, (run (before ++ .update u :: after)).query start last = .ok range →
        range.DrawsOn last.epoch (toldFrom u after) := by
  refine ⟨fun before before' u after h h' => ?_, fun before u h hu => ?_, fun log ops hlog hops => ?_,
    fun before u after h => ⟨drawsOn_run h after, fun start last range => (drawsOn_run h after).query⟩⟩
  · rw [run_of_resets h, run_of_resets h']
  · exact (run_of_resets h []).trans (update_unknown hu)
  · cases eq_unknown_of_latest?_eq_none hlog
    rw [foldl_step_unknown hops]
    exact ⟨rfl, rfl, rfl⟩

namespace EventLog

/-- Locks of the first epoch are folded away before its leader changes. -/
def samplePast : List LogOp :=
  [.update (.snapshot (.ofByte 1) 0 (.ofList [⟨[1]⟩]) ∅), .update (.success (.ofByte 1) 2 [.lockByte 2 2]),
    .compact ⟨.ofByte 1, 3⟩]

/-- The new leader tells the state, and the first of two locks is folded away. -/
def sampleFuture : List LogOp :=
  [.update (.snapshot (.ofByte 2) 4 (.ofList [⟨[4]⟩]) ∅),
    .update (.success (.ofByte 2) 6 [.lockByte 6 6, .lockByte 5 5]), .compact ⟨.ofByte 2, 6⟩]

/-- The first events of a new leader reset the log, with a past and without one. -/
theorem sample_reset_forgets :
    let u := Update.success (.ofByte 2) 3 [.lockByte 3 3]
    (run samplePast).current ≠ ∅ ∧ run (samplePast ++ [.update u]) = run [] ∧
      run (samplePast ++ .update u :: sampleFuture) = run ([] ++ .update u :: sampleFuture) ∧
      ([.update u, .compact ⟨.ofByte 2, 1⟩].foldl step unknown).latest? = none ∧
      ∃ range, (run (samplePast ++ .update u :: sampleFuture)).query none ⟨.ofByte 2, 6⟩ = .ok range ∧
        range.touched = .ofList [⟨[4]⟩, ⟨[5]⟩, ⟨[6]⟩] ∧ range.DrawsOn (.ofByte 2) (toldFrom u sampleFuture) :=
  ⟨by decide, reset_forgets.2.1 samplePast _ (by decide) (by decide),
    reset_forgets.1 samplePast [] _ sampleFuture (by decide) (by decide),
    (reset_forgets.2.2.1 unknown _ rfl (by decide)).1, _, rfl, by decide,
    (reset_forgets.2.2.2 samplePast _ sampleFuture (by decide)).2 none ⟨.ofByte 2, 6⟩ _ rfl⟩

end EventLog

end LockReplica
