import LockReplica.EventRange
import LockReplica.LockState
import LockReplica.Timeline
import LockReplica.Update

/-!
# What an epoch has told

Fix a list of updates. The history that they tell is the last snapshot with all events accepted since: an
event is accepted from a success under the epoch of the snapshot that reaches above the position, if it is
above the position itself, and of several with one sequence the last counts. No event leaves a history, so
it knows the state at every sequence (`stateAt`), whatever a log of the same updates has compacted.
-/

namespace LockReplica

/-- A snapshot and the events accepted since. -/
structure History where
  origin : Position
  /-- What was locked and watched at the origin. -/
  state : LockState
  accepted : Timeline := ∅
deriving DecidableEq

namespace History

def epoch (h : History) : Epoch := h.origin.epoch

/-- The position of the highest accepted event, or of the snapshot if that is higher. -/
def latest (h : History) : Position :=
  { h.origin with sequence := Timeline.highest h.origin.sequence h.accepted }

/-- The history with the events that are above its position. -/
def accept (h : History) (events : List Event) : History :=
  { h with accepted := h.accepted.insertAll (events.filter fun e => h.latest.sequence < e.sequence) }

/-- The history after an update; without a snapshot there is none. -/
def update (told : Option History) : Update → Option History
  | .success epoch lastKnown events =>
    told.bind fun h =>
      if epoch = h.epoch then some (if lastKnown ≤ h.latest.sequence then h else h.accept events) else none
  | .snapshot epoch lastKnown locked watched =>
    some { origin := ⟨epoch, lastKnown⟩, state := ⟨locked, watched⟩ }
  | .failed _ => none

/-- The history that updates tell. -/
def run (updates : List Update) : Option History := updates.foldl update none

/-- The state after the event of a sequence. -/
def stateAt (h : History) (n : Sequence) : LockState :=
  h.state.applyAll (h.accepted.filter fun e => e.sequence ≤ n).toList

/-- The state that an answer leads to: a rooted one from nothing, an exact one from the state at its start. -/
def reconstruct (h : History) (start : Option Position) (range : EventRange) : LockState :=
  (if range.fromSnapshot then ∅ else start.elim ∅ fun p => h.stateAt p.sequence).applyAll range.events

variable {h : History} {e : Event}

@[simp] theorem epoch_latest (h : History) : h.latest.epoch = h.epoch := rfl

@[simp] theorem epoch_accept (h : History) (events : List Event) : (h.accept events).epoch = h.epoch := rfl

theorem origin_le_latest (h : History) : h.origin.sequence ≤ h.latest.sequence :=
  Timeline.le_highest _ _

theorem le_latest_of_mem (he : e ∈ h.accepted) : e.sequence ≤ h.latest.sequence :=
  Timeline.le_highest_of_mem he

/-- Every event below the new ones stays. -/
theorem mem_accept_of_mem {events : List Event} (he : e ∈ h.accepted) : e ∈ (h.accept events).accepted := by
  refine Ascending.mem_insertAll_of_mem he ?_
  intro d hd heq
  have hlt : h.latest.sequence < d.sequence := by simpa using (List.mem_filter.1 hd).2
  exact UInt64.lt_irrefl _ (UInt64.lt_of_lt_of_le hlt (heq ▸ le_latest_of_mem he))

/-- What is accepted was there or is new. -/
theorem mem_accept {events : List Event} (he : e ∈ (h.accept events).accepted) :
    e ∈ h.accepted ∨ e ∈ events ∧ h.latest.sequence < e.sequence := by
  refine (Ascending.mem_or_mem_of_mem_insertAll he).imp_right ?_
  intro hf
  simpa using List.mem_filter.1 hf

/-- If equal sequences belong to equal new events, then all those above the position are accepted. -/
theorem mem_accept_iff {events : List Event}
    (hinj : ∀ d ∈ events, ∀ e ∈ events, d.sequence = e.sequence → d = e) :
    e ∈ (h.accept events).accepted ↔ e ∈ h.accepted ∨ e ∈ events ∧ h.latest.sequence < e.sequence := by
  have hnew : ∀ d, d ∈ events.filter (fun e => h.latest.sequence < e.sequence) ↔
      d ∈ events ∧ h.latest.sequence < d.sequence := fun d => by simp
  rw [accept, Ascending.mem_insertAll_iff_of_inj (fun d hd e he => hinj d ((hnew d).1 hd).1 e ((hnew e).1 he).1), hnew]
  intro d hd e he hde
  exact absurd ((hnew d).1 hd).2 (UInt64.not_lt.2 (hde ▸ le_latest_of_mem he))

/-- New events never move the position back. -/
theorem latest_le_accept (h : History) (events : List Event) :
    h.latest.sequence ≤ (h.accept events).latest.sequence := by
  rcases (Timeline.highest_spec h.origin.sequence h.accepted).2.2 with heq | ⟨e, he, heq⟩
  · have : h.latest.sequence = h.origin.sequence := heq
    rw [this]
    exact origin_le_latest (h.accept events)
  · have : e.sequence = h.latest.sequence := heq
    rw [← this]
    exact le_latest_of_mem (mem_accept_of_mem he)

/-- From one state to a later one by the accepted events in between. -/
theorem applyAll_stateAt (h : History) {n m : Sequence} (hnm : n ≤ m) :
    (h.stateAt n).applyAll (h.accepted.filter fun e => n < e.sequence && e.sequence ≤ m).toList = h.stateAt m := by
  rw [stateAt, stateAt, ← LockState.applyAll_append, Timeline.upTo_append_between _ hnm]

/-- The last accepted event changes nothing in a state that has seen it. -/
theorem apply_stateAt {n : Sequence} (he : e ∈ h.accepted) (hn : e.sequence ≤ n)
    (hlast : ∀ d ∈ h.accepted, d.sequence ≤ e.sequence) : (h.stateAt n).apply e = h.stateAt n := by
  have hmem : e ∈ h.accepted.filter fun d => d.sequence ≤ n := Ascending.mem_filter.2 ⟨he, decide_eq_true hn⟩
  cases hl : (h.accepted.filter fun d => d.sequence ≤ n).last? with
  | none => exact absurd hmem (Ascending.last?_eq_none_iff.1 hl e)
  | some d =>
    obtain ⟨hd, hmax⟩ := Ascending.mem_of_last?_eq_some hl
    have hed : e = d := by
      rcases hmax e hmem with heq | hlt
      · exact heq
      · exact absurd (Std.compare_eq_lt.1 hlt) (UInt64.not_lt.2 (hlast d (Ascending.mem_filter.1 hd).1))
    obtain ⟨l, hsplit⟩ := List.getLast?_eq_some_iff.1 hl
    rw [stateAt, hsplit, hed, LockState.applyAll_append]
    exact LockState.apply_apply _ _

end History

end LockReplica
