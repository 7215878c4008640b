import LockReplica.Ascending.Lemmas
import LockReplica.Event

/-!
# Lock states

What is locked and what is watched at a point of the log, and how events change it. Watches are only
ever added (`mem_watched_applyAll`); the last event that mentions a descriptor decides whether it is locked
(`mem_locked_applyAll`).
-/

namespace LockReplica

/-! ## The last mention -/

namespace Event

variable {es fs : List Event} {d : Descriptor}

theorem lastMention?_eq_none_iff : lastMention? es d = none ↔ ∀ e ∈ es, d ∉ e.descriptors := by
  simp [lastMention?]

theorem lastMention?_append : lastMention? (es ++ fs) d = (lastMention? fs d).or (lastMention? es d) := by
  rw [lastMention?, List.filter_append, List.getLast?_append]
  rfl

theorem lastMention?_cons {e : Event} :
    lastMention? (e :: es) d = (lastMention? es d).or (if d ∈ e.descriptors then some e else none) := by
  rw [← List.singleton_append, lastMention?_append]
  by_cases hd : d ∈ e.descriptors <;> simp [lastMention?, hd]

end Event

/-- What is locked and what is watched. -/
structure LockState where
  locked : DescriptorSet := ∅
  watched : ReferenceSet := ∅
deriving DecidableEq

namespace LockState

/-- The state in which nothing is locked or watched. -/
def empty : LockState := {}

instance : EmptyCollection LockState := ⟨empty⟩

/-- The state after an event. -/
def apply (s : LockState) : Event → LockState
  | .lock _ ds _ => { s with locked := s.locked ∪ ds }
  | .unlock _ ds => { s with locked := s.locked \ ds }
  | .watchCreated _ rs ds => { locked := s.locked ∪ ds, watched := s.watched ∪ rs }

/-- The state after a list of events. -/
def applyAll (s : LockState) (events : List Event) : LockState := events.foldl apply s

/-- The state as one event, which makes it out of the empty state. -/
def asEvent (s : LockState) (sequence : Sequence) : Event := .watchCreated sequence s.watched s.locked

/-- Whether nothing is locked or watched. -/
def isEmpty (s : LockState) : Bool := s.locked.isEmpty && s.watched.isEmpty

/-- Two states with the same locks and watches are the same. -/
theorem ext_mem {s t : LockState} (hlocked : ∀ d, d ∈ s.locked ↔ d ∈ t.locked)
    (hwatched : ∀ r, r ∈ s.watched ↔ r ∈ t.watched) : s = t := by
  cases s
  cases t
  cases Ascending.ext_mem hlocked
  cases Ascending.ext_mem hwatched
  rfl

/-! ## One event -/

section

variable {s : LockState} {n : Sequence} {ds : DescriptorSet} {rs : ReferenceSet} {t : Token}

@[simp] theorem mem_locked_apply_lock {d : Descriptor} :
    d ∈ (s.apply (.lock n ds t)).locked ↔ d ∈ s.locked ∨ d ∈ ds := SortedSet.mem_union

@[simp] theorem mem_locked_apply_unlock {d : Descriptor} :
    d ∈ (s.apply (.unlock n ds)).locked ↔ d ∈ s.locked ∧ d ∉ ds := SortedSet.mem_sdiff

@[simp] theorem mem_locked_apply_watchCreated {d : Descriptor} :
    d ∈ (s.apply (.watchCreated n rs ds)).locked ↔ d ∈ s.locked ∨ d ∈ ds := SortedSet.mem_union

@[simp] theorem watched_apply_lock : (s.apply (.lock n ds t)).watched = s.watched := rfl

@[simp] theorem watched_apply_unlock : (s.apply (.unlock n ds)).watched = s.watched := rfl

@[simp] theorem mem_watched_apply_watchCreated {r : Reference} :
    r ∈ (s.apply (.watchCreated n rs ds)).watched ↔ r ∈ s.watched ∨ r ∈ rs := SortedSet.mem_union

/-- An event leaves alone what it does not mention. -/
theorem mem_locked_apply_of_not_mem {e : Event} {d : Descriptor} (hd : d ∉ e.descriptors) :
    d ∈ (s.apply e).locked ↔ d ∈ s.locked := by
  cases e with
  | lock n ds t => exact mem_locked_apply_lock.trans (or_iff_left hd)
  | unlock n ds => exact mem_locked_apply_unlock.trans (and_iff_left hd)
  | watchCreated n rs ds => exact mem_locked_apply_watchCreated.trans (or_iff_left hd)

/-- An event decides whether what it mentions is locked. -/
theorem mem_locked_apply_of_mem {e : Event} {d : Descriptor} (hd : d ∈ e.descriptors) :
    d ∈ (s.apply e).locked ↔ e.Locks := by
  cases e with
  | lock n ds t => exact mem_locked_apply_lock.trans (iff_of_true (.inr hd) trivial)
  | unlock n ds => exact mem_locked_apply_unlock.trans (iff_of_false (fun h => h.2 hd) id)
  | watchCreated n rs ds => exact mem_locked_apply_watchCreated.trans (iff_of_true (.inr hd) trivial)

theorem mem_watched_apply {e : Event} {r : Reference} :
    r ∈ (s.apply e).watched ↔ r ∈ s.watched ∨ ∃ n rs ds, e = .watchCreated n rs ds ∧ r ∈ rs := by
  cases e with
  | lock n ds t => simp
  | unlock n ds => simp
  | watchCreated n rs ds =>
    rw [mem_watched_apply_watchCreated]
    refine or_congr_right ⟨fun hr => ⟨n, rs, ds, rfl, hr⟩, ?_⟩
    rintro ⟨_, _, _, heq, hr⟩
    cases heq
    exact hr

end

/-! ## Folding -/

@[simp] theorem applyAll_nil (s : LockState) : s.applyAll [] = s := rfl

@[simp] theorem applyAll_cons (s : LockState) (e : Event) (es : List Event) :
    s.applyAll (e :: es) = (s.apply e).applyAll es := rfl

theorem applyAll_append (s : LockState) (es fs : List Event) :
    s.applyAll (es ++ fs) = (s.applyAll es).applyAll fs := List.foldl_append

/-- The state as an event makes the state out of the empty one. -/
@[simp] theorem apply_empty_asEvent (s : LockState) (n : Sequence) : (∅ : LockState).apply (s.asEvent n) = s := by
  have hempty : (∅ : LockState).locked = ∅ ∧ (∅ : LockState).watched = ∅ := ⟨rfl, rfl⟩
  exact ext_mem (fun d => by simp [asEvent, hempty]) fun r => by simp [asEvent, hempty]

section

open Event (lastMention?)

variable {s : LockState} {es fs : List Event} {d : Descriptor} {r : Reference}

/-- The last event that mentions a descriptor decides whether it is locked. -/
theorem mem_locked_applyAll :
    d ∈ (s.applyAll es).locked ↔ (lastMention? es d).elim (d ∈ s.locked) Event.Locks := by
  induction es generalizing s with
  | nil => exact Iff.rfl
  | cons e es ih =>
    rw [applyAll_cons, ih, Event.lastMention?_cons]
    cases lastMention? es d with
    | some f => exact Iff.rfl
    | none =>
      by_cases hd : d ∈ e.descriptors
      · simpa [hd] using mem_locked_apply_of_mem hd
      · simpa [hd] using mem_locked_apply_of_not_mem hd

/-- Watches are only ever added. -/
theorem mem_watched_applyAll :
    r ∈ (s.applyAll es).watched ↔ r ∈ s.watched ∨ ∃ n rs ds, .watchCreated n rs ds ∈ es ∧ r ∈ rs := by
  induction es generalizing s with
  | nil => simp
  | cons e es ih =>
    rw [applyAll_cons, ih, mem_watched_apply]
    grind

/-- Events leave alone what none of them mentions. -/
theorem mem_locked_applyAll_of_not_mem (hd : ∀ e ∈ es, d ∉ e.descriptors) :
    d ∈ (s.applyAll es).locked ↔ d ∈ s.locked := by
  rw [mem_locked_applyAll, Event.lastMention?_eq_none_iff.2 hd]
  rfl

/-- Where the same events come, in orders that agree on the last mention of every descriptor, they make the same
state. -/
theorem applyAll_congr (hlast : ∀ d, lastMention? es d = lastMention? fs d) (hmem : ∀ e, e ∈ es ↔ e ∈ fs) :
    s.applyAll es = s.applyAll fs := by
  refine ext_mem (fun d => ?_) fun r => ?_
  · rw [mem_locked_applyAll, mem_locked_applyAll, hlast d]
  · simp only [mem_watched_applyAll, hmem]

/-- Events that come again in the same order change nothing. -/
theorem applyAll_applyAll (s : LockState) (es : List Event) : (s.applyAll es).applyAll es = s.applyAll es := by
  rw [← applyAll_append]
  refine applyAll_congr (fun d => ?_) fun e => ?_
  · rw [Event.lastMention?_append, Option.or_self]
  · rw [List.mem_append, or_self]

/-- An event that follows itself changes nothing. -/
theorem apply_apply (s : LockState) (e : Event) : (s.apply e).apply e = s.apply e := applyAll_applyAll s [e]

end

end LockState

end LockReplica
