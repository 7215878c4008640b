import LockReplica.Proofs.Conservation

/-!
# Replayed events and the last mention

Fix a state and a list of events that is folded into it. For each descriptor only the last event that mentions it
matters (`LockState.mem_locked_applyAll`), and for each reference only whether it is ever registered
(`LockState.mem_watched_applyAll`). A stretch of events that comes again right after itself changes neither
(`LockState.applyAll_applyAll`), though a single event of it that comes again may.
-/

namespace LockReplica

open Event (lastMention?)

/-- **The last mention decides**: after any events a descriptor is locked if the last of them that mentions it locks
it, or if none mentions it and it was locked before, and a reference is watched if it was before or is registered by one
of them. So a stretch of events that overlaps with itself makes no difference to what comes out, and what comes out is
made again by the one event that tells it. -/
theorem last_mention_decides (s : LockState) :
    (∀ (es : List Event) (d : Descriptor), d ∈ (s.applyAll es).locked ↔
      (∃ e, lastMention? es d = some e ∧ e.Locks) ∨ (∀ e ∈ es, d ∉ e.descriptors) ∧ d ∈ s.locked) ∧
    (∀ (es : List Event) (r : Reference), r ∈ (s.applyAll es).watched ↔
      r ∈ s.watched ∨ ∃ n rs ds, .watchCreated n rs ds ∈ es ∧ r ∈ rs) ∧
    (∀ es fs gs : List Event,
      (((s.applyAll es).applyAll fs).applyAll fs).applyAll gs = ((s.applyAll es).applyAll fs).applyAll gs) ∧
    ∀ (es : List Event) (n : Sequence), (∅ : LockState).apply ((s.applyAll es).asEvent n) = s.applyAll es := by
  refine ⟨fun es d => ?_, fun es r => LockState.mem_watched_applyAll, fun es fs gs => ?_,
    fun es n => LockState.apply_empty_asEvent _ n⟩
  · rw [LockState.mem_locked_applyAll, ← Event.lastMention?_eq_none_iff]
    cases lastMention? es d with
    | none => simp
    | some e => simp
  · rw [LockState.applyAll_applyAll (s.applyAll es) fs]

-- the lock alone that comes again after its release takes effect, and both together do not
example :
    let lock := Event.lockByte 1 1
    let release := Event.unlock 2 (.ofList [⟨[1]⟩])
    let state := (∅ : LockState).applyAll [lock, release]
    state = ∅ ∧ state.apply lock ≠ state ∧ state.applyAll [lock, release] = state := by decide

end LockReplica
