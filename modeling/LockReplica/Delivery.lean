import LockReplica.Polling

/-!
# Deltas in any order

A lock server cuts what it did in an epoch, from some sequence on, into consecutive stretches, and sends every
one of them as a delta, once or more often. Nothing is said about the order in which they arrive.
-/

namespace LockReplica

/-- A stretch of an epoch: what happened after `low`, up to `high`. -/
structure Stretch where
  low : Sequence
  high : Sequence
deriving DecidableEq

namespace Stretch

/-- The stretches from `low` to the first cut and from every cut to the next. -/
def ofCuts (low : Sequence) : List Sequence → List Stretch
  | [] => []
  | high :: cuts => ⟨low, high⟩ :: ofCuts high cuts

/-- A stretch comes on time if it is delivered before all that follow it. -/
def OnTime (d : Stretch) (deliveries : List Stretch) : Prop :=
  ∃ earlier later, deliveries = earlier ++ d :: later ∧ ∀ c ∈ earlier, c.high ≤ d.low

variable {c d : Stretch} {deliveries : List Stretch}

theorem OnTime.mem (h : d.OnTime deliveries) : d ∈ deliveries := by
  obtain ⟨earlier, later, rfl, -⟩ := h
  simp

theorem not_onTime_nil : ¬d.OnTime [] := fun ⟨_, _, h, _⟩ => by simp at h

/-- What comes first is on time, and what comes after it if it follows it. -/
theorem onTime_cons_iff : d.OnTime (c :: deliveries) ↔ d = c ∨ c.high ≤ d.low ∧ d.OnTime deliveries := by
  constructor
  · rintro ⟨earlier, later, h, hlow⟩
    cases earlier with
    | nil => exact .inl (List.cons.inj h).1.symm
    | cons b earlier =>
      obtain ⟨rfl, hrest⟩ := List.cons.inj h
      exact .inr ⟨hlow c List.mem_cons_self, earlier, later, hrest, fun b hb => hlow b (List.mem_cons_of_mem _ hb)⟩
  · rintro (rfl | ⟨hc, earlier, later, rfl, hlow⟩)
    · exact ⟨[], deliveries, rfl, fun _ hb => nomatch hb⟩
    · exact ⟨c :: earlier, later, rfl, List.forall_mem_cons.2 ⟨hc, hlow⟩⟩

instance OnTime.decidable (d : Stretch) : (deliveries : List Stretch) → Decidable (d.OnTime deliveries)
  | [] => .isFalse not_onTime_nil
  | _ :: deliveries =>
    have := OnTime.decidable d deliveries
    decidable_of_iff _ onTime_cons_iff.symm

/-- A last delivery adds at most itself to what is on time. -/
theorem onTime_concat_iff :
    d.OnTime (deliveries ++ [c]) ↔ d.OnTime deliveries ∨ d = c ∧ ∀ b ∈ deliveries, b.high ≤ d.low := by
  induction deliveries with
  | nil => simp [onTime_cons_iff, not_onTime_nil]
  | cons b deliveries ih =>
    rw [List.cons_append, onTime_cons_iff, onTime_cons_iff, ih, List.forall_mem_cons]
    grind

end Stretch

/-- The delta of a stretch: all that the server did in it, and nothing else. -/
def Server.delta (server : Server) (epoch : Epoch) (d : Stretch) : Update :=
  .success epoch d.high (server.between epoch d.low d.high)

end LockReplica
