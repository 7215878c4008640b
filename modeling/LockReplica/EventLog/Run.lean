import LockReplica.EventLog.Basic

/-!
# Runs of an event log

Updates and compactions are the calls that change a log; a run makes them one after the other, from the log
that knows nothing.
-/

namespace LockReplica

/-- A call that changes an event log. -/
inductive LogOp where
  | update (u : Update)
  | compact (before : Position)
deriving DecidableEq

namespace LogOp

def update? : LogOp → Option Update
  | update u => some u
  | compact _ => none

/-- The updates among the calls. -/
def updates (ops : List LogOp) : List Update := ops.filterMap update?

theorem mem_updates_cons {op : LogOp} {ops : List LogOp} {u : Update} :
    u ∈ updates (op :: ops) ↔ u ∈ op.update? ∨ u ∈ updates ops := by
  simp [updates, List.mem_filterMap]

theorem updates_concat (ops : List LogOp) (op : LogOp) : updates (ops ++ [op]) = updates ops ++ op.update?.toList := by
  rw [updates, List.filterMap_append]
  cases h : op.update? <;> simp [updates, h]

end LogOp

namespace EventLog

def step (log : EventLog) : LogOp → EventLog
  | .update u => log.update u
  | .compact before => log.compact before

/-- The log after the calls. -/
def run (ops : List LogOp) : EventLog := ops.foldl step unknown

theorem run_append_cons (before : List LogOp) (op : LogOp) (after : List LogOp) :
    run (before ++ op :: after) = after.foldl step ((run before).step op) := List.foldl_append

theorem run_concat (before : List LogOp) (op : LogOp) : run (before ++ [op]) = (run before).step op :=
  run_append_cons before op []

/-! ## Kinds of updates -/

/-- The update makes the log forget what it was told: it is a snapshot, a failure, or comes from a leader whose
events the log does not follow. -/
def Resets (log : EventLog) : Update → Prop
  | .success epoch .. => log.latest?.map Position.epoch ≠ some epoch
  | .snapshot .. | .failed _ => True

/-- Of the events above the position of the log, those that the update has leave no sequence out. -/
def Gapless (log : EventLog) : Update → Prop
  | .success epoch lastKnown events =>
    ∀ p ∈ log.latest?, p.epoch = epoch → p.sequence < lastKnown →
      ∀ e ∈ events, ∀ n, p.sequence < n → n ≤ e.sequence → ∃ d ∈ events, d.sequence = n
  | .snapshot .. | .failed _ => True

instance (log : EventLog) (u : Update) : Decidable (log.Resets u) :=
  match u with
  | .success epoch .. => inferInstanceAs (Decidable (log.latest?.map Position.epoch ≠ some epoch))
  | .snapshot .. | .failed _ => .isTrue trivial

/-- A call after which the log still follows the leader that it followed before. -/
def Continues (log : EventLog) (op : LogOp) : Prop := ∀ u ∈ op.update?, ¬log.Resets u

instance (log : EventLog) (op : LogOp) : Decidable (log.Continues op) :=
  inferInstanceAs (Decidable (∀ u ∈ op.update?, ¬log.Resets u))

/-- Gaps are looked for below each of the events. -/
theorem gapless_success_iff {log : EventLog} {epoch : Epoch} {lastKnown : Sequence} {events : List Event} :
    log.Gapless (.success epoch lastKnown events) ↔
      ∀ p ∈ log.latest?, p.epoch = epoch → p.sequence < lastKnown →
        ∀ e ∈ events, ∀ n < e.sequence.toNat, p.sequence.toNat ≤ n → ∃ d ∈ events, d.sequence.toNat = n + 1 := by
  constructor
  · intro h p hp hepoch hadvance e he n hn hpn
    have hofNat : (UInt64.ofNat (n + 1)).toNat = n + 1 := Sequence.toNat_ofNat_of_le hn
    obtain ⟨d, hd, hdn⟩ := h p hp hepoch hadvance e he (UInt64.ofNat (n + 1))
      (UInt64.lt_iff_toNat_lt.2 (by omega)) (UInt64.le_iff_toNat_le.2 (by omega))
    exact ⟨d, hd, by rw [hdn, hofNat]⟩
  · intro h p hp hepoch hadvance e he n hpn hn
    have hpn := UInt64.lt_iff_toNat_lt.1 hpn
    have hn := UInt64.le_iff_toNat_le.1 hn
    obtain ⟨d, hd, hdn⟩ := h p hp hepoch hadvance e he (n.toNat - 1) (by omega) (by omega)
    exact ⟨d, hd, UInt64.toNat_inj.1 (by omega)⟩

instance (log : EventLog) (u : Update) : Decidable (log.Gapless u) :=
  match u with
  | .success .. => decidable_of_iff _ gapless_success_iff.symm
  | .snapshot .. | .failed _ => .isTrue trivial

/-! ## Moving forward -/

/-- An update that does not reset a log extends its replica. -/
theorem exists_extend_of_not_resets {log : EventLog} {u : Update} (h : ¬log.Resets u) :
    ∃ r lastKnown events, log = known r ∧ u = .success r.epoch lastKnown events ∧
      log.update u = known (r.extend lastKnown events) := by
  cases u with
  | snapshot epoch lastKnown locked watched => exact absurd trivial h
  | failed epoch => exact absurd trivial h
  | success epoch lastKnown events =>
    have hepoch : log.latest?.map Position.epoch = some epoch := Decidable.byContradiction h
    cases log with
    | unknown => cases hepoch
    | known r =>
      cases hepoch
      exact ⟨r, lastKnown, events, rfl, rfl, if_pos rfl⟩

/-- The position of a log that goes on moves forward only. -/
theorem exists_le_latest?_step {log : EventLog} {op : LogOp} {p : Position} (hp : p ∈ log.latest?)
    (hop : log.Continues op) : ∃ q ∈ (log.step op).latest?, p ≤ q := by
  cases op with
  | compact before => exact ⟨p, by rwa [step, latest?_compact], p.le_refl⟩
  | update u =>
    obtain ⟨r, lastKnown, events, rfl, -, heq⟩ := exists_extend_of_not_resets (hop u rfl)
    cases hp
    refine ⟨(r.extend lastKnown events).latest, ?_, r.latest_le_extend lastKnown events⟩
    rw [step, heq]
    rfl

end EventLog

end LockReplica
