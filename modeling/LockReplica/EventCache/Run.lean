import LockReplica.EventCache.Watermark
import LockReplica.EventLog.Run

/-!
# Runs of an event cache

A run makes calls on a cache one after the other, beginning with a cache that tracks no transaction, over a
log that knows nothing. Updates that reach the log by another way change nothing but the log, as `update`
does, so they are calls of a run as well.

Over an event log, a call takes in its update, and without one compacts the log at most (`log_step_cases`); it does
that only at a new watermark (`watermark_step_cases`), and nothing but a snapshot leaves a recorded start ahead of
the log (`StartsReached.step`).
-/

namespace LockReplica

universe u

/-- A call on an event cache that may change it or its log. -/
inductive CacheOp where
  | update (u : Update)
  | start (timestamps : SortedSet Timestamp) (u : Update)
  | finish (t : Timestamp)
  | rangesFrom (starts : Table Timestamp (Option Position)) (last : Position)
  | rangesOf (timestamps : SortedSet Timestamp) (last : Position)
  | earliestLive

namespace CacheOp

def update? : CacheOp → Option Update
  | update u | start _ u => some u
  | _ => none

/-- The updates among the calls. -/
def updates (ops : List CacheOp) : List Update := ops.filterMap update?

theorem mem_updates_cons {op : CacheOp} {ops : List CacheOp} {u : Update} :
    u ∈ updates (op :: ops) ↔ u ∈ op.update? ∨ u ∈ updates ops := by
  simp [updates, List.mem_filterMap]

end CacheOp

namespace EventCache

variable {σ : Type u} [LockLog σ]

def step (c : EventCache σ) : CacheOp → EventCache σ
  | .update u => c.update u
  | .start timestamps u => c.start timestamps u
  | .finish t => c.finish t
  | .rangesFrom starts last => (c.rangesFrom starts last).2
  | .rangesOf timestamps last => (c.rangesOf timestamps last).2
  | .earliestLive => c.earliestLive?.2

/-- The cache over any log after the calls. -/
def runOver (config : Config) (log : σ) (ops : List CacheOp) : EventCache σ := ops.foldl step { config, log }

/-- The cache over an event log after the calls. -/
def run (config : Config) (ops : List CacheOp) : EventCache EventLog :=
  ops.foldl step { config, log := .unknown }

theorem run_append_cons (config : Config) (before : List CacheOp) (op : CacheOp) (after : List CacheOp) :
    run config (before ++ op :: after) = after.foldl step ((run config before).step op) := List.foldl_append

theorem run_concat (config : Config) (before : List CacheOp) (op : CacheOp) :
    run config (before ++ [op]) = (run config before).step op := run_append_cons config before op []

/-! ## What a run keeps -/

theorem config_step (c : EventCache σ) (op : CacheOp) : (c.step op).config = c.config := by
  cases op with
  | start timestamps u =>
    simp only [step, start]
    split <;> rfl
  | finish t => exact c.config_finish t
  | update u => rfl
  | rangesFrom starts last => rfl
  | rangesOf timestamps last => rfl
  | earliestLive => rfl

/-- A cache keeps its settings. -/
theorem config_runOver (config : Config) (log : σ) (ops : List CacheOp) : (runOver config log ops).config = config := by
  suffices h : ∀ c : EventCache σ, (ops.foldl step c).config = c.config from h _
  induction ops with
  | nil => exact fun _ => rfl
  | cons op ops ih => exact fun c => (ih (c.step op)).trans (c.config_step op)

/-! ## Over an event log -/

section

variable (c : EventCache EventLog) (op : CacheOp) {p : Position}

/-- The log takes in the update of the call, and without one is at most compacted. -/
theorem log_step_cases : (∃ u ∈ op.update?, (c.step op).log = c.log.update u) ∨
    op.update? = none ∧ ((c.step op).log = c.log ∨ ∃ before, (c.step op).log = c.log.compact before) := by
  cases op with
  | update u => exact .inl ⟨u, rfl, rfl⟩
  | start timestamps u => exact .inl ⟨u, rfl, c.log_start timestamps u⟩
  | finish t =>
    rcases c.log_finish_cases t with ⟨heq, -⟩ | ⟨latest, -, heq, -⟩
    · exact .inr ⟨rfl, .inl heq⟩
    · exact .inr ⟨rfl, .inr ⟨_, heq⟩⟩
  | rangesFrom starts last => exact .inr ⟨rfl, .inl (congrArg log (c.rangesFrom_cache last starts))⟩
  | rangesOf timestamps last => exact .inr ⟨rfl, .inl (congrArg log (c.rangesOf_cache timestamps last))⟩
  | earliestLive => exact .inr ⟨rfl, .inl rfl⟩

/-- The last watermark stays, or the log is compacted at the new one. -/
theorem watermark_step_cases : (c.step op).watermark = c.watermark ∨
    ∃ latest ∈ c.log.latest?, (c.step op).log = c.log.compact ((c.step op).watermarkAt latest) ∧
      (c.step op).watermark = some ((c.step op).watermarkAt latest) := by
  cases op with
  | finish t =>
    rcases c.log_finish_cases t with ⟨-, heq⟩ | ⟨latest, hlatest, hlog, hmark⟩
    · exact .inl heq
    · rw [← watermarkAt_finish] at hlog hmark
      exact .inr ⟨latest, hlatest, hlog, hmark⟩
  | update u => exact .inl rfl
  | start timestamps u => exact .inl (c.watermark_start timestamps u)
  | rangesFrom starts last => exact .inl rfl
  | rangesOf timestamps last => exact .inl rfl
  | earliestLive => exact .inl rfl

/-- A recorded start was recorded before, or is where the call has led the log. -/
theorem mem_starts_step (hp : p ∈ (c.step op).starts.values) :
    p ∈ (c.step op).log.latest? ∨ p ∈ c.starts.values := by
  cases op with
  | start timestamps u =>
    rw [step, log_start]
    exact c.mem_starts_start timestamps u hp
  | finish t =>
    rw [step, starts_finish] at hp
    exact .inr (mem_starts_of_forget hp)
  | update u => exact .inr hp
  | rangesFrom starts last => exact .inr hp
  | rangesOf timestamps last => exact .inr hp
  | earliestLive => exact .inr hp

/-- Only a snapshot may set the log back behind what it has reached. -/
theorem reaches_step (hp : c.log.Reaches p) (hop : ∀ u ∈ op.update?, u.IsSnapshot → (c.log.update u).Reaches p) :
    (c.step op).log.Reaches p := by
  rcases c.log_step_cases op with ⟨u, hu, heq⟩ | ⟨-, heq | ⟨before, heq⟩⟩
  · rw [heq]
    by_cases hsnapshot : u.IsSnapshot
    · exact hop u hu hsnapshot
    · exact hp.update hsnapshot
  · rwa [heq]
  · rw [heq]
    exact EventLog.reaches_compact.2 hp

end

/-- No recorded start is ahead of the log. -/
def StartsReached (c : EventCache EventLog) : Prop := ∀ p ∈ c.starts.values, c.log.Reaches p

namespace StartsReached

variable {c : EventCache EventLog}

theorem step (h : c.StartsReached) (op : CacheOp) (hop : ∀ u ∈ op.update?, ¬u.IsSnapshot) :
    (c.step op).StartsReached := by
  intro p hp
  rcases c.mem_starts_step op hp with hlatest | hold
  · exact EventLog.reaches_of_mem_latest? hlatest
  · exact c.reaches_step op (h p hold) fun u hu hsnapshot => absurd hsnapshot (hop u hu)

theorem finish (h : c.StartsReached) (t : Timestamp) : (c.finish t).StartsReached := h.step (.finish t) nofun

theorem forget (h : c.StartsReached) (t : Timestamp) : (c.forget t).StartsReached :=
  fun p hp => h p (mem_starts_of_forget hp)

/-- If no start is ahead of the log, then no watermark is either. -/
theorem watermarkAt (h : c.StartsReached) {latest : Position} (hlatest : latest ∈ c.log.latest?) :
    c.log.Reaches (c.watermarkAt latest) := by
  intro latest' hlatest' _
  cases Option.mem_unique hlatest hlatest'
  exact watermarkAt_le_latest fun p hp hepoch => h p hp latest hlatest hepoch

end StartsReached

end EventCache

end LockReplica
