import LockReplica.EventCache.Run
import LockReplica.Proofs.Conservation
import LockReplica.Run

/-!
# The order in which transactions finish does not matter

Fix a run of a cache over an event log, in which no snapshot is behind a position that the log has reported
(`CacheSession.Forward`).

* **Starts** (`CacheSession.Orderly`): every recorded start has been reported, and the log has reached all that it has
  reported.
* **Watermarks** (`watermarkAt_le_watermarkAt_forget`): so the watermark only rises when a transaction is forgotten.
* **Absorption** (`compact_forget_compact`): a compaction before that leaves no trace in the one after.
* **Pairs** (`finish_comm`): so two transactions may change places, and any number of them may be reordered.
-/

namespace LockReplica

/-! ## Sessions -/

/-- A cache over an event log, and the positions that its log has reported. -/
structure CacheSession where
  cache : EventCache EventLog
  reported : List Position := []

namespace CacheSession

variable {s : CacheSession}

def step (s : CacheSession) (op : CacheOp) : CacheSession where
  cache := s.cache.step op
  reported := (s.cache.step op).log.latest?.toList ++ s.reported

/-- A snapshot is not behind a position of its epoch that was reported before. -/
def Forward (s : CacheSession) (op : CacheOp) : Prop :=
  ∀ u ∈ op.update?, u.IsSnapshot →
    ∀ p ∈ s.reported, ∀ q ∈ u.lastKnownPosition, p.epoch = q.epoch → p.sequence ≤ q.sequence

instance (s : CacheSession) (op : CacheOp) : Decidable (s.Forward op) :=
  inferInstanceAs (Decidable (∀ u ∈ op.update?, u.IsSnapshot →
    ∀ p ∈ s.reported, ∀ q ∈ u.lastKnownPosition, p.epoch = q.epoch → p.sequence ≤ q.sequence))

theorem cache_foldl (s : CacheSession) (ops : List CacheOp) :
    (ops.foldl step s).cache = ops.foldl EventCache.step s.cache := by
  induction ops generalizing s with
  | nil => rfl
  | cons op ops ih => exact ih (s.step op)

/-- The recorded starts have been reported, and nothing reported is ahead of the log. -/
structure Orderly (s : CacheSession) : Prop where
  starts : ∀ p ∈ s.cache.starts.values, p ∈ s.reported
  reported : ∀ p ∈ s.reported, s.cache.log.Reaches p

theorem Orderly.step (h : s.Orderly) {op : CacheOp} (hop : s.Forward op) : (s.step op).Orderly where
  starts p hp := by
    rcases s.cache.mem_starts_step op hp with hlatest | hold
    · exact List.mem_append_left _ (Option.mem_toList.2 hlatest)
    · exact List.mem_append_right _ (h.starts p hold)
  reported p hp := by
    rcases List.mem_append.1 hp with hlatest | hold
    · exact EventLog.reaches_of_mem_latest? (Option.mem_toList.1 hlatest)
    · refine s.cache.reaches_step op (h.reported p hold) fun u hu hsnapshot latest hlatest => ?_
      rw [EventLog.latest?_update_of_isSnapshot hsnapshot] at hlatest
      exact hop u hu hsnapshot p hold latest hlatest

end CacheSession

namespace EventCache

variable {c : EventCache EventLog} {latest p q : Position} {a b t : Timestamp}

theorem startsReached_run (config : Config) {ops : List CacheOp}
    (h : Along CacheSession.step CacheSession.Forward { cache := { config, log := .unknown } } ops) :
    (run config ops).StartsReached := by
  have horderly : (ops.foldl CacheSession.step { cache := { config, log := .unknown } }).Orderly :=
    h.foldl (fun _ _ hs hop => hs.step hop) ⟨nofun, nofun⟩
  have hcache := CacheSession.cache_foldl { cache := { config, log := .unknown } } ops
  intro p hp
  have hreached := horderly.reported p (horderly.starts p (hcache ▸ hp))
  rwa [hcache] at hreached

/-! ## Absorption -/

/-- If no start of the epoch is after a position, then the watermark only rises when a transaction is forgotten. -/
theorem watermarkAt_le_watermarkAt_forget
    (h : ∀ p ∈ c.starts.values, p.epoch = latest.epoch → p.sequence ≤ latest.sequence) (t : Timestamp) :
    c.watermarkAt latest ≤ (c.forget t).watermarkAt latest := by
  obtain ⟨n, hn, heq⟩ := c.exists_needsFrom latest
  obtain ⟨m, hm, heq'⟩ := (c.forget t).exists_needsFrom latest
  rw [heq, heq']
  refine ⟨rfl, Sequence.back_le_back ?_⟩
  rcases hm.eq_start_or with ⟨p, hp, hepoch, rfl⟩ | ⟨-, rfl⟩
  · exact hn.le_start p (mem_starts_of_forget hp) hepoch
  · exact hn.le_latest h

/-- Compacts the log at a watermark that advances. -/
def raise (c : EventCache EventLog) (p : Position) : EventCache EventLog :=
  if c.advances p then { c with log := c.log.compact p, watermark := some p } else c

theorem compact_eq_raise (hlatest : latest ∈ c.log.latest?) : c.compact = c.raise (c.watermarkAt latest) := by
  rcases c.compact_cases with ⟨latest', hlatest', hadvances, heq⟩ | ⟨hstays, heq⟩
  · cases Option.mem_unique hlatest hlatest'
    rw [heq, raise, if_pos hadvances]
    rfl
  · rw [heq, raise, if_neg (Bool.eq_false_iff.1 (hstays latest hlatest))]
    rfl

theorem compact_eq_self (hlatest : c.log.latest? = none) : c.compact = c := by
  rcases c.compact_cases with ⟨latest, hlatest', -, -⟩ | ⟨-, heq⟩
  · exact absurd (hlatest.symm.trans hlatest') nofun
  · rw [heq]
    rfl

@[simp] theorem latest?_raise (c : EventCache EventLog) (p : Position) : (c.raise p).log.latest? = c.log.latest? := by
  unfold raise
  split
  · exact EventLog.latest?_compact _ _
  · rfl

theorem forget_raise (c : EventCache EventLog) (p : Position) (t : Timestamp) :
    (c.raise p).forget t = (c.forget t).raise p := by
  have hadvances : (c.forget t).advances p = c.advances p := rfl
  unfold raise
  rw [hadvances]
  split <;> rfl

/-- Of two watermarks, the lower one makes no difference to the higher one. -/
theorem raise_raise_of_le (hle : p ≤ q) : (c.raise p).raise q = c.raise q := by
  cases hp : c.advances p with
  | false =>
    have hstays : c.raise p = c := if_neg (Bool.eq_false_iff.1 hp)
    rw [hstays]
  | true =>
    have hq : c.advances q = true := advances_of_le hp hle
    have hraise : c.raise p = { c with log := c.log.compact p, watermark := some p } := if_pos hp
    cases hpq : (c.raise p).advances q with
    | true =>
      have hlog : (c.raise p).log.compact q = c.log.compact q := by
        rw [hraise]
        exact c.log.compact_compact_of_le hle
      calc (c.raise p).raise q
          = { c.raise p with log := (c.raise p).log.compact q, watermark := some q } := if_pos hpq
        _ = { c with log := c.log.compact q, watermark := some q } := by rw [hlog, hraise]
        _ = c.raise q := (if_pos hq).symm
    | false =>
      -- the last watermark is `p` then, which is not below `q`
      obtain ⟨m, hm, hqm⟩ := advances_eq_false_iff.1 hpq
      rw [hraise] at hm
      cases hm
      cases Position.le_antisymm hle hqm
      exact if_neg (Bool.eq_false_iff.1 hpq)

/-- A compaction before a transaction is forgotten leaves no trace in the one after. -/
theorem compact_forget_compact (h : c.StartsReached) (t : Timestamp) :
    (c.compact.forget t).compact = (c.forget t).compact := by
  cases hlatest : c.log.latest? with
  | none => rw [compact_eq_self hlatest]
  | some latest =>
    have hle := watermarkAt_le_watermarkAt_forget (fun p hp => h p hp latest hlatest) t
    have hforget : (c.forget t).log.latest? = some latest := hlatest
    have hcompact : (c.compact.forget t).log.latest? = some latest := by
      rw [compact_eq_raise hlatest, forget_raise, latest?_raise]
      exact hforget
    have hstarts : (c.compact.forget t).starts = (c.forget t).starts := congrArg (·.erase t) c.starts_compact
    have hmark : (c.compact.forget t).watermarkAt latest = (c.forget t).watermarkAt latest :=
      watermarkAt_congr hstarts c.config_compact latest
    calc (c.compact.forget t).compact
        = (c.compact.forget t).raise ((c.forget t).watermarkAt latest) := by rw [compact_eq_raise hcompact, hmark]
      _ = ((c.forget t).raise (c.watermarkAt latest)).raise ((c.forget t).watermarkAt latest) := by
          rw [compact_eq_raise hlatest, forget_raise]
      _ = (c.forget t).raise ((c.forget t).watermarkAt latest) := raise_raise_of_le hle
      _ = (c.forget t).compact := (compact_eq_raise hforget).symm

/-! ## Finished transactions -/

/-- A transaction that is not live has nothing to finish. -/
theorem finish_eq_self (ht : c.starts.get? t = none) : c.finish t = c := by
  rw [finish_eq, Table.contains_eq_isSome_get?, ht]
  exact forget_eq_self ht

theorem finish_eq_of_live (ht : c.starts.get? t = some p) :
    c.finish t = if c.config.compaction then (c.forget t).compact else c.forget t := by
  rw [finish_eq, Table.contains_eq_isSome_get?, ht]
  rfl

/-- Of two live transactions that finish, only the second compaction counts. -/
theorem finish_finish (h : c.StartsReached) (ha : c.starts.get? a = some p) (hb : c.starts.get? b = some q)
    (hab : a ≠ b) : (c.finish a).finish b =
      if c.config.compaction then ((c.forget a).forget b).compact else (c.forget a).forget b := by
  have hb' : (c.finish a).starts.get? b = some q := by rwa [get?_starts_finish, if_neg hab.symm]
  rw [finish_eq_of_live hb', config_finish, finish_eq_of_live ha]
  split
  · exact compact_forget_compact (h.forget a) b
  · rfl

/-- Two transactions may finish in either order. -/
theorem finish_comm (h : c.StartsReached) (a b : Timestamp) : (c.finish a).finish b = (c.finish b).finish a := by
  by_cases hab : a = b
  · rw [hab]
  · have hlive : (c.finish a).starts.get? b = c.starts.get? b := by rw [get?_starts_finish, if_neg (Ne.symm hab)]
    have hlive' : (c.finish b).starts.get? a = c.starts.get? a := by rw [get?_starts_finish, if_neg hab]
    cases ha : c.starts.get? a with
    | none => rw [finish_eq_self ha, finish_eq_self (hlive'.trans ha)]
    | some p =>
      cases hb : c.starts.get? b with
      | none => rw [finish_eq_self hb, finish_eq_self (hlive.trans hb)]
      | some q => rw [finish_finish h ha hb hab, finish_finish h hb ha (Ne.symm hab), forget_forget]

end EventCache

open EventCache

/-- **The order in which transactions finish does not matter**: if no snapshot has come that was behind a position
reported in its epoch, then transactions that finish, live or not, once or more than once, leave the same starts, the
same last watermark and the same log in every order. -/
theorem finish_order_irrelevant (config : Config) (ops : List CacheOp)
    (hforward : Along CacheSession.step CacheSession.Forward { cache := { config, log := .unknown } } ops)
    (timestamps timestamps' : List Timestamp) (horder : timestamps.Perm timestamps') :
    timestamps.foldl finish (run config ops) = timestamps'.foldl finish (run config ops) :=
  foldl_eq_of_perm (fun _ t h => h.finish t) (fun _ a b h => finish_comm h a b) horder
    (startsReached_run config hforward)

namespace EventCache

/-- Transaction 10 is of an earlier epoch, and the second snapshot of the later one is not behind. -/
def sampleForward : List CacheOp :=
  [.start (.ofList [10]) (.snapshot (.ofByte 1) 8 ∅ ∅), .start (.ofList [20, 30]) (.snapshot (.ofByte 2) 3 ∅ ∅),
    .finish 30, .start (.ofList [40]) (.snapshot (.ofByte 2) 5 ∅ ∅),
    .start (.ofList [50]) (.success (.ofByte 2) 7 [.lockByte 7 7, .lockByte 6 6])]

/-- In one order the log is told of two watermarks, and in the other of one. -/
theorem sample_finish_order_irrelevant :
    let c := run {} sampleForward
    c.log.oldest? = some 6 ∧ ([20, 40, 99, 50, 40].foldl finish c).log.oldest? = some 7 ∧
      [20, 40, 99, 50, 40].foldl finish c = [50, 40, 40, 99, 20].foldl finish c :=
  ⟨by decide, by decide, finish_order_irrelevant {} sampleForward (by decide) _ _ (by decide)⟩

-- after a snapshot that sets the log back behind the start of transaction 1, the order does matter
example :
    let c := run {} [.start (.ofList [1]) (.snapshot (.ofByte 1) 10 ∅ ∅),
      .start (.ofList [2]) (.snapshot (.ofByte 1) 0 ∅ ∅)]
    ([1, 2].foldl finish c).watermark = some ⟨.ofByte 1, 0⟩ ∧
      ([2, 1].foldl finish c).watermark = some ⟨.ofByte 1, 10⟩ := by decide

end EventCache

end LockReplica
