import LockReplica.Delivery
import LockReplica.Proofs.Conservation
import LockReplica.Proofs.Polling

/-!
# What a log keeps of deltas that come in any order

A delta that comes for the first time after one that follows it is stale, and its events are lost to the log.

* **Cuts** (`Stretch.eq_or_apart`, `Server.mem_between_ofCuts`): the stretches between ascending cuts lie apart and
  make up the whole.
* **Deliveries** (`Server.Kept`): after any deliveries the history has exactly the events of the stretches that
  came on time, and the position of the highest stretch that came. One more delta keeps that (`Kept.deliver`).
* **Runs** (`reordered_deltas`): so the log ends where the server is, with the events of the stretches that came on
  time; if all did, nothing is missing.
-/

namespace LockReplica

/-! ## Cuts -/

namespace Stretch

variable {low : Sequence} {cuts : List Sequence} {c d : Stretch}

theorem lt_of_mem_ofCuts (hcuts : (low :: cuts).Pairwise (· < ·)) (hd : d ∈ ofCuts low cuts) :
    low ≤ d.low ∧ d.low < d.high := by
  induction cuts generalizing low with
  | nil => cases hd
  | cons high cuts ih =>
    obtain ⟨hlow, hcuts⟩ := List.pairwise_cons.1 hcuts
    have hlt : low < high := hlow high List.mem_cons_self
    rcases List.mem_cons.1 hd with rfl | hd
    · exact ⟨UInt64.le_refl _, hlt⟩
    · exact ⟨UInt64.le_trans (UInt64.le_of_lt hlt) (ih hcuts hd).1, (ih hcuts hd).2⟩

/-- Of two stretches one follows the other, if they are not the same. -/
theorem eq_or_apart (hcuts : (low :: cuts).Pairwise (· < ·)) (hc : c ∈ ofCuts low cuts) (hd : d ∈ ofCuts low cuts) :
    c = d ∨ c.high ≤ d.low ∨ d.high ≤ c.low := by
  induction cuts generalizing low with
  | nil => cases hc
  | cons high cuts ih =>
    have hcuts := (List.pairwise_cons.1 hcuts).2
    rcases List.mem_cons.1 hc with rfl | hc <;> rcases List.mem_cons.1 hd with rfl | hd
    · exact .inl rfl
    · exact .inr (.inl (lt_of_mem_ofCuts hcuts hd).1)
    · exact .inr (.inr (lt_of_mem_ofCuts hcuts hc).1)
    · exact ih hcuts hc hd

/-- The last cut is where the highest stretch ends. -/
theorem getLastD_spec (hcuts : (low :: cuts).Pairwise (· < ·)) : low ≤ cuts.getLastD low ∧
    (∀ d ∈ ofCuts low cuts, d.high ≤ cuts.getLastD low) ∧
    (cuts.getLastD low = low ∨ ∃ d ∈ ofCuts low cuts, d.high = cuts.getLastD low) := by
  induction cuts generalizing low with
  | nil => exact ⟨UInt64.le_refl _, fun _ hd => absurd hd List.not_mem_nil, .inl rfl⟩
  | cons high cuts ih =>
    obtain ⟨hlow, hcuts⟩ := List.pairwise_cons.1 hcuts
    obtain ⟨hle, hall, hlast⟩ := ih hcuts
    rw [List.getLastD_cons]
    refine ⟨UInt64.le_trans (UInt64.le_of_lt (hlow high List.mem_cons_self)) hle, ?_, .inr ?_⟩
    · exact List.forall_mem_cons.2 ⟨hle, hall⟩
    · rcases hlast with heq | ⟨d, hd, heq⟩
      · exact ⟨⟨low, high⟩, List.mem_cons_self, heq.symm⟩
      · exact ⟨d, List.mem_cons_of_mem _ hd, heq⟩

end Stretch

namespace Server

variable {server : Server} {epoch : Epoch} {low : Sequence} {cuts : List Sequence} {e : Event}

/-- The stretches make up the whole. -/
theorem mem_between_ofCuts (hcuts : (low :: cuts).Pairwise (· < ·)) :
    e ∈ server.between epoch low (cuts.getLastD low) ↔
      ∃ d ∈ Stretch.ofCuts low cuts, e ∈ server.between epoch d.low d.high := by
  induction cuts generalizing low with
  | nil =>
    refine iff_of_false (fun he => ?_) fun ⟨d, hd, _⟩ => nomatch hd
    obtain ⟨hlow, hhigh, -⟩ := mem_between.1 he
    exact UInt64.lt_irrefl _ (UInt64.lt_of_lt_of_le hlow hhigh)
  | cons high cuts ih =>
    obtain ⟨hlow, hcuts⟩ := List.pairwise_cons.1 hcuts
    have hle : low ≤ high := UInt64.le_of_lt (hlow high List.mem_cons_self)
    rw [List.getLastD_cons, ← between_append hle (Stretch.getLastD_spec hcuts).1, List.mem_append, ih hcuts]
    simp [Stretch.ofCuts]

/-! ## Deliveries -/

section Accept

variable {h : History} {d : Stretch}

/-- A stretch that starts where the history has not gone beyond is accepted as a whole. -/
theorem mem_accept_between (hle : h.latest.sequence ≤ d.low) :
    e ∈ (h.accept (server.between epoch d.low d.high)).accepted ↔
      e ∈ h.accepted ∨ e ∈ server.between epoch d.low d.high := by
  rw [History.mem_accept_iff fun b hb c hc => eq_of_mem_between hb hc]
  refine or_congr_right (and_iff_left_of_imp fun he => ?_)
  exact UInt64.lt_of_le_of_lt hle (mem_between.1 he).1

theorem latest_accept_between (server : Server) (epoch : Epoch) (hd : d.low < d.high) (hle : h.latest.sequence ≤ d.low) :
    (h.accept (server.between epoch d.low d.high)).latest.sequence = d.high := by
  have hup : h.latest.sequence ≤ d.high := UInt64.le_trans hle (UInt64.le_of_lt hd)
  refine Timeline.highest_eq_iff.2 ⟨UInt64.le_trans h.origin_le_latest hup, fun e he => ?_, .inr ?_⟩
  · rcases (mem_accept_between hle).1 he with he | he
    · exact UInt64.le_trans (History.le_latest_of_mem he) hup
    · exact (mem_between.1 he).2.1
  · refine ⟨server.event epoch d.high, (mem_accept_between hle).2 (.inr (mem_between.2 ?_)), server.sequence_event _ _⟩
    rw [server.sequence_event]
    exact ⟨hd, UInt64.le_refl _, rfl⟩

end Accept

/-- What a history that began with a snapshot at `origin` keeps of the stretches delivered since. -/
structure Kept (server : Server) (origin : Position) (state : LockState) (deliveries : List Stretch)
    (h : History) : Prop where
  origin_eq : h.origin = origin
  state_eq : h.state = state
  high_le : ∀ d ∈ deliveries, d.high ≤ h.latest.sequence
  reached : h.latest.sequence = origin.sequence ∨ ∃ d ∈ deliveries, d.high = h.latest.sequence
  mem_accepted_iff : ∀ e, e ∈ h.accepted ↔
    ∃ d : Stretch, d.OnTime deliveries ∧ e ∈ server.between origin.epoch d.low d.high

namespace Kept

variable {origin : Position} {state : LockState} {deliveries : List Stretch} {h : History} {d : Stretch}

theorem start (server : Server) (origin : Position) (state : LockState) :
    server.Kept origin state [] { origin, state } where
  origin_eq := rfl
  state_eq := rfl
  high_le _ hd := nomatch hd
  reached := .inl rfl
  mem_accepted_iff _ :=
    iff_of_false Ascending.not_mem_empty fun ⟨_, hd, _⟩ => Stretch.not_onTime_nil hd

/-- If all deliveries are of earlier stretches, then the position is not beyond the stretch. -/
theorem latest_le (hk : server.Kept origin state deliveries h) (horigin : origin.sequence ≤ d.low)
    (hall : ∀ c ∈ deliveries, c.high ≤ d.low) : h.latest.sequence ≤ d.low := by
  rcases hk.reached with heq | ⟨c, hc, heq⟩
  · exact heq ▸ horigin
  · exact heq ▸ hall c hc

/-- A delta that ends at or below the position is too late. -/
theorem ignore (hk : server.Kept origin state deliveries h) (horigin : origin.sequence ≤ d.low)
    (hstale : d.high ≤ h.latest.sequence) : server.Kept origin state (deliveries ++ [d]) h where
  origin_eq := hk.origin_eq
  state_eq := hk.state_eq
  high_le := by
    intro c hc
    rcases List.mem_append.1 hc with hc | hc
    · exact hk.high_le c hc
    · rwa [List.mem_singleton.1 hc]
  reached := hk.reached.imp_right fun ⟨c, hc, heq⟩ => ⟨c, List.mem_append_left _ hc, heq⟩
  mem_accepted_iff e := by
    rw [hk.mem_accepted_iff]
    constructor
    · rintro ⟨c, hc, he⟩
      exact ⟨c, Stretch.onTime_concat_iff.2 (.inl hc), he⟩
    · rintro ⟨c, hc, he⟩
      rcases Stretch.onTime_concat_iff.1 hc with hc | ⟨rfl, hall⟩
      · exact ⟨c, hc, he⟩
      · -- the stretch would be empty
        obtain ⟨hlow, hhigh, -⟩ := mem_between.1 he
        have hle := UInt64.le_trans (UInt64.le_trans hhigh hstale) (hk.latest_le horigin hall)
        exact absurd hlow (UInt64.not_lt.2 hle)

/-- A delta that reaches above the position is on time, and all of it is accepted. -/
theorem accept (hk : server.Kept origin state deliveries h) (hd : d.low < d.high)
    (hall : ∀ c ∈ deliveries, c.high ≤ d.low) (hle : h.latest.sequence ≤ d.low) :
    server.Kept origin state (deliveries ++ [d]) (h.accept (server.between origin.epoch d.low d.high)) := by
  have hlatest := server.latest_accept_between origin.epoch hd hle
  refine ⟨hk.origin_eq, hk.state_eq, ?_, .inr ⟨d, by simp, hlatest.symm⟩, ?_⟩
  · intro c hc
    rw [hlatest]
    rcases List.mem_append.1 hc with hc | hc
    · exact UInt64.le_trans (hall c hc) (UInt64.le_of_lt hd)
    · rw [List.mem_singleton.1 hc]
      exact UInt64.le_refl _
  · intro e
    rw [mem_accept_between hle, hk.mem_accepted_iff]
    simp only [Stretch.onTime_concat_iff]
    grind

/-- One more delta, of a stretch that lies apart from those delivered so far or is one of them. -/
theorem deliver (hk : server.Kept origin state deliveries h) (horigin : origin.sequence ≤ d.low)
    (hd : d.low < d.high) (hds : ∀ c ∈ deliveries, c.low < c.high ∧ (c = d ∨ c.high ≤ d.low ∨ d.high ≤ c.low)) :
    ∃ h', History.update (some h) (server.delta origin.epoch d) = some h' ∧
      server.Kept origin state (deliveries ++ [d]) h' := by
  have hepoch : origin.epoch = h.epoch := congrArg Position.epoch hk.origin_eq.symm
  refine ⟨_, if_pos hepoch, ?_⟩
  split
  · exact hk.ignore horigin ‹_›
  · have hlt : h.latest.sequence < d.high := UInt64.not_le.1 ‹_›
    have hall : ∀ c ∈ deliveries, c.high ≤ d.low := by
      intro c hc
      have hcd : c.high < d.high := UInt64.lt_of_le_of_lt (hk.high_le c hc) hlt
      rcases hds c hc with ⟨hc, rfl | hbelow | habove⟩
      · exact absurd hcd (UInt64.lt_irrefl _)
      · exact hbelow
      · exact absurd (UInt64.lt_trans hcd (UInt64.lt_of_le_of_lt habove hc)) (UInt64.lt_irrefl _)
    exact hk.accept hd hall (hk.latest_le horigin hall)

/-- The history after deliveries of stretches between ascending cuts. -/
theorem run {cuts : List Sequence} (hcuts : (origin.sequence :: cuts).Pairwise (· < ·)) (later : List Stretch)
    (hk : server.Kept origin state deliveries h)
    (hall : ∀ d ∈ deliveries ++ later, d ∈ Stretch.ofCuts origin.sequence cuts) :
    ∃ h', (later.map (server.delta origin.epoch)).foldl History.update (some h) = some h' ∧
      server.Kept origin state (deliveries ++ later) h' := by
  induction later generalizing deliveries h with
  | nil => exact ⟨h, rfl, by rwa [List.append_nil]⟩
  | cons d later ih =>
    have hd := hall d (by simp)
    obtain ⟨hlow, hlt⟩ := Stretch.lt_of_mem_ofCuts hcuts hd
    obtain ⟨h', hupdate, hk'⟩ := hk.deliver hlow hlt fun c hc =>
      have hc := hall c (List.mem_append_left _ hc)
      ⟨(Stretch.lt_of_mem_ofCuts hcuts hc).2, Stretch.eq_or_apart hcuts hc hd⟩
    have happend : deliveries ++ d :: later = deliveries ++ [d] ++ later := by simp
    rw [List.map_cons, List.foldl_cons, hupdate, happend]
    exact ih hk' (happend ▸ hall)

/-- Once all stretches have come, the position is the last cut. -/
theorem latest_eq {cuts : List Sequence} (hcuts : (origin.sequence :: cuts).Pairwise (· < ·))
    (hk : server.Kept origin state deliveries h)
    (hall : ∀ d, d ∈ deliveries ↔ d ∈ Stretch.ofCuts origin.sequence cuts) :
    h.latest = ⟨origin.epoch, cuts.getLastD origin.sequence⟩ := by
  obtain ⟨hle, hmax, hlast⟩ := Stretch.getLastD_spec hcuts
  have hseq : h.latest.sequence = cuts.getLastD origin.sequence := by
    refine UInt64.le_antisymm ?_ ?_
    · rcases hk.reached with heq | ⟨d, hd, heq⟩
      · rwa [heq]
      · exact heq ▸ hmax d ((hall d).1 hd)
    · rcases hlast with heq | ⟨d, hd, heq⟩
      · rw [heq, ← hk.origin_eq]
        exact h.origin_le_latest
      · exact heq ▸ hk.high_le d ((hall d).2 hd)
  rw [← hseq, ← hk.origin_eq]
  rfl

end Kept

end Server

/-! ## Runs -/

/-- **What a log keeps of deltas that come in any order**: after a snapshot of an epoch, the stretches of which
come at least once each, the log is at the end of the last one, and it holds the state that the snapshot and the
events of those stretches make that came on time. If all stretches came on time, then nothing is missing. -/
theorem reordered_deltas (server : Server) (epoch : Epoch) (first : Sequence) (state : LockState)
    (cuts : List Sequence) (hcuts : (first :: cuts).Pairwise (· < ·)) (deliveries : List Stretch)
    (hall : ∀ d, d ∈ deliveries ↔ d ∈ Stretch.ofCuts first cuts) (before : List Update) (ops : List LogOp)
    (hops : LogOp.updates ops =
      before ++ .snapshot epoch first state.locked state.watched :: deliveries.map (server.delta epoch)) :
    (EventLog.run ops).latest? = some ⟨epoch, cuts.getLastD first⟩ ∧
    (∃ kept : Timeline,
      (∀ e, e ∈ kept ↔ ∃ d : Stretch, d.OnTime deliveries ∧ e ∈ server.between epoch d.low d.high) ∧
      (EventLog.run ops).current = state.applyAll kept.toList) ∧
    ((∀ d ∈ Stretch.ofCuts first cuts, d.OnTime deliveries) →
      (EventLog.run ops).current = state.applyAll (server.between epoch first (cuts.getLastD first))) := by
  have hfollows := EventLog.follows_run ops
  obtain ⟨h, hrun, hk⟩ := (Server.Kept.start server ⟨epoch, first⟩ state).run hcuts deliveries
    fun d hd => (hall d).1 hd
  have htold : History.run (LogOp.updates ops) = some h := by
    rw [hops, History.run, List.foldl_append]
    exact hrun
  rw [htold] at hfollows
  have hholds : (EventLog.run ops).current = state.applyAll h.accepted.toList :=
    hk.state_eq ▸ hfollows.current_eq
  refine ⟨hfollows.latest?_eq.trans (congrArg some (hk.latest_eq hcuts hall)),
    ⟨h.accepted, hk.mem_accepted_iff, hholds⟩, fun htime => ?_⟩
  rw [hholds]
  refine congrArg _ (Server.toList_eq_between fun e => ?_)
  rw [hk.mem_accepted_iff, Server.mem_between_ofCuts hcuts]
  refine exists_congr fun d => and_congr_left fun _ => ⟨fun hd => ?_, htime d⟩
  exact (hall d).1 hd.mem

/-- A log that is told of the stretches of an epoch after a snapshot of nothing. -/
def Server.sampleDeltas (deliveries : List Stretch) : List LogOp :=
  .update (.snapshot (.ofByte 1) 0 ∅ ∅) :: deliveries.map fun d => .update (Server.releasingSample.delta (.ofByte 1) d)

/-- Three stretches, of which the first two come again after the third. -/
theorem sample_reordered_deltas :
    (EventLog.run (Server.sampleDeltas [⟨0, 1⟩, ⟨1, 3⟩, ⟨3, 5⟩, ⟨1, 3⟩, ⟨0, 1⟩])).latest? = some ⟨.ofByte 1, 5⟩ ∧
    (EventLog.run (Server.sampleDeltas [⟨0, 1⟩, ⟨1, 3⟩, ⟨3, 5⟩, ⟨1, 3⟩, ⟨0, 1⟩])).current =
      (∅ : LockState).applyAll (Server.releasingSample.between (.ofByte 1) 0 5) := by
  obtain ⟨hlatest, -, hstate⟩ := reordered_deltas Server.releasingSample (.ofByte 1) 0 ∅ [1, 3, 5] (by decide)
    [⟨0, 1⟩, ⟨1, 3⟩, ⟨3, 5⟩, ⟨1, 3⟩, ⟨0, 1⟩] (fun d => by simp [Stretch.ofCuts]; grind) []
    (Server.sampleDeltas [⟨0, 1⟩, ⟨1, 3⟩, ⟨3, 5⟩, ⟨1, 3⟩, ⟨0, 1⟩]) rfl
  exact ⟨hlatest, hstate (by decide)⟩

/-- The first stretch comes after the second, and its lock is missing at the position of the second. -/
theorem sample_lost_delta :
    (∀ d, d ∈ [(⟨1, 2⟩ : Stretch), ⟨0, 1⟩] ↔ d ∈ Stretch.ofCuts 0 [1, 2]) ∧
    (EventLog.run (Server.sampleDeltas [⟨1, 2⟩, ⟨0, 1⟩])).latest? = some ⟨.ofByte 1, 2⟩ ∧
    (EventLog.run (Server.sampleDeltas [⟨1, 2⟩, ⟨0, 1⟩])).current ≠
      (∅ : LockState).applyAll (Server.releasingSample.between (.ofByte 1) 0 2) :=
  ⟨fun d => by simp [Stretch.ofCuts]; grind, by decide, by decide⟩

end LockReplica
