import LockReplica.EventCache.Run
import LockReplica.Proofs.Conservation
import LockReplica.Run
import Mathlib.Data.List.Induction
import Mathlib.Data.Set.Card

/-!
# Start records: the last write wins

Fix a cache over a log that answers as it likes. A call records a start of a transaction if it starts the transaction
and the log gives a position (`EventCache.Records`); only such a call and the end of the transaction touch the record
(`EventCache.Touches`).

* **One call** (`get?_starts_step_eq_some_iff`): the record is the one that the call makes, or the old one if the call
  does not touch it.
* **Runs** (`get?_starts_runOver_eq_some_iff`): so the record is the last one made, if the transaction has not ended
  since (`EventCache.RecordedLast`).
-/

namespace LockReplica

universe u

/-- A table has as many entries as it has keys. -/
theorem Table.size_eq_ncard {κ β : Type u} [Ord κ] [Std.TransOrd κ] [Std.LawfulEqOrd κ] (t : Table κ β) :
    t.size = {k | ∃ b, t.get? k = some b}.ncard := by
  classical
  have hkeys : {k | ∃ b, t.get? k = some b} = ((t.toList.map Prod.fst).toFinset : Set κ) := by
    ext k
    simp [Table.get?_eq_some_iff]
  rw [hkeys, Set.ncard_coe_finset, List.toFinset_card_of_nodup t.nodup_map_key, List.length_map]
  rfl

namespace EventCache

variable {σ : Type u} [LockLog σ]

/-! ## One call -/

/-- The call starts the transaction, and the log gives the position. -/
def Records (c : EventCache σ) (op : CacheOp) (t : Timestamp) (p : Position) : Prop :=
  ∃ timestamps u, op = .start timestamps u ∧ t ∈ timestamps ∧ (LockLog.update c.log u).1 = some p

/-- The call records a start of the transaction or ends it. -/
def Touches (c : EventCache σ) (op : CacheOp) (t : Timestamp) : Prop := (∃ p, c.Records op t p) ∨ op = .finish t

section

variable {c : EventCache σ} {op : CacheOp} {t : Timestamp} {p : Position}

theorem get?_starts_step_of_records (h : c.Records op t p) : (c.step op).starts.get? t = some p := by
  obtain ⟨timestamps, u, rfl, ht, hp⟩ := h
  rw [step, get?_starts_start_eq, if_pos ht, hp, Option.some_or]

theorem get?_starts_step_finish : (c.step (.finish t)).starts.get? t = none := by
  rw [step, starts_finish, get?_starts_forget, if_pos rfl]

/-- Updates, questions, starts without a position, and starts and ends of others leave a record as it is. -/
theorem get?_starts_step_of_not_touches (h : ¬c.Touches op t) : (c.step op).starts.get? t = c.starts.get? t := by
  obtain ⟨hrecords, hfinish⟩ := not_or.1 h
  cases op with
  | start timestamps u =>
    rw [step, get?_starts_start_eq]
    split
    · cases hp : (LockLog.update c.log u).1 with
      | none => rfl
      | some p => exact absurd ⟨p, timestamps, u, rfl, ‹t ∈ timestamps›, hp⟩ hrecords
    · rfl
  | finish t' =>
    rw [step, starts_finish, get?_starts_forget, if_neg]
    rintro rfl
    exact hfinish rfl
  | update u => rfl
  | rangesFrom starts last => rfl
  | rangesOf timestamps last => rfl
  | earliestLive => rfl

theorem get?_starts_step_eq_some_iff :
    (c.step op).starts.get? t = some p ↔ c.Records op t p ∨ c.starts.get? t = some p ∧ ¬c.Touches op t := by
  constructor
  · intro hp
    by_cases htouches : c.Touches op t
    · rcases htouches with ⟨q, hq⟩ | rfl
      · rw [get?_starts_step_of_records hq] at hp
        cases hp
        exact .inl hq
      · rw [get?_starts_step_finish] at hp
        cases hp
    · exact .inr ⟨get?_starts_step_of_not_touches htouches ▸ hp, htouches⟩
  · rintro (hp | ⟨hp, htouches⟩)
    · exact get?_starts_step_of_records hp
    · rw [get?_starts_step_of_not_touches htouches, hp]

end

/-! ## Runs -/

/-- The last record made of the transaction is of the position, and the transaction has not ended since. -/
def RecordedLast (config : Config) (log : σ) (ops : List CacheOp) (t : Timestamp) (p : Position) : Prop :=
  Since step (fun c op => c.Records op t p) (fun c op => ¬c.Touches op t) { config, log } ops

theorem get?_starts_runOver_eq_some_iff {config : Config} {log : σ} {ops : List CacheOp} {t : Timestamp}
    {p : Position} : (runOver config log ops).starts.get? t = some p ↔ RecordedLast config log ops t p := by
  induction ops using List.reverseRecOn with
  | nil => exact iff_of_false nofun not_since_nil
  | append_singleton ops op ih =>
    rw [RecordedLast, since_concat_iff, ← RecordedLast, ← ih, runOver, List.foldl_append]
    exact get?_starts_step_eq_some_iff

/-- What a cache shows of the starts of transactions is what is recorded of each. -/
structure ShowsStarts (c : EventCache σ) (recorded : Timestamp → Position → Prop) : Prop where
  /-- There is one entry for every timestamp asked for, and no other. -/
  keys : ∀ timestamps, (c.startsOf timestamps).toList.map Prod.fst = timestamps.toList
  entry : ∀ timestamps, ∀ t ∈ timestamps, ∃ start, (c.startsOf timestamps).get? t = some start ∧
    ∀ p, start = some p ↔ recorded t p
  tracked : c.tracked = {t | ∃ p, recorded t p}.ncard

omit [LockLog σ] in
theorem showsStarts (c : EventCache σ) : c.ShowsStarts fun t p => c.starts.get? t = some p where
  keys _ := Table.map_fst_ofKeys
  entry timestamps t ht := ⟨c.starts.get? t, by rw [get?_startsOf, if_pos ht], fun p => Iff.rfl⟩
  tracked := Table.size_eq_ncard c.starts

end EventCache

open EventCache

/-- **The last write wins**, over a log that answers as it likes: a cache shows for each timestamp the position that the
log gave when its start was recorded last, and none if none was recorded or the transaction has ended since. A call that
does not touch the record of a transaction changes nothing that is shown of it. Over an event log the recorded position
is that of the log right after the update. -/
theorem starts_last_write_wins (config : Config) (ops : List CacheOp) :
    (∀ {σ : Type u} [LockLog σ] (log : σ),
      (runOver config log ops).ShowsStarts (RecordedLast config log ops) ∧
      ∀ op t, ¬(runOver config log ops).Touches op t → ∀ timestamps,
        (((runOver config log ops).step op).startsOf timestamps).get? t =
          ((runOver config log ops).startsOf timestamps).get? t) ∧
    ∀ t p, RecordedLast config EventLog.unknown ops t p ↔
      ∃ before timestamps u after, ops = before ++ .start timestamps u :: after ∧ t ∈ timestamps ∧
        (run config (before ++ [.start timestamps u])).log.latest? = some p ∧
        Along step (fun c op => ¬c.Touches op t) (run config (before ++ [.start timestamps u])) after := by
  refine ⟨fun {σ} _ log => ⟨?_, fun op t htouches timestamps => ?_⟩, fun t p => ?_⟩
  · have hrecorded : RecordedLast config log ops = fun t p => (runOver config log ops).starts.get? t = some p :=
      funext fun t => funext fun p => propext get?_starts_runOver_eq_some_iff.symm
    rw [hrecorded]
    exact showsStarts _
  · rw [get?_startsOf, get?_startsOf, get?_starts_step_of_not_touches htouches]
  · constructor
    · rintro ⟨before, op, after, rfl, ⟨timestamps, u, rfl, ht, hp⟩, hafter⟩
      refine ⟨before, timestamps, u, after, rfl, ht, ?_, ?_⟩
      · rw [run_concat, step, log_start]
        exact hp
      · rw [run_concat]
        exact hafter
    · rintro ⟨before, timestamps, u, after, rfl, ht, hp, hafter⟩
      rw [run_concat] at hp hafter
      rw [step, log_start] at hp
      exact ⟨before, .start timestamps u, after, rfl, ⟨timestamps, u, rfl, ht, hp⟩, hafter⟩

-- transaction 1 is started twice and 2 has ended; the last update gives no position for 3
example : ((run {} [.start (.ofList [1, 2]) (.snapshot (.ofByte 1) 4 ∅ ∅),
    .start (.ofList [1, 4]) (.success (.ofByte 1) 5 [.lockByte 5 5]), .finish 2,
    .start (.ofList [3, 4]) (.failed (.ofByte 1))]).startsOf (.ofList [1, 2, 3])).toList =
    [(1, some ⟨.ofByte 1, 5⟩), (2, none), (3, none)] := by decide

end LockReplica
