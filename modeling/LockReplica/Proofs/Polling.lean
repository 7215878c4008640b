import LockReplica.Polling
import LockReplica.Proofs.Answers

/-!
# A reader that polls holds the state of the server

* **The server** (`mem_between`, `stateAt_append`): its events between two sequences, and its states.
* **Histories** (`Server.Tells`): what a log is told is a stretch of what the server did, so the states of the
  history are those of the server (`Tells.stateAt`); new events keep that if they leave no gap (`Tells.accept`).
* **Sessions** (`Session.Faithful`): no reported position of the epoch is above the position of the log, so
  that a reader is never ahead of it.
-/

namespace LockReplica

/-! ## The server -/

namespace Server

variable {server : Server} {epoch : Epoch} {a b c : Sequence} {e : Event}

theorem mem_between :
    e ∈ server.between epoch a b ↔ a < e.sequence ∧ e.sequence ≤ b ∧ e = server.event epoch e.sequence := by
  simp only [between, List.mem_map, List.mem_range'_1, UInt64.lt_iff_toNat_lt, UInt64.le_iff_toNat_le]
  constructor
  · rintro ⟨n, hn, rfl⟩
    have hofNat : (UInt64.ofNat n).toNat = n := Sequence.toNat_ofNat_of_le (s := b) (by omega)
    rw [server.sequence_event, hofNat]
    exact ⟨by omega, by omega, rfl⟩
  · rintro ⟨ha, hb, he⟩
    exact ⟨e.sequence.toNat, by omega, by rw [UInt64.ofNat_toNat]; exact he.symm⟩

/-- The server has one event of a sequence. -/
theorem eq_of_mem_between {d : Event} (hd : d ∈ server.between epoch a b) (he : e ∈ server.between epoch a b)
    (hde : d.sequence = e.sequence) : d = e := by
  rw [(mem_between.1 hd).2.2, (mem_between.1 he).2.2, hde]

theorem between_append (hab : a ≤ b) (hbc : b ≤ c) :
    server.between epoch a b ++ server.between epoch b c = server.between epoch a c := by
  have hab := UInt64.le_iff_toNat_le.1 hab
  have hbc := UInt64.le_iff_toNat_le.1 hbc
  rw [between, between, between, ← List.map_append]
  have h : b.toNat + 1 = a.toNat + 1 + 1 * (b.toNat - a.toNat) := by omega
  rw [h, List.range'_append]
  congr 2
  omega

theorem pairwise_between : (server.between epoch a b).Pairwise fun d e => d.sequence < e.sequence := by
  rw [between, List.pairwise_map]
  refine (List.pairwise_lt_range' 1 Nat.one_pos).imp_of_mem fun {n m} hn hm hnm => ?_
  rw [List.mem_range'_1] at hn hm
  have hn : (UInt64.ofNat n).toNat = n := Sequence.toNat_ofNat_of_le (s := b) (by omega)
  have hm : (UInt64.ofNat m).toNat = m := Sequence.toNat_ofNat_of_le (s := b) (by omega)
  rw [server.sequence_event, server.sequence_event]
  exact UInt64.lt_iff_toNat_lt.2 (by omega)

/-- The events of the server between two sequences, as a timeline. -/
def timeline (server : Server) (epoch : Epoch) (a b : Sequence) : Timeline :=
  ⟨server.between epoch a b, pairwise_between.imp Std.compare_eq_lt.2⟩

/-- A timeline with exactly the events of the server between two sequences lists them. -/
theorem toList_eq_between {t : Timeline} (h : ∀ e, e ∈ t ↔ e ∈ server.between epoch a b) :
    t.toList = server.between epoch a b := by
  have ht : t = server.timeline epoch a b := Ascending.ext_mem h
  rw [ht]
  rfl

theorem stateAt_append (hab : a ≤ b) :
    (server.stateAt epoch a).applyAll (server.between epoch a b) = server.stateAt epoch b := by
  have hzero : (0 : Sequence) ≤ a := UInt64.le_iff_toNat_le.2 (Nat.zero_le _)
  rw [stateAt, ← LockState.applyAll_append, between_append hzero hab]
  rfl

end Server

/-! ## Histories -/

/-- A history is a stretch of what the server did. -/
structure Server.Tells (server : Server) (h : History) : Prop where
  state : h.state = server.stateAt h.epoch h.origin.sequence
  accepted : ∀ e, e ∈ h.accepted ↔ e ∈ server.between h.epoch h.origin.sequence h.latest.sequence

namespace Server.Tells

variable {server : Server} {h : History}

/-- The states of the history are those of the server. -/
theorem stateAt (ht : server.Tells h) {n : Sequence} (ho : h.origin.sequence ≤ n) (hn : n ≤ h.latest.sequence) :
    h.stateAt n = server.stateAt h.epoch n := by
  rw [History.stateAt, ht.state, ← Server.stateAt_append ho]
  refine congrArg _ (Server.toList_eq_between fun e => ?_)
  rw [Ascending.mem_filter, ht.accepted, Server.mem_between, Server.mem_between, decide_eq_true_eq]
  constructor
  · rintro ⟨⟨ha, -, he⟩, hen⟩
    exact ⟨ha, hen, he⟩
  · rintro ⟨ha, hen, he⟩
    exact ⟨⟨ha, UInt64.le_trans hen hn, he⟩, hen⟩

theorem ofSnapshot (server : Server) (p : Position) :
    server.Tells { origin := p, state := server.stateAt p.epoch p.sequence } where
  state := rfl
  accepted e := by
    refine ⟨fun he => absurd he Ascending.not_mem_empty, ?_⟩
    intro he
    obtain ⟨hlow, hhigh, -⟩ := Server.mem_between.1 he
    exact absurd (UInt64.lt_of_lt_of_le hlow hhigh) (UInt64.lt_irrefl _)

section Accept

variable {a b : Sequence} {events : List Event}

/-- New events are those of the server up to where they reach. -/
theorem mem_accept_iff (ht : server.Tells h) (hevents : ∀ e, e ∈ events ↔ e ∈ server.between h.epoch a b)
    (ha : a ≤ h.latest.sequence) {e : Event} : e ∈ (h.accept events).accepted ↔
      e ∈ server.between h.epoch h.origin.sequence (max h.latest.sequence b) := by
  have hinj : ∀ d ∈ events, ∀ e ∈ events, d.sequence = e.sequence → d = e := fun d hd e he =>
    Server.eq_of_mem_between ((hevents d).1 hd) ((hevents e).1 he)
  have hol := UInt64.le_iff_toNat_le.1 h.origin_le_latest
  have ha := UInt64.le_iff_toNat_le.1 ha
  rw [History.mem_accept_iff hinj, ht.accepted, hevents, Server.mem_between, Server.mem_between, Server.mem_between]
  simp only [UInt64.lt_iff_toNat_lt, UInt64.le_iff_toNat_le, Sequence.toNat_max]
  constructor
  · rintro (⟨hlow, hhigh, he⟩ | ⟨⟨-, hhigh, he⟩, hnew⟩)
    · exact ⟨hlow, by omega, he⟩
    · exact ⟨by omega, by omega, he⟩
  · rintro ⟨hlow, hhigh, he⟩
    by_cases hel : e.sequence.toNat ≤ h.latest.sequence.toNat
    · exact .inl ⟨hlow, hel, he⟩
    · exact .inr ⟨⟨by omega, by omega, he⟩, by omega⟩

theorem latest_accept (ht : server.Tells h) (hevents : ∀ e, e ∈ events ↔ e ∈ server.between h.epoch a b)
    (ha : a ≤ h.latest.sequence) : (h.accept events).latest.sequence = max h.latest.sequence b := by
  have hmem := fun e => ht.mem_accept_iff hevents ha (e := e)
  have hol := UInt64.le_iff_toNat_le.1 h.origin_le_latest
  have hmax : (max h.latest.sequence b).toNat = max h.latest.sequence.toNat b.toNat := Sequence.toNat_max
  refine Timeline.highest_eq_iff.2 ⟨UInt64.le_iff_toNat_le.2 ?_, fun e he => ?_, ?_⟩
  · show h.origin.sequence.toNat ≤ _
    omega
  · exact (Server.mem_between.1 ((hmem e).1 he)).2.1
  · by_cases hb : max h.latest.sequence b = h.origin.sequence
    · exact .inl hb
    · -- the event of the server there is one of the accepted
      have hne : (max h.latest.sequence b).toNat ≠ h.origin.sequence.toNat := fun he => hb (UInt64.toNat_inj.1 he)
      refine .inr ⟨server.event h.epoch (max h.latest.sequence b), (hmem _).2 (Server.mem_between.2 ?_),
        server.sequence_event _ _⟩
      rw [server.sequence_event]
      exact ⟨UInt64.lt_iff_toNat_lt.2 (by omega), UInt64.le_refl _, rfl⟩

/-- New events that start at a sequence that the history has reached leave no gap. -/
theorem accept (ht : server.Tells h) (hevents : ∀ e, e ∈ events ↔ e ∈ server.between h.epoch a b)
    (ha : a ≤ h.latest.sequence) : server.Tells (h.accept events) := by
  refine ⟨ht.state, ?_⟩
  intro e
  rw [ht.mem_accept_iff hevents ha, ht.latest_accept hevents ha]
  rfl

end Accept

end Server.Tells

/-! ## Sessions -/

/-- The log is told what the server did, and its reader holds a state of the server at a position that the log
has reported, none of which is above the position of the log in its epoch. -/
structure Session.Faithful (server : Server) (s : Session) : Prop where
  told : ∃ told, s.log.Follows told ∧ ∀ h ∈ told, server.Tells h
  reported : ∀ p ∈ s.log.latest?, p ∈ s.reported
  le_latest : ∀ p ∈ s.log.latest?, ∀ q ∈ s.reported, q.epoch = p.epoch → q.sequence ≤ p.sequence
  reader : ∀ r ∈ s.reader,
    r.position ∈ s.reported ∧ r.state = server.stateAt r.position.epoch r.position.sequence

namespace Session.Faithful

variable {server : Server} {s : Session}

theorem start (server : Server) : Session.Faithful server {} where
  told := ⟨none, .unknown, fun _ hh => nomatch hh⟩
  reported := fun _ hp => nomatch hp
  le_latest := fun _ hp => nomatch hp
  reader := fun _ hr => nomatch hr

/-- What the server may deliver keeps the history a stretch of what it did. -/
theorem tells_step (hs : s.Faithful server) {op : LogOp} (ha : server.Allows s (.call op)) :
    ∃ told, (s.log.step op).Follows told ∧ ∀ h ∈ told, server.Tells h := by
  obtain ⟨told, hfollows, htells⟩ := hs.told
  match op, ha with
  | .compact before, _ => exact ⟨told, hfollows.compact before, htells⟩
  | .update (.failed epoch), _ => exact ⟨_, hfollows.update (.failed epoch), fun h hh => by cases hh⟩
  | .update (.snapshot epoch n locked watched), ⟨hstate, _⟩ =>
    refine ⟨_, hfollows.update (.snapshot epoch n locked watched), ?_⟩
    intro h hh
    cases hh
    rw [hstate]
    exact .ofSnapshot server ⟨epoch, n⟩
  | .update (.success epoch n events), ⟨a, b, _, _, hevents, hreach⟩ =>
    refine ⟨_, hfollows.update (.success epoch n events), ?_⟩
    intro h' hh
    obtain ⟨h, hh, hnew⟩ := Option.bind_eq_some_iff.1 hh
    split at hnew
    · have hepoch : epoch = h.epoch := ‹_›
      generalize s.log = log at hfollows hreach
      cases hfollows with
      | unknown => cases hh
      | @known r _ hr =>
        cases hh
        have hah : a ≤ h.latest.sequence := by
          rw [← hr.latest]
          exact hreach r.latest rfl (hr.epoch.trans hepoch.symm)
        cases hnew
        split
        · exact htells h rfl
        · exact (htells h rfl).accept (hepoch ▸ hevents) hah
    · cases hnew

/-- No reported position of its epoch is above the position that a call leads to. -/
theorem le_latest_step (hs : s.Faithful server) {op : LogOp} (ha : server.Allows s (.call op)) :
    ∀ p ∈ (s.log.step op).latest?, ∀ q ∈ s.reported, q.epoch = p.epoch → q.sequence ≤ p.sequence := by
  intro p hp q hq hqp
  match op, ha with
  | .compact before, _ => exact hs.le_latest p (by simpa [EventLog.step] using hp) q hq hqp
  | .update (.failed epoch), _ => cases hp
  | .update (.snapshot epoch n locked watched), ⟨_, hsnap⟩ =>
    cases hp
    exact hsnap q hq hqp
  | .update (.success epoch n events), _ =>
    obtain ⟨p₀, hp₀, -, hle⟩ := EventLog.exists_le_of_mem_latest?_deliver hp
    exact UInt64.le_trans (hs.le_latest p₀ hp₀ q hq (hqp.trans hle.1.symm)) hle.2

theorem call (hs : s.Faithful server) {op : LogOp} (ha : server.Allows s (.call op)) :
    (s.step (.call op)).Faithful server where
  told := hs.tells_step ha
  reported p hp := List.mem_append_left _ (Option.mem_toList.2 hp)
  le_latest p hp q hq hqp := by
    rcases List.mem_append.1 hq with hq | hq
    · cases Option.mem_unique hp (Option.mem_toList.1 hq)
      exact UInt64.le_refl _
    · exact hs.le_latest_step ha p hp q hq hqp
  reader r hr := ⟨List.mem_append_right _ (hs.reader r hr).1, (hs.reader r hr).2⟩

/-- The log answers, and after the answer the reader holds the state of the server at the latest position. -/
theorem poll_eq (hs : s.Faithful server) {latest : Position} (hl : latest ∈ s.log.latest?) :
    (∃ range, s.log.query (s.reader.map Reader.position) latest = .ok range) ∧
      Reader.poll s.reader s.log = some ⟨latest, server.stateAt latest.epoch latest.sequence⟩ := by
  obtain ⟨told, hfollows, htells⟩ := hs.told
  have hreader := hs.reader
  have hle := hs.le_latest latest hl
  generalize s.log = log at *
  generalize s.reader = reader at *
  cases hfollows with
  | unknown => cases hl
  | @known r h hr =>
    cases hl
    have ht := htells h rfl
    have hquery : EventLog.query (.known r) (reader.map Reader.position) r.latest =
        .ok (r.range (reader.map Reader.position) r.latest.sequence) :=
      EventLog.query_eq_ok_iff.2 ⟨r, rfl, ⟨rfl, UInt64.le_refl _⟩, rfl⟩
    have hend : h.stateAt r.latest.sequence = server.stateAt r.latest.epoch r.latest.sequence := by
      rw [hr.latest, ht.stateAt h.origin_le_latest (UInt64.le_refl _), History.epoch_latest]
    have hknown : ∀ p ∈ reader.map Reader.position, r.baselinePosition ≤ p →
        p.sequence ≤ r.latest.sequence ∧ (reader.map Reader.state).getD ∅ = h.stateAt p.sequence := by
      rintro p hp hbase
      obtain ⟨reader, rfl, rfl⟩ := Option.map_eq_some_iff.1 hp
      obtain ⟨hreported, hstate⟩ := hreader reader rfl
      have hepoch : reader.position.epoch = h.epoch := by rw [← hbase.1, r.baselinePosition_epoch, hr.epoch]
      have hle' := hle reader.position hreported (hepoch.trans hr.epoch.symm)
      refine ⟨hle', ?_⟩
      show reader.state = _
      rw [hstate, ht.stateAt (UInt64.le_trans hr.origin_le_baseline hbase.2) (hr.latest ▸ hle'), hepoch]
    refine ⟨⟨_, hquery⟩, ?_⟩
    simp only [Reader.poll, EventLog.latest?, hquery]
    rw [hr.applyAll_range hr.baseline_le_latest hknown, hend]

theorem poll (hs : s.Faithful server) : (s.step .poll).Faithful server where
  told := hs.told
  reported := hs.reported
  le_latest := hs.le_latest
  reader r hr := by
    cases hl : s.log.latest? with
    | none => exact hs.reader r (by simpa [Session.step, Reader.poll, hl] using hr)
    | some latest =>
      have heq : (s.step .poll).reader = some ⟨latest, server.stateAt latest.epoch latest.sequence⟩ :=
        (hs.poll_eq hl).2
      cases heq ▸ hr
      exact ⟨hs.reported latest hl, rfl⟩

theorem step (s : Session) (op : SessionOp) (hs : s.Faithful server) (ha : server.Allows s op) :
    (s.step op).Faithful server := by
  cases op with
  | call op => exact hs.call ha
  | poll => exact hs.poll

end Session.Faithful

/-- **A reader holds the state of the server** at its position, after any session in which a log is told the
truth; and whenever the log has a position it answers, and the answer takes the reader there. -/
theorem reader_holds_server_state (server : Server) (ops : List SessionOp)
    (h : Along Session.step server.Allows {} ops) :
    (∀ r ∈ (Session.run ops).reader, r.state = server.stateAt r.position.epoch r.position.sequence) ∧
    ∀ latest ∈ (Session.run ops).log.latest?,
      (∃ range, (Session.run ops).log.query ((Session.run ops).reader.map Reader.position) latest = .ok range) ∧
      Reader.poll (Session.run ops).reader (Session.run ops).log =
        some ⟨latest, server.stateAt latest.epoch latest.sequence⟩ := by
  have hs : (Session.run ops).Faithful server := h.foldl Session.Faithful.step (.start server)
  exact ⟨fun r hr => (hs.reader r hr).2, fun latest hl => hs.poll_eq hl⟩

/-! ### A session over two epochs -/

/-- A server whose third event in every epoch releases what the first locks. -/
def Server.releasingSample : Server where
  event _ n := if n = 3 then .unlock n (.ofList [⟨[1]⟩]) else .lockByte n n.toUInt8
  sequence_event _ n := by split <;> rfl

/-- What was delivered before comes again, and compaction overtakes the reader, before the epoch ends. -/
def Session.twoEpochsSample : List SessionOp :=
  let server := Server.releasingSample
  let (e, f) := (Epoch.ofByte 1, Epoch.ofByte 2)
  [.call (.update (.snapshot e 0 ∅ ∅)), .poll, .call (.update (.success e 2 (server.between e 0 2))), .poll,
    .call (.update (.success e 4 (server.between e 1 4))), .call (.compact ⟨e, 4⟩), .poll,
    .call (.update (.failed e)), .poll,
    .call (.update (.snapshot f 1 (server.stateAt f 1).locked (server.stateAt f 1).watched)),
    .call (.update (.success f 3 (server.between f 1 3))), .poll]

theorem sample_reader_holds_server_state :
    Along Session.step Server.releasingSample.Allows {} Session.twoEpochsSample ∧
    (Session.run Session.twoEpochsSample).reader =
      some ⟨⟨.ofByte 2, 3⟩, Server.releasingSample.stateAt (.ofByte 2) 3⟩ := by
  have hallowed : Along Session.step Server.releasingSample.Allows {} Session.twoEpochsSample := by
    refine ⟨⟨by decide, by decide⟩, trivial, ?_, trivial, ?_, trivial, trivial, trivial, trivial,
      ⟨by decide, by decide⟩, ?_, trivial, trivial⟩
    · exact ⟨0, 2, by decide, by decide, fun _ => Iff.rfl, by decide⟩
    · exact ⟨1, 4, by decide, by decide, fun _ => Iff.rfl, by decide⟩
    · exact ⟨1, 3, by decide, by decide, fun _ => Iff.rfl, by decide⟩
  refine ⟨hallowed, ?_⟩
  have hposition : (Session.run Session.twoEpochsSample).reader.map Reader.position = some ⟨.ofByte 2, 3⟩ := by decide
  obtain ⟨reader, hreader, hat⟩ := Option.map_eq_some_iff.1 hposition
  have hstate := (reader_holds_server_state Server.releasingSample Session.twoEpochsSample hallowed).1 reader hreader
  rw [hat] at hstate
  rw [hreader, ← hat, ← hstate]

end LockReplica
