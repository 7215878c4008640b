import LockReplica.Ascending.Lemmas
import LockReplica.Transport.Messages
import Mathlib.Data.List.Forall2

/-!
# What drafts say

Events and updates are made from drafts, in which a set is a list of its members in any order and with repetitions
(`Event.Draft`, `Update.Draft`). A draft may list every set in order (`Ascends`). Two drafts have the same content if
they differ in nothing but the order and the number of the members of sets (`SameContent`). A document may list the
members as a draft does (`document`). Every event and every update is made from a draft (`Event.ofDraft_draft`,
`Update.ofDraft_draft`).
-/

namespace LockReplica

open Codec

/-! ## Events -/

namespace Event.Draft

def Ascends : Draft → Prop
  | lock _ ds _ | unlock _ ds => LockReplica.Ascends ds
  | watchCreated _ rs ds => LockReplica.Ascends rs ∧ LockReplica.Ascends ds

def SameContent : Draft → Draft → Prop
  | lock n ds token, lock n' ds' token' => n = n' ∧ SameMembers ds ds' ∧ token = token'
  | unlock n ds, unlock n' ds' => n = n' ∧ SameMembers ds ds'
  | watchCreated n rs ds, watchCreated n' rs' ds' => n = n' ∧ SameMembers rs rs' ∧ SameMembers ds ds'
  | _, _ => False

def document : Draft → Json
  | lock n ds token =>
    .variant "Lock" (.record
      (["sequence", "lock_descriptors", "lock_token"].zip [toJson n, toJson ds, toJson token]))
  | unlock n ds => .variant "Unlock" (.record (["sequence", "lock_descriptors"].zip [toJson n, toJson ds]))
  | watchCreated n rs ds =>
    .variant "LockWatchCreated" (.record
      (["sequence", "references", "lock_descriptors"].zip [toJson n, toJson rs, toJson ds]))

end Event.Draft

/-- An event is made from the draft that shows it. -/
@[simp] theorem Event.ofDraft_draft (e : Event) : ofDraft e.draft = e := by
  cases e <;> simp [draft, ofDraft]

/-! ## Updates -/

namespace Update.Draft

def Ascends : Draft → Prop
  | success _ _ events => ∀ d ∈ events, d.Ascends
  | snapshot _ _ locked watched => LockReplica.Ascends locked ∧ LockReplica.Ascends watched
  | failed _ => True

def SameContent : Draft → Draft → Prop
  | success e n events, success e' n' events' => e = e' ∧ n = n' ∧ List.Forall₂ Event.Draft.SameContent events events'
  | snapshot e n locked watched, snapshot e' n' locked' watched' =>
    e = e' ∧ n = n' ∧ SameMembers locked locked' ∧ SameMembers watched watched'
  | failed e, failed e' => e = e'
  | _, _ => False

def document : Draft → Json
  | success e n events =>
    .variant "Success" (.record
      (["epoch", "last_known_sequence", "events"].zip
        [toJson e, toJson n, .array (events.map Event.Draft.document)]))
  | snapshot e n locked watched =>
    .variant "Snapshot" (.record
      (["epoch", "last_known_sequence", "locked", "watched"].zip
        [toJson e, toJson n, toJson locked, toJson watched]))
  | failed e => .variant "Failed" (.record (["epoch"].zip [toJson e]))

end Update.Draft

/-- An update is made from the draft that shows it. -/
@[simp] theorem Update.ofDraft_draft (u : Update) : ofDraft u.draft = u := by
  cases u <;> simp [draft, ofDraft, Function.comp_def]

end LockReplica
