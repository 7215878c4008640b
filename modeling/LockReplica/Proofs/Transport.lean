import LockReplica.Ascending.Lemmas
import LockReplica.Json.Fields
import LockReplica.Json.RoundTrip
import LockReplica.Transport.Draft

/-!
# Transport loses nothing

A codec is lawful if it reads what it writes (`LawfulCodec`), whatever layout it is told to expect. The texts of
documents are read back (`Json.ofText?_text`), so a lawful codec reads the text that it writes (`decode?_encode`). All
codecs of the project are lawful: records and variants by the names of their fields (`Json.fields?_record`), and
identifiers by their text. A set is read from a list of its members in any order (`SortedSet.ofJson?_toJson_list`), and
so an event or an update is read from any draft of it (`Event.ofJson?_document`, `Update.ofJson?_document`), that which
lists the sets in order among them.
-/

namespace LockReplica

open Codec
open Json (Layout)

universe u

/-! ## Lawful codecs -/

/-- What is written is read back. -/
class LawfulCodec (α : Type u) [Codec α] : Prop where
  ofJson?_toJson : ∀ (layout : Layout) (a : α), ofJson? layout (toJson a) = some a

export LawfulCodec (ofJson?_toJson)

attribute [simp] LawfulCodec.ofJson?_toJson

theorem Codec.decode?_text_eq_some {α : Type u} [Codec α] {j : Json} {a : α} (h : ofJson? .free j = some a) :
    decode? j.text = some a := by
  rw [decode?, Json.ofText?_text, Option.bind_some, h]

/-- What is sent as a text arrives. -/
theorem Codec.decode?_encode {α : Type u} [Codec α] [LawfulCodec α] (a : α) : decode? (encode a) = some a :=
  decode?_text_eq_some (ofJson?_toJson .free a)

theorem Codec.natBelow?_ofNat {bound n : Nat} (h : n < bound) : natBelow? bound (Json.ofNat n) = some n := by
  simp [natBelow?, h]

instance : LawfulCodec UInt8 where
  ofJson?_toJson _ b := by simp [ofJson?, toJson, natBelow?_ofNat b.toNat_lt_size]

instance : LawfulCodec UInt64 where
  ofJson?_toJson _ n := by simp [ofJson?, toJson, natBelow?_ofNat n.toNat_lt_size]

instance : LawfulCodec Bool where
  ofJson?_toJson _ _ := rfl

instance : LawfulCodec String where
  ofJson?_toJson _ _ := rfl

theorem Codec.mapM_ofJson?_map_toJson {α : Type u} [Codec α] [LawfulCodec α] (layout : Layout) (as : List α) :
    (as.map toJson).mapM (ofJson? layout) = some as := by
  rw [Json.mapM_eq_some_iff, List.map_map]
  exact List.map_congr_left fun a _ => ofJson?_toJson layout a

instance {α : Type u} [Codec α] [LawfulCodec α] : LawfulCodec (List α) where
  ofJson?_toJson layout as := mapM_ofJson?_map_toJson layout as

section Sets

variable {α : Type u} [Ord α] [Std.TransOrd α] [Codec α]

/-- A document of a list is one of the set with the members of the list. -/
theorem SortedSet.ofJson?_of_list {layout : Layout} {j : Json} {xs : List α} (h : ofJson? layout j = some xs) :
    ofJson? layout j = some (Ascending.ofList xs : SortedSet α) :=
  congrArg (Option.map Ascending.ofList) h

variable [LawfulCodec α]

@[simp] theorem SortedSet.ofJson?_toJson_list (layout : Layout) (xs : List α) :
    ofJson? layout (toJson xs) = some (Ascending.ofList xs : SortedSet α) :=
  ofJson?_of_list (ofJson?_toJson layout xs)

instance [Std.LawfulEqOrd α] : LawfulCodec (SortedSet α) where
  ofJson?_toJson layout s := by
    show ofJson? layout (toJson s.toList) = some s
    rw [SortedSet.ofJson?_toJson_list, SortedSet.ofList_toList]

end Sets

instance : LawfulCodec Uuid where
  ofJson?_toJson _ u := Uuid.ofText?_text u

instance : LawfulCodec Epoch where
  ofJson?_toJson layout e := congrArg (Option.map Epoch.mk) (ofJson?_toJson layout e.id)

instance : LawfulCodec Token where
  ofJson?_toJson layout t := congrArg (Option.map Token.mk) (ofJson?_toJson layout t.id)

instance : LawfulCodec Descriptor where
  ofJson?_toJson layout d := congrArg (Option.map Descriptor.mk) (ofJson?_toJson layout d.bytes)

/-! ## Records and variants

Each record is written as its names zipped with its values, which is the form in which `Json.fields?_record` reads it.
-/

theorem Position.toJson_mk (epoch : Epoch) (sequence : Sequence) : toJson (⟨epoch, sequence⟩ : Position) =
    .record (["epoch", "sequence"].zip [toJson epoch, toJson sequence]) := rfl

instance : LawfulCodec Position where
  ofJson?_toJson layout p := by
    show Option.bind (Json.fields? _ (toJson p)) _ = _
    rw [Position.toJson_mk, Json.fields?_record (by decide) rfl]
    simp

theorem Config.toJson_mk (compaction : Bool) (retained : UInt64) : toJson (⟨compaction, retained⟩ : Config) =
    .record (["compaction_enabled", "retained_sequences"].zip [toJson compaction, toJson retained]) := rfl

instance : LawfulCodec Config where
  ofJson?_toJson layout c := by
    show Option.bind (Json.fields? _ (toJson c)) _ = _
    rw [Config.toJson_mk, Json.fields?_record (by decide) rfl]
    simp

theorem Reference.toJson_rowPrefix (table : String) (start : List UInt8) : toJson (Reference.rowPrefix table start) =
    .variant "RowPrefix" (.record (["table", "prefix"].zip [toJson table, toJson start])) := rfl

theorem Reference.ofJson?_variant (layout : Layout) (name : String) (content : Json) :
    ofJson? layout (.variant name content) = Reference.ofContent? layout name content := rfl

instance : LawfulCodec Reference where
  ofJson?_toJson layout r := by
    cases r with
    | entireTable table => exact congrArg (Option.map Reference.entireTable) (ofJson?_toJson layout table)
    | rowPrefix table start =>
      rw [Reference.toJson_rowPrefix, Reference.ofJson?_variant, Reference.ofContent?,
        Json.content?_record (by decide) rfl]
      simp

theorem Event.toJson_lock (n : Sequence) (ds : DescriptorSet) (token : Token) : toJson (Event.lock n ds token) =
    .variant "Lock" (.record
      (["sequence", "lock_descriptors", "lock_token"].zip [toJson n, toJson ds, toJson token])) := rfl

theorem Event.toJson_unlock (n : Sequence) (ds : DescriptorSet) : toJson (Event.unlock n ds) =
    .variant "Unlock" (.record (["sequence", "lock_descriptors"].zip [toJson n, toJson ds])) := rfl

theorem Event.toJson_watchCreated (n : Sequence) (rs : ReferenceSet) (ds : DescriptorSet) :
    toJson (Event.watchCreated n rs ds) = .variant "LockWatchCreated" (.record
      (["sequence", "references", "lock_descriptors"].zip [toJson n, toJson rs, toJson ds])) := rfl

theorem Event.ofJson?_variant (layout : Layout) (name : String) (content : Json) :
    ofJson? layout (.variant name content) = Event.ofContent? layout name content := rfl

theorem Event.ofJson?_document (layout : Layout) (d : Draft) : ofJson? layout d.document = some (ofDraft d) := by
  cases d with
  | lock n ds token =>
    rw [Draft.document, Event.ofJson?_variant, ofContent?, Json.content?_record (by decide) rfl]
    simp [ofDraft]
  | unlock n ds =>
    rw [Draft.document, Event.ofJson?_variant, ofContent?, Json.content?_record (by decide) rfl]
    simp [ofDraft]
  | watchCreated n rs ds =>
    rw [Draft.document, Event.ofJson?_variant, ofContent?, Json.content?_record (by decide) rfl]
    simp [ofDraft]

/-- An event is written as its draft. -/
theorem Event.toJson_eq_document (e : Event) : toJson e = e.draft.document := by
  cases e <;> rfl

instance : LawfulCodec Event where
  ofJson?_toJson layout e := by
    rw [Event.toJson_eq_document, Event.ofJson?_document, Event.ofDraft_draft]

theorem Update.toJson_success (e : Epoch) (n : Sequence) (events : List Event) : toJson (Update.success e n events) =
    .variant "Success" (.record
      (["epoch", "last_known_sequence", "events"].zip [toJson e, toJson n, toJson events])) := rfl

theorem Update.toJson_snapshot (e : Epoch) (n : Sequence) (locked : DescriptorSet) (watched : ReferenceSet) :
    toJson (Update.snapshot e n locked watched) = .variant "Snapshot" (.record
      (["epoch", "last_known_sequence", "locked", "watched"].zip
        [toJson e, toJson n, toJson locked, toJson watched])) := rfl

theorem Update.toJson_failed (e : Epoch) :
    toJson (Update.failed e) = .variant "Failed" (.record (["epoch"].zip [toJson e])) := rfl

theorem Update.ofJson?_variant (layout : Layout) (name : String) (content : Json) :
    ofJson? layout (.variant name content) = Update.ofContent? layout name content := rfl

theorem Update.ofJson?_map_document (layout : Layout) (ds : List Event.Draft) :
    ofJson? layout (.array (ds.map Event.Draft.document)) = some (ds.map Event.ofDraft) := by
  show (ds.map Event.Draft.document).mapM (ofJson? layout) = _
  rw [Json.mapM_eq_some_iff, List.map_map, List.map_map]
  exact List.map_congr_left fun d _ => Event.ofJson?_document layout d

theorem Update.ofJson?_document (layout : Layout) (d : Draft) : ofJson? layout d.document = some (ofDraft d) := by
  cases d with
  | success e n events =>
    rw [Draft.document, Update.ofJson?_variant, ofContent?, Json.content?_record (by decide) rfl]
    simp [ofDraft, ofJson?_map_document]
  | snapshot e n locked watched =>
    rw [Draft.document, Update.ofJson?_variant, ofContent?, Json.content?_record (by decide) rfl]
    simp [ofDraft]
  | failed e =>
    rw [Draft.document, Update.ofJson?_variant, ofContent?, Json.content?_record (by decide) rfl]
    simp [ofDraft]

/-- An update is written as its draft. -/
theorem Update.toJson_eq_document (u : Update) : toJson u = u.draft.document := by
  cases u with
  | success e n events =>
    have hevents : toJson events = .array ((events.map Event.draft).map Event.Draft.document) := by
      rw [List.map_map]
      exact congrArg Json.array (List.map_congr_left fun e _ => Event.toJson_eq_document e)
    rw [Update.toJson_success, hevents]
    rfl
  | snapshot e n locked watched => rfl
  | failed e => rfl

instance : LawfulCodec Update where
  ofJson?_toJson layout u := by
    rw [Update.toJson_eq_document, Update.ofJson?_document, Update.ofDraft_draft]

/-! ## Transport -/

/-- **Transport loses nothing**: the text of an update, and of every part of one, of a position and of settings, is
read as the value that was written. -/
theorem transport_loses_nothing :
    (∀ u : Update, decode? (encode u) = some u) ∧ (∀ e : Event, decode? (encode e) = some e) ∧
      (∀ r : Reference, decode? (encode r) = some r) ∧ (∀ d : Descriptor, decode? (encode d) = some d) ∧
      (∀ t : Token, decode? (encode t) = some t) ∧ (∀ e : Epoch, decode? (encode e) = some e) ∧
      (∀ p : Position, decode? (encode p) = some p) ∧ ∀ c : Config, decode? (encode c) = some c :=
  ⟨decode?_encode, decode?_encode, decode?_encode, decode?_encode, decode?_encode, decode?_encode, decode?_encode,
    decode?_encode⟩

end LockReplica
