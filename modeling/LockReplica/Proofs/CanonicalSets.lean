import LockReplica.LockState
import LockReplica.Proofs.Transport

/-!
# Sets are canonical

Descriptors, tokens and references are totally ordered (`totalOrder`), so a set has one listing in order
(`SortedSet.toList_eq_iff`).

* **Values by content** (`BuiltByContent`): a value is made from a draft, by the program or out of a document. It shows
  its sets in order, whatever the order in the draft, and is the same for two drafts exactly if they have the same
  content.
* **Kept by every operation** (`CanonicalSets`, `LockState.isListing_applyAll`): what is added and removed determines
  the listing, for one set and for the sets of a state that follows events.
-/

namespace LockReplica

open Std Codec
open Event (lastMention?)
open Json (Layout)
open SortedSet (IsListing)

universe u

/-- Values are made from drafts by content. -/
structure BuiltByContent {δ α : Type u} [Codec α] (build : δ → α) (draft : α → δ) (Ascends : δ → Prop)
    (SameContent : δ → δ → Prop) (document : δ → Json) : Prop where
  /-- Every value is made from the draft that shows it. -/
  build_draft : ∀ a, build (draft a) = a
  /-- The value that is made from a draft shows the sets of the draft in order. -/
  draft_build_eq_iff : ∀ d d', draft (build d) = d' ↔ Ascends d' ∧ SameContent d d'
  build_eq_iff : ∀ d d', build d = build d' ↔ SameContent d d'
  /-- What is read from a document is made from its draft. -/
  decode?_text : ∀ d, decode? (document d).text = some (build d)

/-! ## Sets -/

/-- The sets of a type are made from lists by content, and so are those that come of adding and removing. -/
structure CanonicalSets (α : Type u) [Ord α] [TransOrd α] [DecidableEq α] [Codec α] : Prop where
  built : BuiltByContent (Ascending.ofList : List α → SortedSet α) Ascending.toList Ascends SameMembers toJson
  /-- Any document of a list is a document of the set with the members of the list. -/
  reading : ∀ (layout : Layout) (j : Json) (xs : List α), ofJson? layout j = some xs →
    ofJson? layout j = some (Ascending.ofList xs : SortedSet α)
  insert : ∀ (s : SortedSet α) (x : α) (l : List α), (s.insert x).toList = l ↔ IsListing (fun y => y = x ∨ y ∈ s) l
  extend : ∀ (s t : SortedSet α) (l : List α), (s ∪ t).toList = l ↔ IsListing (fun y => y ∈ s ∨ y ∈ t) l
  remove : ∀ (s t : SortedSet α) (l : List α), (s \ t).toList = l ↔ IsListing (fun y => y ∈ s ∧ y ∉ t) l

namespace SortedSet

variable {α : Type u} [Ord α]

theorem isListing_iff {xs ys : List α} : IsListing (· ∈ xs) ys ↔ Ascends ys ∧ SameMembers xs ys :=
  ⟨fun h => ⟨h.ascending, fun x => (h.mem_iff x).symm⟩, fun h => ⟨h.1, fun x => (h.2 x).symm⟩⟩

variable [TransOrd α] [LawfulEqOrd α]

theorem toList_ofList_eq_iff {xs ys : List α} :
    (Ascending.ofList xs : SortedSet α).toList = ys ↔ Ascends ys ∧ SameMembers xs ys :=
  (toList_eq_iff fun _ => mem_ofList).trans isListing_iff

theorem canonicalSets [DecidableEq α] [Codec α] [LawfulCodec α] : CanonicalSets α where
  built :=
    { build_draft := fun _ => ofList_toList
      draft_build_eq_iff := fun _ _ => toList_ofList_eq_iff
      build_eq_iff := fun _ _ => ofList_eq_ofList_iff
      decode?_text := fun xs => decode?_text_eq_some (ofJson?_toJson_list .free xs) }
  reading _ _ _ := ofJson?_of_list
  insert _ _ _ := toList_eq_iff fun _ => mem_insert
  extend _ _ _ := toList_eq_iff fun _ => mem_union
  remove _ _ _ := toList_eq_iff fun _ => mem_sdiff

end SortedSet

/-! ## Events -/

namespace Event

theorem draft_ofDraft_eq_iff {d d' : Draft} : (ofDraft d).draft = d' ↔ d'.Ascends ∧ d.SameContent d' := by
  cases d <;> cases d' <;>
    simp [ofDraft, draft, Draft.Ascends, Draft.SameContent, SortedSet.toList_ofList_eq_iff, and_left_comm, and_assoc]

theorem ofDraft_eq_ofDraft_iff {d d' : Draft} : ofDraft d = ofDraft d' ↔ d.SameContent d' := by
  cases d <;> cases d' <;> simp [ofDraft, Draft.SameContent, SortedSet.ofList_eq_ofList_iff]

theorem builtByContent : BuiltByContent ofDraft draft Draft.Ascends Draft.SameContent Draft.document where
  build_draft := ofDraft_draft
  draft_build_eq_iff _ _ := draft_ofDraft_eq_iff
  build_eq_iff _ _ := ofDraft_eq_ofDraft_iff
  decode?_text d := decode?_text_eq_some (ofJson?_document .free d)

example : ofDraft (.unlock 1 [⟨[2]⟩, ⟨[1, 0]⟩, ⟨[2]⟩]) = ofDraft (.unlock 1 [⟨[1, 0]⟩, ⟨[2]⟩]) := by decide

end Event

/-! ## Updates -/

namespace Update

/-- The events that are made from drafts show their sets in order, one by one. -/
theorem map_draft_ofDraft_eq_iff {ds ds' : List Event.Draft} : ds.map (Event.draft ∘ Event.ofDraft) = ds' ↔
    (∀ d ∈ ds', d.Ascends) ∧ List.Forall₂ Event.Draft.SameContent ds ds' := by
  induction ds generalizing ds' with
  | nil => cases ds' <;> simp
  | cons d ds ih =>
    cases ds' with
    | nil => simp
    | cons d' ds' =>
      rw [List.map_cons, Function.comp_apply, List.cons_eq_cons, Event.draft_ofDraft_eq_iff, ih,
        List.forall_mem_cons, List.forall₂_cons, and_and_and_comm]

theorem map_ofDraft_eq_iff {ds ds' : List Event.Draft} : ds.map Event.ofDraft = ds'.map Event.ofDraft ↔
    List.Forall₂ Event.Draft.SameContent ds ds' := by
  rw [← List.forall₂_eq_eq_eq, List.forall₂_map_left_iff, List.forall₂_map_right_iff]
  simp only [Event.ofDraft_eq_ofDraft_iff]

theorem draft_ofDraft_eq_iff {d d' : Draft} : (ofDraft d).draft = d' ↔ d'.Ascends ∧ d.SameContent d' := by
  cases d <;> cases d' <;>
    simp [ofDraft, draft, Draft.Ascends, Draft.SameContent, map_draft_ofDraft_eq_iff, SortedSet.toList_ofList_eq_iff,
      and_left_comm, and_assoc]

theorem ofDraft_eq_ofDraft_iff {d d' : Draft} : ofDraft d = ofDraft d' ↔ d.SameContent d' := by
  cases d <;> cases d' <;>
    simp [ofDraft, Draft.SameContent, map_ofDraft_eq_iff, SortedSet.ofList_eq_ofList_iff]

theorem builtByContent : BuiltByContent ofDraft draft Draft.Ascends Draft.SameContent Draft.document where
  build_draft := ofDraft_draft
  draft_build_eq_iff _ _ := draft_ofDraft_eq_iff
  build_eq_iff _ _ := ofDraft_eq_ofDraft_iff
  decode?_text d := decode?_text_eq_some (ofJson?_document .free d)

end Update

/-! ## States -/

namespace LockState

/-- States are the same exactly if the same is locked and watched. -/
theorem eq_iff {s t : LockState} :
    s = t ↔ SameMembers s.locked.toList t.locked.toList ∧ SameMembers s.watched.toList t.watched.toList := by
  constructor
  · rintro rfl
    exact ⟨fun _ => Iff.rfl, fun _ => Iff.rfl⟩
  · rintro ⟨hlocked, hwatched⟩
    exact ext_mem hlocked hwatched

/-- States are the same exactly if they are as events. -/
theorem asEvent_eq_asEvent_iff {s t : LockState} {n : Sequence} : s.asEvent n = t.asEvent n ↔ s = t := by
  cases s
  cases t
  simp [asEvent, and_comm]

/-- The sets of a state that follows events are listings of what the last mentions lock and of all watches. -/
theorem isListing_applyAll (s : LockState) (es : List Event) :
    IsListing (fun d => (lastMention? es d).elim (d ∈ s.locked) Event.Locks) (s.applyAll es).locked.toList ∧
      IsListing (fun r => r ∈ s.watched ∨ ∃ n rs ds, .watchCreated n rs ds ∈ es ∧ r ∈ rs)
        (s.applyAll es).watched.toList :=
  ⟨(SortedSet.toList_eq_iff fun _ => mem_locked_applyAll).1 rfl,
    (SortedSet.toList_eq_iff fun _ => mem_watched_applyAll).1 rfl⟩

end LockState

/-! ## Canonicity -/

/-- **Sets are canonical**: descriptors and tokens are totally ordered by their bytes, and references by kind, table
and beginning. A set of descriptors or references, an event and an update is made from lists, or read from a document
of such lists, by content: the members are those of the lists, they are shown in order, and equal content makes equal
values. So it is with states, whatever events they follow. -/
theorem set_fields_canonical :
    ((TotalOrder Descriptor ∧ ∀ d d' : Descriptor, compare d d' = .lt ↔ d.bytes < d'.bytes) ∧
      (TotalOrder Token ∧ ∀ t t' : Token, compare t t' = .lt ↔ t.id.bytes < t'.id.bytes) ∧
      TotalOrder Reference ∧ ∀ r r' : Reference, compare r r' = .lt ↔ r.Before r') ∧
    (CanonicalSets Descriptor ∧ CanonicalSets Reference) ∧
    BuiltByContent Event.ofDraft Event.draft Event.Draft.Ascends Event.Draft.SameContent Event.Draft.document ∧
    BuiltByContent Update.ofDraft Update.draft Update.Draft.Ascends Update.Draft.SameContent Update.Draft.document ∧
    (∀ s t : LockState,
      (s = t ↔ SameMembers s.locked.toList t.locked.toList ∧ SameMembers s.watched.toList t.watched.toList) ∧
      ∀ n, s.asEvent n = t.asEvent n ↔ s = t) ∧
    ∀ (s : LockState) (es : List Event),
      IsListing (fun d => (lastMention? es d).elim (d ∈ s.locked) Event.Locks) (s.applyAll es).locked.toList ∧
      IsListing (fun r => r ∈ s.watched ∨ ∃ n rs ds, .watchCreated n rs ds ∈ es ∧ r ∈ rs)
        (s.applyAll es).watched.toList :=
  ⟨⟨⟨totalOrder _, fun _ _ => Descriptor.compare_eq_lt_iff⟩, ⟨totalOrder _, fun _ _ => Token.compare_eq_lt_iff⟩,
      totalOrder _, fun _ _ => Reference.compare_eq_lt_iff⟩,
    ⟨SortedSet.canonicalSets, SortedSet.canonicalSets⟩, Event.builtByContent, Update.builtByContent,
    fun _ _ => ⟨LockState.eq_iff, fun _ => LockState.asEvent_eq_asEvent_iff⟩, LockState.isListing_applyAll⟩

end LockReplica
