import LockReplica.Proofs.Transport
import LockReplica.Transport.Shape

/-!
# Decoding by meaning

What is read from a document depends on its meaning only (`decoding_by_meaning`). It is enough to look at single
rewrites, since equality is an equivalence, and at the rewrites of each shape on their own: a reader that respects the
rewrites of the parts respects those of the whole (`MeaningCodec`). The work is in three places:

- identifiers, where the texts that are read as one are its forms (`Uuid.ofText?_eq_some_iff`);
- sets, which are equal if they have the same members (`map_ofList_mapM_congr`);
- records, where a rewrite leaves the values found as they are but for one rewrite of one value (`Rewrite.fields?`).

Lists are read member by member, so that a permuted list gives the permuted members (`mapM_arrange`). What is written is
canonical: the written document is determined by the value, and the value by the meaning.
-/

namespace LockReplica

open Codec
open Relation (ReflGen)

universe u

/-! ## Codecs that read the meaning -/

/-- What is read does not change under a rewrite, and what is written is canonical. -/
class MeaningCodec (α : Type u) [Codec α] [Shaped α] : Prop where
  ofJson?_eq_of_rewrite : ∀ {j j' : Json}, Rewrite (shape α) j j' → (ofJson? .free j : Option α) = ofJson? .free j'
  canonical_toJson : ∀ a : α, Canonical (shape α) (toJson a)

export MeaningCodec (ofJson?_eq_of_rewrite canonical_toJson)

section

variable {α : Type u} [Codec α] [Shaped α] [MeaningCodec α]

/-- At most one rewrite makes no difference. -/
theorem ofJson?_eq_of_reflGen {j j' : Json} (h : ReflGen (Rewrite (shape α)) j j') :
    (ofJson? .free j : Option α) = ofJson? .free j' := by
  cases h with
  | refl => rfl
  | single h => exact ofJson?_eq_of_rewrite h

/-- Documents of one meaning are read alike. -/
theorem SameMeaning.ofJson?_eq {j j' : Json} (h : SameMeaning (shape α) j j') :
    (ofJson? .free j : Option α) = ofJson? .free j' := by
  induction h with
  | rel j j' h => exact ofJson?_eq_of_rewrite h
  | refl j => rfl
  | symm j j' _ ih => exact ih.symm
  | trans j k j' _ _ ih₁ ih₂ => exact ih₁.trans ih₂

end

/-! ## Atoms and identifiers -/

instance : MeaningCodec UInt8 where
  ofJson?_eq_of_rewrite h := nomatch h
  canonical_toJson _ := .atom _

instance : MeaningCodec UInt64 where
  ofJson?_eq_of_rewrite h := nomatch h
  canonical_toJson _ := .atom _

instance : MeaningCodec String where
  ofJson?_eq_of_rewrite h := nomatch h
  canonical_toJson _ := .atom _

theorem Hex.mem_ofBytes {bs : List UInt8} {c : Char} (h : c ∈ ofBytes bs) : c ∈ "0123456789abcdef".toList := by
  have hdigit : ∀ n < 16, Nat.digitChar n ∈ "0123456789abcdef".toList := by decide
  obtain ⟨b, -, hb⟩ := List.mem_flatMap.1 h
  have hlt := b.toNat_lt
  rcases List.mem_cons.1 hb with rfl | hb
  · exact hdigit _ (by omega)
  · rw [List.mem_singleton.1 hb]
    exact hdigit _ (by omega)

instance : MeaningCodec Uuid where
  ofJson?_eq_of_rewrite h := by
    cases h with
    | respell hs ht => exact (Uuid.ofText?_eq_some_iff.2 hs).trans (Uuid.ofText?_eq_some_iff.2 ht).symm
  canonical_toJson u := .identifier (by simp [u.length_bytes]) fun _ hc => Hex.mem_ofBytes hc

instance : MeaningCodec Epoch where
  ofJson?_eq_of_rewrite h := congrArg (Option.map Epoch.mk) (ofJson?_eq_of_rewrite h)
  canonical_toJson e := canonical_toJson e.id

instance : MeaningCodec Token where
  ofJson?_eq_of_rewrite h := congrArg (Option.map Token.mk) (ofJson?_eq_of_rewrite h)
  canonical_toJson t := canonical_toJson t.id

/-! ## Lists and sets -/

instance {α : Type u} [Codec α] [Shaped α] [MeaningCodec α] : MeaningCodec (List α) where
  ofJson?_eq_of_rewrite h := by
    cases h with
    | item before after h => exact Json.mapM_append_cons (ofJson?_eq_of_rewrite h) before after
  canonical_toJson as := .list fun v hv => by
    obtain ⟨a, -, rfl⟩ := List.mem_map.1 hv
    exact canonical_toJson a

instance : MeaningCodec Descriptor where
  ofJson?_eq_of_rewrite h := congrArg (Option.map Descriptor.mk) (ofJson?_eq_of_rewrite h)
  canonical_toJson d := canonical_toJson d.bytes

section

variable {α : Type u} [Ord α] [Std.TransOrd α] [Std.LawfulEqOrd α]

/-- A set is read from the members of an array, whatever their order and number. -/
theorem map_ofList_mapM_congr {read : Json → Option α} {vs vs' : List Json} (h : ∀ v, v ∈ vs ↔ v ∈ vs') :
    (vs.mapM read).map (Ascending.ofList : List α → SortedSet α) = (vs'.mapM read).map Ascending.ofList := by
  have hnone : vs.mapM read = none ↔ vs'.mapM read = none := by
    simp only [Json.mapM_eq_none_iff, h]
  cases has : vs.mapM read with
  | none => rw [hnone.1 has]
  | some as =>
    obtain ⟨as', has'⟩ := Option.ne_none_iff_exists'.1 fun h' => by simp [has] at hnone; exact hnone h'
    rw [has', Option.map_some, Option.map_some]
    congr 1
    refine Ascending.ext_mem fun a => ?_
    rw [SortedSet.mem_ofList, SortedSet.mem_ofList, Json.mem_of_mapM has, Json.mem_of_mapM has']
    simp only [h]

instance [Codec α] [LawfulCodec α] [Shaped α] [MeaningCodec α] : MeaningCodec (SortedSet α) where
  ofJson?_eq_of_rewrite h := by
    cases h with
    | relist h => exact map_ofList_mapM_congr h
    | member before after h =>
      exact congrArg (Option.map Ascending.ofList) (Json.mapM_append_cons (ofJson?_eq_of_rewrite h) before after)
  canonical_toJson s := by
    refine .set (fun v hv => ?_) (List.pairwise_map.2 (s.ascending.imp fun {a b} hab => ?_))
    · obtain ⟨a, -, rfl⟩ := List.mem_map.1 hv
      exact canonical_toJson a
    · exact ⟨a, b, ofJson?_toJson .free a, ofJson?_toJson .free b, hab⟩

end

/-! ## Records

A rewrite of a record changes where its values are found or one of the values, and never which value a name has its
place for. So the values found before and after are the same but for one rewrite.
-/

/-- Values of fields, each the same in both lists or rewritten once. -/
inductive Alike : List (String × Shape) → List Json → List Json → Prop
  | nil : Alike [] [] []
  | cons {name : String} {s : Shape} {fields : List (String × Shape)} {v v' : Json} {vs vs' : List Json} :
      ReflGen (Rewrite s) v v' → Alike fields vs vs' → Alike ((name, s) :: fields) (v :: vs) (v' :: vs')

theorem Alike.refl {fields : List (String × Shape)} {vs : List Json} (h : vs.length = fields.length) :
    Alike fields vs vs := by
  induction fields generalizing vs with
  | nil =>
    rw [List.eq_nil_of_length_eq_zero h]
    exact .nil
  | cons f fields ih =>
    obtain ⟨v, vs, rfl⟩ := List.exists_cons_of_length_eq_add_one h
    exact .cons .refl (ih (Nat.succ.inj h))

theorem Alike.of_rewrite {before after : List (String × Shape)} {name : String} {s : Shape} {l r : List Json}
    (hl : l.length = before.length) (hr : r.length = after.length) {v v' : Json} (h : Rewrite s v v') :
    Alike (before ++ (name, s) :: after) (l ++ v :: r) (l ++ v' :: r) := by
  induction before generalizing l with
  | nil =>
    rw [List.eq_nil_of_length_eq_zero hl]
    exact .cons (.single h) (.refl hr)
  | cons f before ih =>
    obtain ⟨w, l, rfl⟩ := List.exists_cons_of_length_eq_add_one hl
    exact .cons .refl (ih (Nat.succ.inj hl))

/-- A rewrite of a record leaves what is found as it is, or rewrites one of the values found. -/
theorem Rewrite.fields? {fields : List (String × Shape)} (hnames : (fields.map Prod.fst).Nodup) {j j' : Json}
    (h : Rewrite (.record fields) j j') :
    j.fields? (fields.map Prod.fst) = j'.fields? (fields.map Prod.fst) ∨
      ∃ vs vs', j.fields? (fields.map Prod.fst) = some vs ∧ j'.fields? (fields.map Prod.fst) = some vs' ∧
        Alike fields vs vs' := by
  cases h with
  | permute h => exact .inl (Json.fields?_perm h _)
  | extend v h => exact .inl (Json.fields?_cons_of_not_mem h _ v).symm
  | @unname _ vs h =>
    have hlen : (fields.map Prod.fst).length = vs.length := by simp [h]
    refine .inl ((Json.fields?_record hnames hlen).trans ?_)
    rw [Json.fields?, if_pos hlen.symm]
  | @field _ name s v v' before after hfield h =>
    obtain ⟨fs, gs, rfl⟩ := List.append_of_mem hfield
    rw [List.map_append, List.map_cons] at hnames ⊢
    rcases Json.fields?_object_append_cons hnames before after with hnone | ⟨l, r, hl, hr, hsome⟩
    · exact .inl (by rw [hnone, hnone])
    · exact .inr ⟨_, _, hsome v, hsome v', .of_rewrite (by simpa using hl) (by simpa using hr) h⟩
  | @component _ name s v v' before after hfield h =>
    have hlen : (before ++ v' :: after).length = (before ++ v :: after).length := by simp
    by_cases hall : (before ++ v :: after).length = (fields.map Prod.fst).length
    · obtain ⟨hlt, hget⟩ := List.getElem?_eq_some_iff.1 hfield
      refine .inr ⟨_, _, if_pos hall, if_pos (hlen.trans hall), ?_⟩
      rw [← List.take_append_drop before.length fields, List.drop_eq_getElem_cons hlt, hget]
      simp only [List.length_append, List.length_cons, List.length_map] at hall
      refine .of_rewrite ?_ ?_ h
      · rw [List.length_take]
        omega
      · rw [List.length_drop]
        omega
    · exact .inl ((if_neg hall).trans (if_neg (hlen ▸ hall)).symm)

/-- What is made of the values of a record does not change under a rewrite, if it depends on the meaning of each. -/
theorem Rewrite.content?_bind {α : Type u} {fields : List (String × Shape)} {names : List String}
    {make : List Json → Option α} (hfields : fields.map Prod.fst = names) (hnames : names.Nodup)
    (hmake : ∀ {vs vs'}, Alike fields vs vs' → make vs = make vs') {j j' : Json} (h : Rewrite (.record fields) j j') :
    (j.content? .free names).bind make = (j'.content? .free names).bind make := by
  subst hfields
  rw [Json.content?_free, Json.content?_free]
  rcases h.fields? hnames with h | ⟨vs, vs', hvs, hvs', h⟩
  · rw [h]
  · rw [hvs, hvs', Option.bind_some, Option.bind_some, hmake h]

/-- The record of canonical values is canonical, in the form in which records are written. -/
theorem Canonical.record_zip {fields : List (String × Shape)} {names : List String} {vs : List Json}
    (hfields : fields.map Prod.fst = names) (hlen : vs.length = fields.length)
    (h : ∀ f ∈ fields.zip vs, Canonical f.1.2 f.2) : Canonical (.record fields) (.record (names.zip vs)) :=
  hfields ▸ .record hlen h

/-! ## Variants -/

theorem Rewrite.variant {cases : List (String × Shape)} {j j' : Json} (h : Rewrite (.variant cases) j j') :
    ∃ name s v v', (name, s) ∈ cases ∧ Rewrite s v v' ∧ j = .variant name v ∧ j' = .variant name v' := by
  cases h with
  | content hcase h => exact ⟨_, _, _, _, hcase, h, rfl, rfl⟩

instance : MeaningCodec Reference where
  ofJson?_eq_of_rewrite h := by
    obtain ⟨name, s, v, v', hcase, h, rfl, rfl⟩ := h.variant
    rw [Reference.ofJson?_variant, Reference.ofJson?_variant]
    simp only [List.mem_cons, Prod.mk.injEq, List.not_mem_nil, or_false] at hcase
    rcases hcase with ⟨rfl, rfl⟩ | ⟨rfl, rfl⟩
    · rw [Reference.ofContent?, Reference.ofContent?, ofJson?_eq_of_rewrite h]
    · rw [Reference.ofContent?, Reference.ofContent?]
      refine h.content?_bind rfl (by decide) fun h => ?_
      obtain _ | ⟨htable, _ | ⟨hstart, ⟨⟩⟩⟩ := h
      simp only [ofJson?_eq_of_reflGen htable, ofJson?_eq_of_reflGen hstart]
  canonical_toJson r := by
    cases r with
    | entireTable table => exact .variant (.head _) (canonical_toJson table)
    | rowPrefix table start =>
      rw [Reference.toJson_rowPrefix]
      exact .variant (.tail _ (.head _)) (.record_zip rfl rfl (by simp [canonical_toJson]))

instance : MeaningCodec Event where
  ofJson?_eq_of_rewrite h := by
    obtain ⟨name, s, v, v', hcase, h, rfl, rfl⟩ := h.variant
    rw [Event.ofJson?_variant, Event.ofJson?_variant]
    simp only [List.mem_cons, Prod.mk.injEq, List.not_mem_nil, or_false] at hcase
    rcases hcase with ⟨rfl, rfl⟩ | ⟨rfl, rfl⟩ | ⟨rfl, rfl⟩
    · rw [Event.ofContent?, Event.ofContent?]
      refine h.content?_bind rfl (by decide) fun h => ?_
      obtain _ | ⟨hn, _ | ⟨hds, _ | ⟨htoken, ⟨⟩⟩⟩⟩ := h
      simp only [ofJson?_eq_of_reflGen hn, ofJson?_eq_of_reflGen hds, ofJson?_eq_of_reflGen htoken]
    · rw [Event.ofContent?, Event.ofContent?]
      refine h.content?_bind rfl (by decide) fun h => ?_
      obtain _ | ⟨hn, _ | ⟨hds, ⟨⟩⟩⟩ := h
      simp only [ofJson?_eq_of_reflGen hn, ofJson?_eq_of_reflGen hds]
    · rw [Event.ofContent?, Event.ofContent?]
      refine h.content?_bind rfl (by decide) fun h => ?_
      obtain _ | ⟨hn, _ | ⟨hrs, _ | ⟨hds, ⟨⟩⟩⟩⟩ := h
      simp only [ofJson?_eq_of_reflGen hn, ofJson?_eq_of_reflGen hrs, ofJson?_eq_of_reflGen hds]
  canonical_toJson e := by
    cases e with
    | lock n ds token =>
      rw [Event.toJson_lock]
      exact .variant (.head _) (.record_zip rfl rfl (by simp [canonical_toJson]))
    | unlock n ds =>
      rw [Event.toJson_unlock]
      exact .variant (.tail _ (.head _)) (.record_zip rfl rfl (by simp [canonical_toJson]))
    | watchCreated n rs ds =>
      rw [Event.toJson_watchCreated]
      exact .variant (.tail _ (.tail _ (.head _))) (.record_zip rfl rfl (by simp [canonical_toJson]))

instance : MeaningCodec Update where
  ofJson?_eq_of_rewrite h := by
    obtain ⟨name, s, v, v', hcase, h, rfl, rfl⟩ := h.variant
    rw [Update.ofJson?_variant, Update.ofJson?_variant]
    simp only [List.mem_cons, Prod.mk.injEq, List.not_mem_nil, or_false] at hcase
    rcases hcase with ⟨rfl, rfl⟩ | ⟨rfl, rfl⟩ | ⟨rfl, rfl⟩
    · rw [Update.ofContent?, Update.ofContent?]
      refine h.content?_bind rfl (by decide) fun h => ?_
      obtain _ | ⟨he, _ | ⟨hn, _ | ⟨hevents, ⟨⟩⟩⟩⟩ := h
      simp only [ofJson?_eq_of_reflGen he, ofJson?_eq_of_reflGen hn, ofJson?_eq_of_reflGen hevents]
    · rw [Update.ofContent?, Update.ofContent?]
      refine h.content?_bind rfl (by decide) fun h => ?_
      obtain _ | ⟨he, _ | ⟨hn, _ | ⟨hlocked, _ | ⟨hwatched, ⟨⟩⟩⟩⟩⟩ := h
      simp only [ofJson?_eq_of_reflGen he, ofJson?_eq_of_reflGen hn, ofJson?_eq_of_reflGen hlocked,
        ofJson?_eq_of_reflGen hwatched]
    · rw [Update.ofContent?, Update.ofContent?]
      refine h.content?_bind rfl (by decide) fun h => ?_
      obtain _ | ⟨he, ⟨⟩⟩ := h
      simp only [ofJson?_eq_of_reflGen he]
  canonical_toJson u := by
    cases u with
    | success e n events =>
      rw [Update.toJson_success]
      exact .variant (.head _) (.record_zip rfl rfl (by simp [canonical_toJson]))
    | snapshot e n locked watched =>
      rw [Update.toJson_snapshot]
      exact .variant (.tail _ (.head _)) (.record_zip rfl rfl (by simp [canonical_toJson]))
    | failed e =>
      rw [Update.toJson_failed]
      exact .variant (.tail _ (.tail _ (.head _))) (.record_zip rfl rfl (by simp [canonical_toJson]))

/-! ## The order of events -/

section

variable {α β : Type u} {order : List Nat} {xs : List α}

theorem map_arrange (f : α → β) (order : List Nat) (xs : List α) :
    (arrange order xs).map f = arrange order (xs.map f) := by
  simp [arrange, List.map_filterMap]

theorem arrange_range (xs : List α) : arrange (List.range xs.length) xs = xs := by
  induction xs with
  | nil => rfl
  | cons x xs ih =>
    rw [arrange, List.length_cons, List.range_succ_eq_map, List.filterMap_cons, List.filterMap_map]
    exact congrArg (x :: ·) ih

/-- To arrange a list by all its indices is to permute it. -/
theorem arrange_perm (h : order.Perm (List.range xs.length)) : (arrange order xs).Perm xs := by
  have hperm : (arrange order xs).Perm (arrange (List.range xs.length) xs) := h.filterMap _
  rwa [arrange_range] at hperm

/-- A permuted list is read as the list read, permuted in the same way. -/
theorem mapM_arrange {f : α → Option β} (h : order.Perm (List.range xs.length)) :
    (arrange order xs).mapM f = (xs.mapM f).map (arrange order) := by
  cases hys : xs.mapM f with
  | none =>
    obtain ⟨x, hx, hfx⟩ := Json.mapM_eq_none_iff.1 hys
    exact Json.mapM_eq_none_iff.2 ⟨x, (arrange_perm h).mem_iff.2 hx, hfx⟩
  | some ys =>
    refine Json.mapM_eq_some_iff.2 ?_
    rw [map_arrange, map_arrange, Json.mapM_eq_some_iff.1 hys]

end

/-- The names of the fields of a success. -/
abbrev successNames : List String := ["epoch", "last_known_sequence", "events"]

theorem Update.ofContent?_success_of_none {content : Json} (h : content.fields? successNames = none) :
    Update.ofContent? .free "Success" content = none := by
  rw [ofContent?, Json.content?_free, h]
  rfl

/-- A success whose events stand in another order is read with its events in that order. -/
theorem Update.ofContent?_success_arrange {order : List Nat} {content content' e n : Json} {vs : List Json}
    (h : content.fields? successNames = some [e, n, .array vs])
    (h' : content'.fields? successNames = some [e, n, .array (arrange order vs)])
    (horder : order.Perm (List.range vs.length)) :
    Update.ofContent? .free "Success" content' = (Update.ofContent? .free "Success" content).map (reorder order) := by
  have hevents : (ofJson? .free (.array (arrange order vs)) : Option (List Event)) =
      (ofJson? .free (.array vs)).map (arrange order) := mapM_arrange horder
  rw [ofContent?, ofContent?, Json.content?_free, Json.content?_free, h, h']
  cases he : (ofJson? .free e : Option Epoch) <;> cases hn : (ofJson? .free n : Option Sequence) <;>
    cases hvs : (ofJson? .free (.array vs) : Option (List Event)) <;> simp [he, hn, hvs, hevents, reorder]

/-- Reordered events are read in the new order. -/
theorem Reorders.ofJson?_eq {order : List Nat} {j j' : Json} (h : Reorders order j j') :
    (ofJson? .free j' : Option Update) = (ofJson? .free j : Option Update).map (Update.reorder order) := by
  cases h with
  | @named vs before after horder =>
    rw [Update.ofJson?_variant, Update.ofJson?_variant]
    have hnames : (["epoch", "last_known_sequence"] ++ "events" :: []).Nodup := by decide
    rcases Json.fields?_object_append_cons hnames before after with hnone | ⟨l, r, hl, hr, hsome⟩
    · rw [Update.ofContent?_success_of_none (hnone _), Update.ofContent?_success_of_none (hnone _), Option.map_none]
    · match l, hl, r, hr with
      | [e, n], _, [], _ => exact Update.ofContent?_success_arrange (hsome _) (hsome _) horder
  | @unnamed vs e n horder =>
    rw [Update.ofJson?_variant, Update.ofJson?_variant]
    exact Update.ofContent?_success_arrange rfl rfl horder

/-- A chain of rewrites and reorders changes the order of the events read, as its orders say, and nothing else. -/
theorem Rearranged.ofJson?_eq {j k : Json} {orders : List (List Nat)} (h : Rearranged j orders k) :
    (ofJson? .free k : Option Update) = (ofJson? .free j : Option Update).map (Update.reorderAll orders) := by
  induction h with
  | refl => cases (ofJson? .free j : Option Update) <;> rfl
  | rewrite _ h ih => rw [← h.ofJson?_eq, ih]
  | reorder _ h ih =>
    rw [h.ofJson?_eq, ih, Option.map_map]
    congr 1
    funext u
    simp [Update.reorderAll]

/-! ## Texts -/

section

variable {α : Type u} [Codec α] [Shaped α] [MeaningCodec α]

/-- Texts of documents of one meaning are read alike. -/
theorem SameMeaning.decode?_eq {s s' : String} {j j' : Json} (hs : Json.ofText? s = some j)
    (hs' : Json.ofText? s' = some j') (h : SameMeaning (shape α) j j') : (decode? s' : Option α) = decode? s := by
  rw [decode?, decode?, hs, hs', Option.bind_some, Option.bind_some, h.ofJson?_eq]

/-- What is read is written as a canonical document. -/
theorem Codec.canonical_of_recode? {s t : String} (h : recode? α s = some t) :
    ∃ k : Json, t = k.text ∧ Canonical (shape α) k := by
  obtain ⟨a, -, rfl⟩ := Option.map_eq_some_iff.1 h
  exact ⟨toJson a, rfl, canonical_toJson a⟩

end

/-- **Decoding depends on the meaning of a document only.** Two texts of documents of one meaning are read as the same
event or update and written again as the same text. If the events of an update are put in another order between
rewrites, the events that are read are put in that order and all else stays. The text that is written again is that of a
canonical document. -/
theorem decoding_by_meaning {s s' : String} {j j' : Json} (hs : Json.ofText? s = some j)
    (hs' : Json.ofText? s' = some j') :
    (SameMeaning (shape Event) j j' →
      (decode? s' : Option Event) = decode? s ∧ recode? Event s' = recode? Event s) ∧
    (SameMeaning (shape Update) j j' →
      (decode? s' : Option Update) = decode? s ∧ recode? Update s' = recode? Update s) ∧
    (∀ orders, Rearranged j orders j' →
      (decode? s' : Option Update) = (decode? s).map (Update.reorderAll orders)) ∧
    (∀ t, recode? Event s = some t → ∃ k : Json, t = k.text ∧ Canonical (shape Event) k) ∧
    ∀ t, recode? Update s = some t → ∃ k : Json, t = k.text ∧ Canonical (shape Update) k := by
  refine ⟨fun h => ?_, fun h => ?_, fun orders h => ?_, fun t => canonical_of_recode?, fun t => canonical_of_recode?⟩
  · have hdecode := h.decode?_eq hs hs'
    exact ⟨hdecode, congrArg (Option.map encode) hdecode⟩
  · have hdecode := h.decode?_eq hs hs'
    exact ⟨hdecode, congrArg (Option.map encode) hdecode⟩
  · rw [decode?, decode?, hs, hs', Option.bind_some, Option.bind_some, h.ofJson?_eq]

/-! ### An event and an update in other words -/

/-- An identifier all of whose bytes are the same. -/
def Uuid.uniformSample : Uuid := ⟨List.replicate 16 0xab, rfl⟩

/-- A descriptor of one byte. -/
def Descriptor.oneByteSample : Descriptor := ⟨[1]⟩

/-- The release of one descriptor. -/
def Event.releaseSample (n : Sequence) : Event := .unlock n (Ascending.ofList [.oneByteSample])

/-- Two releases. -/
def Update.releasesSample : Update := .success ⟨.uniformSample⟩ 7 [.releaseSample 6, .releaseSample 7]

/-- A release as the array of its fields, with descriptors as they are listed. -/
def Event.unnamedSample (ds : List Descriptor) : Json :=
  .variant "Unlock" (.array [toJson (6 : Sequence), .array (ds.map toJson)])

/-- The two releases in some order, under the identifier in capital letters and without its hyphens. -/
def Update.respelledSample (events : List Event) : Json :=
  .variant "Success" (.object
    [(some "epoch", .string "ABABABABABABABABABABABABABABABAB"), (some "last_known_sequence", toJson (7 : Sequence)),
      (some "events", .array (events.map toJson))])

theorem Event.sameMeaning_unnamedSample :
    SameMeaning (shape Event) (toJson (releaseSample 6)) (unnamedSample [.oneByteSample, .oneByteSample]) := by
  have hunname : Rewrite (shape Event) (toJson (releaseSample 6)) (unnamedSample [.oneByteSample]) :=
    .content (.tail _ (.head _)) <|
      @Rewrite.unname _ [toJson (6 : Sequence), .array ([Descriptor.oneByteSample].map toJson)] rfl
  have hrelist :
      Rewrite (shape Event) (unnamedSample [.oneByteSample]) (unnamedSample [.oneByteSample, .oneByteSample]) :=
    .content (.tail _ (.head _)) <| .component [_] [] rfl <| .relist (by simp)
  exact .trans _ _ _ (.rel _ _ hunname) (.rel _ _ hrelist)

theorem Update.sameMeaning_respelledSample : SameMeaning (shape Update) (toJson releasesSample)
    (respelledSample [.releaseSample 6, .releaseSample 7]) :=
  .rel _ _ <| .content (.head _) <| .field [] _ (.head _) <|
    .respell (Uuid.ofText?_eq_some_iff.1 (Uuid.ofText?_text .uniformSample)) ⟨.digits, by decide⟩

theorem Update.reorders_respelledSample (a b : Event) :
    Reorders [1, 0] (respelledSample [a, b]) (respelledSample [b, a]) :=
  .named [_, _] [] (.swap 0 1 [])

/-- The theorem at the samples: an event, an update that is respelled, and one that is reordered as well. -/
theorem sample_decoding_by_meaning :
    decode? (Event.unnamedSample [.oneByteSample, .oneByteSample]).text = some (Event.releaseSample 6) ∧
      recode? Update (Update.respelledSample [.releaseSample 6, .releaseSample 7]).text =
        some (encode Update.releasesSample) ∧
      decode? (Update.respelledSample [.releaseSample 7, .releaseSample 6]).text =
        some (Update.success ⟨.uniformSample⟩ 7 [.releaseSample 7, .releaseSample 6]) := by
  have hread {j j' : Json} := decoding_by_meaning (Json.ofText?_text j) (Json.ofText?_text j')
  refine ⟨?_, ?_, ?_⟩
  · exact (hread.1 Event.sameMeaning_unnamedSample).1.trans (decode?_encode (Event.releaseSample 6))
  · exact (hread.2.1 Update.sameMeaning_respelledSample).2.trans
      (congrArg (Option.map encode) (decode?_encode Update.releasesSample))
  · have hreorder := (Rearranged.refl.rewrite Update.sameMeaning_respelledSample).reorder
      (Update.reorders_respelledSample _ _)
    have hsample : decode? (toJson Update.releasesSample).text = some Update.releasesSample := decode?_encode _
    rw [hread.2.2.1 _ hreorder, hsample]
    rfl

end LockReplica
