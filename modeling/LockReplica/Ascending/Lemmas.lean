import LockReplica.Ascending.Basic

/-!
# Membership in ascending lists

Every operation is described by its members (`mem_insert`, `mem_insertAll`, `mem_ofList`, `mem_filter`,
`mem_erase`), look-up by membership (`find?_eq_some_iff`), and members determine the value (`ext_mem`). So
there is one listing of a set, and one set of a list (`toList_eq_iff`, `ofList_eq_ofList_iff`). Of
what is inserted under one key the last is found (`find?_insertAll`), and what is inserted above a first part of
the listing leaves that part alone (`toList_insertAll_of_append`).
-/

namespace LockReplica

open Std

universe u v w

namespace Ascending

variable {α : Type u} {κ : Type v} [Ord κ] {key : α → κ}

@[simp] theorem mem_toList {s : Ascending key} {x : α} : x ∈ s.toList ↔ x ∈ s := Iff.rfl

@[simp] theorem toList_empty : (∅ : Ascending key).toList = [] := rfl

@[simp] theorem not_mem_empty {x : α} : x ∉ (∅ : Ascending key) := List.not_mem_nil

@[simp] theorem toList_filter {p : α → Bool} {s : Ascending key} :
    (s.filter p).toList = s.toList.filter p := rfl

@[simp] theorem mem_filter {p : α → Bool} {s : Ascending key} {x : α} :
    x ∈ s.filter p ↔ x ∈ s ∧ p x = true := List.mem_filter

section Lookup

variable [LawfulEqOrd κ]

@[simp] theorem mem_erase {s : Ascending key} {k : κ} {x : α} :
    x ∈ s.erase k ↔ x ∈ s ∧ key x ≠ k := by
  simp [erase]

theorem find?_eq_none_iff {s : Ascending key} {k : κ} : s.find? k = none ↔ ∀ x ∈ s, key x ≠ k := by
  simp [find?, List.find?_eq_none]

theorem mem_of_find?_eq_some {s : Ascending key} {k : κ} {x : α} (h : s.find? k = some x) :
    x ∈ s ∧ key x = k :=
  ⟨List.mem_of_find?_eq_some h, by simpa using List.find?_some h⟩

end Lookup

section Lawful

variable [TransOrd κ]

omit [TransOrd κ] in
/-- No key lies below itself. -/
theorem compare_self_ne_lt [ReflCmp (compare : κ → κ → Ordering)] (k : κ) : compare k k ≠ .lt := by
  have h : compare k k = .eq := ReflCmp.compare_self
  rw [h]; decide

/-- No two members share a key. -/
theorem eq_of_key_eq {s : Ascending key} {x y : α} (hx : x ∈ s) (hy : y ∈ s) (h : key x = key y) :
    x = y := by
  have hs := s.ascending
  rw [mem_def] at hx hy
  generalize s.toList = l at hs hx hy
  induction hs with
  | nil => simp at hx
  | @cons z l hz _ ih =>
    rcases List.mem_cons.1 hx with rfl | hx' <;> rcases List.mem_cons.1 hy with rfl | hy'
    · rfl
    · exact absurd (h ▸ hz y hy') (compare_self_ne_lt _)
    · exact absurd (h ▸ hz x hx') (compare_self_ne_lt _)
    · exact ih hx' hy'

/-- No member is listed twice. -/
theorem nodup_toList (s : Ascending key) : s.toList.Nodup :=
  s.ascending.imp fun {a b} h (e : a = b) => compare_self_ne_lt (key b) (e ▸ h)

/-- No key is listed twice. -/
theorem nodup_map_key (s : Ascending key) : (s.toList.map key).Nodup :=
  List.pairwise_map.2 (s.ascending.imp fun {a b} h (e : key a = key b) => compare_self_ne_lt (key b) (e ▸ h))

/-- Members determine the value. -/
theorem ext_mem {s t : Ascending key} (h : ∀ x, x ∈ s ↔ x ∈ t) : s = t := by
  have asymm : ∀ x y, x ∈ s.toList → y ∈ t.toList →
      compare (key x) (key y) = .lt → compare (key y) (key x) = .lt → x = y :=
    fun x _ _ _ hxy hyx => absurd (TransCmp.lt_trans hxy hyx) (compare_self_ne_lt (key x))
  exact toList_inj.1 (List.Perm.eq_of_pairwise asymm s.ascending t.ascending
    ((List.perm_ext_iff_of_nodup s.nodup_toList t.nodup_toList).2 h))

/-! ## Insertion -/

section Insertion

variable [LawfulEqOrd κ]

/-- The new element is a member, and so is every old one with another key. -/
@[simp] theorem mem_insert {s : Ascending key} {x y : α} :
    y ∈ s.insert x ↔ y = x ∨ y ∈ s ∧ key y ≠ key x := by
  simp only [mem_def, insert, List.mem_append, List.mem_cons, List.mem_filter, beq_iff_eq]
  constructor
  · rintro (⟨hy, h⟩ | rfl | ⟨hy, h⟩)
    · exact .inr ⟨hy, fun e => compare_self_ne_lt _ (e ▸ h)⟩
    · exact .inl rfl
    · exact .inr ⟨hy, fun e => compare_self_ne_lt _ (e ▸ h)⟩
  · rintro (rfl | ⟨hy, h⟩)
    · exact .inr (.inl rfl)
    · cases hc : compare (key y) (key x) with
      | lt => exact .inl ⟨hy, rfl⟩
      | eq => exact absurd (LawfulEqCmp.eq_of_compare hc) h
      | gt => exact .inr (.inr ⟨hy, OrientedCmp.gt_iff_lt.1 hc⟩)

/-- Every member of the result was a member or was inserted. -/
theorem mem_or_mem_of_mem_insertAll {s : Ascending key} {xs : List α} {y : α}
    (h : y ∈ s.insertAll xs) : y ∈ s ∨ y ∈ xs := by
  induction xs generalizing s with
  | nil => exact .inl h
  | cons x xs ih =>
    rcases ih h with h | h
    · rcases mem_insert.1 h with rfl | h
      · exact .inr List.mem_cons_self
      · exact .inl h.1
    · exact .inr (List.mem_cons_of_mem _ h)

/-- Look-up finds exactly the member with the key. -/
theorem find?_eq_some_iff {s : Ascending key} {k : κ} {x : α} :
    s.find? k = some x ↔ x ∈ s ∧ key x = k := by
  refine ⟨mem_of_find?_eq_some, ?_⟩
  rintro ⟨hx, rfl⟩
  cases hf : s.find? (key x) with
  | none => exact absurd rfl (find?_eq_none_iff.1 hf x hx)
  | some y =>
    obtain ⟨hy, hk⟩ := mem_of_find?_eq_some hf
    rw [eq_of_key_eq hy hx hk]

end Insertion

@[simp] theorem insertAll_nil {s : Ascending key} : s.insertAll [] = s := rfl

@[simp] theorem insertAll_cons {s : Ascending key} {x : α} {xs : List α} :
    s.insertAll (x :: xs) = (s.insert x).insertAll xs := rfl

/-! ## Insertion above -/

/-- An element whose key is above those of a first part of the listing goes into the rest. -/
theorem toList_insert_of_append {s t : Ascending key} {l : List α} {x : α}
    (h : s.toList = l ++ t.toList) (hl : ∀ a ∈ l, compare (key a) (key x) = .lt) :
    (s.insert x).toList = l ++ (t.insert x).toList := by
  have hbelow : l.filter (fun y => compare (key y) (key x) == .lt) = l :=
    List.filter_eq_self.2 fun a ha => by simpa using hl a ha
  have habove : l.filter (fun y => compare (key x) (key y) == .lt) = [] := by
    refine List.filter_eq_nil_iff.2 fun a ha hxa => compare_self_ne_lt (key a) ?_
    exact TransCmp.lt_trans (hl a ha) (by simpa using hxa)
  simp only [insert, h, List.filter_append, hbelow, habove, List.append_assoc, List.nil_append]

theorem toList_insertAll_of_append {s t : Ascending key} {l xs : List α}
    (h : s.toList = l ++ t.toList) (hl : ∀ a ∈ l, ∀ x ∈ xs, compare (key a) (key x) = .lt) :
    (s.insertAll xs).toList = l ++ (t.insertAll xs).toList := by
  induction xs generalizing s t with
  | nil => exact h
  | cons x xs ih =>
    exact ih (toList_insert_of_append h fun a ha => hl a ha x List.mem_cons_self)
      fun a ha y hy => hl a ha y (List.mem_cons_of_mem _ hy)

/-! ## Many insertions -/

section Insertions

variable [LawfulEqOrd κ] {s : Ascending key} {xs : List α}

/-- A member whose key is not inserted stays. -/
theorem mem_insertAll_of_mem {y : α} (hy : y ∈ s) (hne : ∀ x ∈ xs, key x ≠ key y) : y ∈ s.insertAll xs := by
  induction xs generalizing s with
  | nil => exact hy
  | cons x xs ih =>
    refine ih (mem_insert.2 (.inr ⟨hy, ?_⟩)) fun z hz => hne z (List.mem_cons_of_mem _ hz)
    exact fun e => hne x List.mem_cons_self e.symm

/-- The keys are those from before and those of the inserted elements. -/
theorem exists_mem_insertAll_iff {k : κ} :
    (∃ y ∈ s.insertAll xs, key y = k) ↔ (∃ y ∈ s, key y = k) ∨ ∃ x ∈ xs, key x = k := by
  induction xs generalizing s with
  | nil => simp
  | cons x xs ih =>
    rw [insertAll_cons, ih]
    simp only [mem_insert, List.mem_cons]
    grind

/-- If equal keys belong to equal elements, then all inserted elements are members. -/
theorem mem_insertAll_iff_of_inj {y : α} (hxs : ∀ x ∈ xs, ∀ z ∈ xs, key x = key z → x = z)
    (hs : ∀ x ∈ xs, ∀ z ∈ s, key x = key z → x = z) : y ∈ s.insertAll xs ↔ y ∈ s ∨ y ∈ xs := by
  refine ⟨mem_or_mem_of_mem_insertAll, ?_⟩
  intro h
  by_cases hy : ∃ x ∈ xs, key x = key y
  · obtain ⟨x, hx, hk⟩ := hy
    have hyx : x = y := h.elim (fun h => hs x hx y h hk) fun h => hxs x hx y h hk
    obtain ⟨z, hz, hzk⟩ := exists_mem_insertAll_iff (s := s).2 (.inr ⟨x, hx, rfl⟩)
    rcases mem_or_mem_of_mem_insertAll hz with hzs | hzx
    · rwa [← hyx, hs x hx z hzs hzk.symm]
    · rwa [← hyx, hxs x hx z hzx hzk.symm]
  · have hmem : y ∈ s := h.resolve_right fun hx => hy ⟨y, hx, rfl⟩
    exact mem_insertAll_of_mem hmem fun x hx e => hy ⟨x, hx, e⟩

/-- Members may be dropped before or after those are inserted that are not dropped. -/
theorem filter_insertAll_of_forall {p : α → Bool} (h : ∀ x ∈ xs, p x = true) :
    (s.insertAll xs).filter p = (s.filter p).insertAll xs := by
  induction xs generalizing s with
  | nil => rfl
  | cons x xs ih =>
    obtain ⟨hx, hxs⟩ := List.forall_mem_cons.1 h
    have hinsert : (s.insert x).filter p = (s.filter p).insert x := by
      refine ext_mem fun y => ?_
      simp only [mem_filter, mem_insert]
      grind
    rw [insertAll_cons, insertAll_cons, ih hxs, hinsert]

/-- If the keys that are inserted are dropped, then nothing was inserted. -/
theorem filter_insertAll_of_forall_not {p : α → Bool} (h : ∀ x ∈ xs, ∀ y, key y = key x → p y = false) :
    (s.insertAll xs).filter p = s.filter p := by
  induction xs generalizing s with
  | nil => rfl
  | cons x xs ih =>
    obtain ⟨hx, hxs⟩ := List.forall_mem_cons.1 h
    have hinsert : (s.insert x).filter p = s.filter p := by
      refine ext_mem fun y => ?_
      simp only [mem_filter, mem_insert]
      grind
    rw [insertAll_cons, ih hxs, hinsert]

theorem find?_insert [DecidableEq κ] {x : α} {k : κ} :
    (s.insert x).find? k = if key x = k then some x else s.find? k := by
  apply Option.ext
  intro y
  rw [find?_eq_some_iff, mem_insert]
  by_cases hk : key x = k
  · rw [if_pos hk]
    constructor
    · rintro ⟨rfl | ⟨-, hne⟩, hy⟩
      · rfl
      · exact absurd (hy.trans hk.symm) hne
    · rintro ⟨⟩
      exact ⟨.inl rfl, hk⟩
  · rw [if_neg hk, find?_eq_some_iff]
    constructor
    · rintro ⟨rfl | ⟨hy, -⟩, hyk⟩
      · exact absurd hyk hk
      · exact ⟨hy, hyk⟩
    · rintro ⟨hy, hyk⟩
      exact ⟨.inr ⟨hy, fun e => hk (e.symm.trans hyk)⟩, hyk⟩

/-- Of the inserted elements with a key the last is found, and if there is none what was found before. -/
theorem find?_insertAll [DecidableEq κ] {k : κ} :
    (s.insertAll xs).find? k = (xs.filter fun x => key x = k).getLast?.or (s.find? k) := by
  induction xs generalizing s with
  | nil => rfl
  | cons x xs ih =>
    rw [insertAll_cons, ih, find?_insert]
    by_cases hk : key x = k
    · rw [List.filter_cons_of_pos (by simpa using hk), if_pos hk, List.getLast?_cons]
      cases (xs.filter fun x => key x = k).getLast? <;> rfl
    · rw [List.filter_cons_of_neg (by simpa using hk), if_neg hk]

end Insertions

end Lawful

/-! ## The first and the last member -/

theorem last?_eq_none_iff {s : Ascending key} : s.last? = none ↔ ∀ x, x ∉ s := by
  rw [last?, List.getLast?_eq_none_iff, List.eq_nil_iff_forall_not_mem]
  rfl

/-- The last member has the greatest key. -/
theorem mem_of_last?_eq_some {s : Ascending key} {x : α} (h : s.last? = some x) :
    x ∈ s ∧ ∀ y ∈ s, y = x ∨ compare (key y) (key x) = .lt := by
  obtain ⟨l, hl⟩ := List.getLast?_eq_some_iff.1 h
  have hs := s.ascending
  rw [hl] at hs
  refine ⟨mem_def.2 (by simp [hl]), ?_⟩
  intro y hy
  rw [mem_def, hl, List.mem_append, List.mem_singleton] at hy
  exact hy.symm.imp_right fun hy => (List.pairwise_append.1 hs).2.2 y hy x (by simp)

theorem first?_eq_none_iff {s : Ascending key} : s.first? = none ↔ ∀ x, x ∉ s := by
  rw [first?, List.head?_eq_none_iff, List.eq_nil_iff_forall_not_mem]
  rfl

/-- The first member has the least key. -/
theorem mem_of_first?_eq_some {s : Ascending key} {x : α} (h : s.first? = some x) :
    x ∈ s ∧ ∀ y ∈ s, y = x ∨ compare (key x) (key y) = .lt := by
  obtain ⟨l, hl⟩ := List.head?_eq_some_iff.1 h
  have hs := s.ascending
  rw [hl] at hs
  refine ⟨mem_def.2 (by simp [hl]), ?_⟩
  intro y hy
  rw [mem_def, hl, List.mem_cons] at hy
  exact hy.imp_right ((List.pairwise_cons.1 hs).1 y)

end Ascending

/-! ## Sets -/

namespace SortedSet

variable {α : Type u} [Ord α] [TransOrd α] [LawfulEqOrd α]

theorem mem_insert {s : SortedSet α} {x y : α} : y ∈ s.insert x ↔ y = x ∨ y ∈ s := by
  rw [Ascending.mem_insert, id, id]
  by_cases h : y = x <;> simp [h]

theorem mem_insertAll {s : SortedSet α} {xs : List α} {y : α} :
    y ∈ s.insertAll xs ↔ y ∈ s ∨ y ∈ xs := by
  induction xs generalizing s with
  | nil => simp
  | cons x xs ih => rw [Ascending.insertAll_cons, ih, mem_insert, List.mem_cons, or_comm (a := y = x), or_assoc]

/-- A set holds exactly the elements it was built from. -/
@[simp] theorem mem_ofList {xs : List α} {y : α} : y ∈ (Ascending.ofList xs : SortedSet α) ↔ y ∈ xs := by
  simp [Ascending.ofList, mem_insertAll]

@[simp] theorem mem_union {s t : SortedSet α} {x : α} : x ∈ s ∪ t ↔ x ∈ s ∨ x ∈ t := mem_insertAll

omit [TransOrd α] [LawfulEqOrd α] in
@[simp] theorem mem_sdiff [DecidableEq α] {s t : SortedSet α} {x : α} : x ∈ s \ t ↔ x ∈ s ∧ x ∉ t := by
  show x ∈ s.filter _ ↔ _
  simp

/-- Reading the listing of a set back gives the set. -/
@[simp] theorem ofList_toList {s : SortedSet α} : Ascending.ofList s.toList = s :=
  Ascending.ext_mem fun _ => by simp

/-- Lists make the same set if they have the same members. -/
theorem ofList_eq_ofList_iff {xs ys : List α} :
    (Ascending.ofList xs : SortedSet α) = Ascending.ofList ys ↔ SameMembers xs ys := by
  constructor
  · intro h x
    have hx : x ∈ (Ascending.ofList xs : SortedSet α) ↔ x ∈ (Ascending.ofList ys : SortedSet α) := by rw [h]
    rwa [mem_ofList, mem_ofList] at hx
  · intro h
    exact Ascending.ext_mem fun x => by rw [mem_ofList, mem_ofList, h x]

omit [LawfulEqOrd α] in
/-- A set is listed in the one way in which its members can be listed in order. -/
theorem toList_eq_iff {s : SortedSet α} {p : α → Prop} (h : ∀ x, x ∈ s ↔ p x) {xs : List α} :
    s.toList = xs ↔ IsListing p xs := by
  constructor
  · rintro rfl
    exact ⟨s.ascending, h⟩
  · intro hxs
    have hset : s = ⟨xs, hxs.ascending⟩ := Ascending.ext_mem fun x => (h x).trans (hxs.mem_iff x).symm
    rw [hset]

end SortedSet

/-! ## Tables -/

namespace Table

variable {κ : Type u} {β : Type v} {γ : Type w} [Ord κ] [TransOrd κ] [LawfulEqOrd κ]

theorem get?_eq_some_iff {t : Table κ β} {k : κ} {b : β} : t.get? k = some b ↔ (k, b) ∈ t := by
  simp only [get?, Option.map_eq_some_iff, Ascending.find?_eq_some_iff]
  constructor
  · rintro ⟨⟨k', b'⟩, ⟨h, rfl⟩, rfl⟩; exact h
  · intro h; exact ⟨(k, b), ⟨h, rfl⟩, rfl⟩

/-- A table is the function from keys to values that it represents. -/
theorem ext_get? {s t : Table κ β} (h : ∀ k, s.get? k = t.get? k) : s = t :=
  Ascending.ext_mem fun ⟨k, b⟩ => by rw [← get?_eq_some_iff, ← get?_eq_some_iff, h]

/-- The values are those at some key. -/
theorem mem_values_iff {t : Table κ β} {b : β} : b ∈ t.values ↔ ∃ k, t.get? k = some b := by
  simp only [values, List.mem_map, get?_eq_some_iff, Ascending.mem_toList]
  constructor
  · rintro ⟨⟨k, _⟩, h, rfl⟩
    exact ⟨k, h⟩
  · rintro ⟨k, h⟩
    exact ⟨(k, b), h, rfl⟩

omit [TransOrd κ] [LawfulEqOrd κ] in
@[simp] theorem get?_empty {k : κ} : (∅ : Table κ β).get? k = none := rfl

theorem get?_set {t : Table κ β} {k k' : κ} {b : β} [DecidableEq κ] :
    (t.set k b).get? k' = if k' = k then some b else t.get? k' := by
  apply Option.ext
  intro c
  rw [get?_eq_some_iff, set, Ascending.mem_insert]
  by_cases h : k' = k
  · simp [h, eq_comm]
  · simp [h, get?_eq_some_iff]

theorem get?_singleton {k k' : κ} {b : β} [DecidableEq κ] :
    get? (Ascending.ofList [(k, b)] : Table κ β) k' = if k' = k then some b else none :=
  get?_set

/-- Entries that are set to one value, and those left. -/
theorem get?_foldl_set {t : Table κ β} {ks : List κ} {k : κ} {b : β} [DecidableEq κ] :
    (ks.foldl (fun t k => t.set k b) t).get? k = if k ∈ ks then some b else t.get? k := by
  induction ks generalizing t with
  | nil => simp
  | cons k' ks ih =>
    rw [List.foldl_cons, ih, get?_set]
    by_cases hk : k ∈ ks
    · rw [if_pos hk, if_pos (List.mem_cons_of_mem _ hk)]
    · simp [hk]

theorem get?_erase {t : Table κ β} {k k' : κ} [DecidableEq κ] :
    get? (t.erase k) k' = if k' = k then none else t.get? k' := by
  apply Option.ext
  intro c
  rw [get?_eq_some_iff, Ascending.mem_erase]
  by_cases h : k' = k
  · simp [h]
  · simp [h, get?_eq_some_iff]

omit [TransOrd κ] [LawfulEqOrd κ] in
theorem contains_eq_isSome_get? {t : Table κ β} {k : κ} : t.contains k = (t.get? k).isSome :=
  Option.isSome_map.symm

omit [TransOrd κ] in
/-- What is left after an entry is dropped was there before. -/
theorem mem_values_of_mem_values_erase {t : Table κ β} {k : κ} {b : β} (h : b ∈ values (t.erase k)) : b ∈ t.values := by
  obtain ⟨e, he, rfl⟩ := List.mem_map.1 h
  exact List.mem_map.2 ⟨e, (Ascending.mem_erase.1 he).1, rfl⟩

omit [TransOrd κ] [LawfulEqOrd κ] in
@[simp] theorem map_fst_ofKeys {f : κ → β} {s : SortedSet κ} : (ofKeys f s).toList.map Prod.fst = s.toList := by
  rw [ofKeys, List.map_map]
  exact List.map_id _

theorem get?_ofKeys {f : κ → β} {s : SortedSet κ} {k : κ} [DecidableEq κ] :
    (ofKeys f s).get? k = if k ∈ s then some (f k) else none := by
  apply Option.ext
  intro b
  rw [get?_eq_some_iff, Ascending.mem_def, ofKeys]
  constructor
  · intro h
    obtain ⟨k', hk, e⟩ := List.mem_map.1 h
    cases e
    rw [if_pos (Ascending.mem_def.2 hk)]
  · intro h
    split at h
    · cases h
      exact List.mem_map.2 ⟨k, ‹k ∈ s›, rfl⟩
    · cases h

theorem get?_filterMap {f : β → Option γ} {t : Table κ β} {k : κ} :
    (t.filterMap f).get? k = (t.get? k).bind f := by
  apply Option.ext
  intro c
  rw [get?_eq_some_iff, Ascending.mem_def, filterMap]
  simp only [List.mem_filterMap, Option.map_eq_some_iff, Option.bind_eq_some_iff, get?_eq_some_iff]
  constructor
  · rintro ⟨⟨k', b⟩, hm, c', hf, he⟩
    cases he
    exact ⟨b, hm, hf⟩
  · rintro ⟨b, hm, hf⟩
    exact ⟨(k, b), hm, c, hf, rfl⟩

end Table

end LockReplica
