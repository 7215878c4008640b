/-!
# Ascending lists

A finite collection kept as a list whose keys strictly ascend. One container serves three uses:

- a set, when the key of an element is the element (`SortedSet`);
- a timeline, when the key of an event is its sequence;
- a table, when the key of an entry is its first component (`Table`).

Two ascending lists with the same members are the same value (`Ascending.ext_mem`, beside the
membership laws of every operation), so equality of values is equality of content.
-/

namespace LockReplica

open Std

universe u v w

/-- A list whose keys strictly ascend. -/
structure Ascending {α : Type u} {κ : Type v} [Ord κ] (key : α → κ) where
  /-- The members, least key first. -/
  toList : List α
  ascending : toList.Pairwise fun a b => compare (key a) (key b) = .lt

/-- A set whose members are listed in ascending order. -/
abbrev SortedSet (α : Type u) [Ord α] := Ascending (id : α → α)

/-- A finite map whose entries are listed by ascending key. -/
abbrev Table (κ : Type u) (β : Type v) [Ord κ] := Ascending (Prod.fst : κ × β → κ)

namespace Ascending

variable {α : Type u} {κ : Type v} [Ord κ] {key : α → κ}

theorem toList_inj {s t : Ascending key} : s.toList = t.toList ↔ s = t := by
  cases s; cases t; simp

instance [DecidableEq α] : DecidableEq (Ascending key) := fun _ _ =>
  decidable_of_iff _ toList_inj

instance : Membership α (Ascending key) := ⟨fun s x => x ∈ s.toList⟩

theorem mem_def {s : Ascending key} {x : α} : x ∈ s ↔ x ∈ s.toList := Iff.rfl

instance [DecidableEq α] (x : α) (s : Ascending key) : Decidable (x ∈ s) :=
  inferInstanceAs (Decidable (x ∈ s.toList))

/-! ## Construction -/

/-- The collection without members. -/
def empty : Ascending key := ⟨[], .nil⟩

instance : EmptyCollection (Ascending key) := ⟨empty⟩

instance : Inhabited (Ascending key) := ⟨∅⟩

/-- The members that satisfy `p`. -/
def filter (p : α → Bool) (s : Ascending key) : Ascending key :=
  ⟨s.toList.filter p, s.ascending.filter p⟩

/-- The members whose key differs from `k`. -/
def erase (k : κ) (s : Ascending key) : Ascending key :=
  s.filter fun x => compare (key x) k != .eq

/-- Adds `x`, which takes the place of a member with the same key. -/
def insert [TransOrd κ] (x : α) (s : Ascending key) : Ascending key where
  toList := s.toList.filter (fun y => compare (key y) (key x) == .lt) ++
    x :: s.toList.filter (fun y => compare (key x) (key y) == .lt)
  ascending := by
    refine List.pairwise_append.2 ⟨s.ascending.filter _, List.pairwise_cons.2
      ⟨fun y hy => by simpa using (List.mem_filter.1 hy).2, s.ascending.filter _⟩, ?_⟩
    intro y hy z hz
    have hyx : compare (key y) (key x) = .lt := by simpa using (List.mem_filter.1 hy).2
    rcases List.mem_cons.1 hz with rfl | hz
    · exact hyx
    · exact TransCmp.lt_trans hyx (by simpa using (List.mem_filter.1 hz).2)

/-- Adds the elements of `xs` one after the other, so that of several with one key the last stays. -/
def insertAll [TransOrd κ] (s : Ascending key) (xs : List α) : Ascending key :=
  xs.foldl (fun s x => s.insert x) s

/-- The collection of the elements of `xs`, of several with one key the last. -/
def ofList [TransOrd κ] (xs : List α) : Ascending key := insertAll ∅ xs

/-! ## Inspection -/

/-- The member with key `k`. -/
def find? (s : Ascending key) (k : κ) : Option α :=
  s.toList.find? fun x => compare (key x) k == .eq

/-- Whether some member has key `k`. -/
def contains (s : Ascending key) (k : κ) : Bool := (s.find? k).isSome

/-- The member with the least key. -/
def first? (s : Ascending key) : Option α := s.toList.head?

/-- The member with the greatest key. -/
def last? (s : Ascending key) : Option α := s.toList.getLast?

/-- The number of members. -/
def size (s : Ascending key) : Nat := s.toList.length

/-- Whether there are no members. -/
def isEmpty (s : Ascending key) : Bool := s.toList.isEmpty

end Ascending

/-! ## Sets -/

/-- Every element is less than all that follow it. -/
def Ascends {α : Type u} [Ord α] (xs : List α) : Prop := xs.Pairwise fun a b => compare a b = .lt

/-- What is a member of one list is a member of the other. -/
def SameMembers {α : Type u} (xs ys : List α) : Prop := ∀ x, x ∈ xs ↔ x ∈ ys

namespace SortedSet

variable {α : Type u} [Ord α]

/-- The members of either set. -/
def union [TransOrd α] (s t : SortedSet α) : SortedSet α := s.insertAll t.toList

/-- The members of the first set that are not in the second. -/
def diff [DecidableEq α] (s t : SortedSet α) : SortedSet α := s.filter fun x => x ∉ t

instance [TransOrd α] : Union (SortedSet α) := ⟨union⟩

instance [DecidableEq α] : SDiff (SortedSet α) := ⟨diff⟩

/-- The list has exactly the elements with a property, in strictly ascending order and so each of them once. -/
structure IsListing (p : α → Prop) (xs : List α) : Prop where
  ascending : Ascends xs
  mem_iff : ∀ x, x ∈ xs ↔ p x

end SortedSet

/-! ## Tables -/

namespace Table

variable {κ : Type u} {β : Type v} {γ : Type w} [Ord κ]

/-- The value at `k`. -/
def get? (t : Table κ β) (k : κ) : Option β := (t.find? k).map Prod.snd

/-- The table that has `b` at `k` and agrees with `t` elsewhere. -/
def set [TransOrd κ] (t : Table κ β) (k : κ) (b : β) : Table κ β := Ascending.insert (k, b) t

/-- The values, by ascending key. -/
def values (t : Table κ β) : List β := t.toList.map Prod.snd

/-- Replaces every value by its image and drops the entries whose value has none. -/
def filterMap (f : β → Option γ) (t : Table κ β) : Table κ γ where
  toList := t.toList.filterMap fun e => (f e.2).map (e.1, ·)
  ascending := by
    refine t.ascending.filterMap _ ?_
    rintro ⟨k, b⟩ ⟨k', b'⟩ h x hx y hy
    obtain ⟨c, -, rfl⟩ := Option.map_eq_some_iff.1 hx
    obtain ⟨c', -, rfl⟩ := Option.map_eq_some_iff.1 hy
    exact h

/-- The table of `f` over the keys of a set. -/
def ofKeys (f : κ → β) (s : SortedSet κ) : Table κ β where
  toList := s.toList.map fun k => (k, f k)
  ascending := List.pairwise_map.2 s.ascending

end Table

end LockReplica
