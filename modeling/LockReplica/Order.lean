/-!
# Orders read off a key, and of lists

A type is ordered by comparing keys of its values. The order is total whenever that of the keys is
(`transCmp_compareOn`), and equality in it is equality once the key is injective
(`lawfulEqCmp_compareOn`). Then it is a total order (`totalOrder`).

Lists are compared lexicographically (`compare_list_eq_lt_iff`). So the lists that begin with a given one lie
together (`forall_lt_or_exists_eq_append_or_forall_gt`), and an element below all others separates the parts of a
list so that they are compared one after the other (`compare_append_cons`).
-/

namespace LockReplica

open Std

universe u v

/-! ## Keys -/

section Keys

variable {α : Type u} {β : Type v} [Ord β]

theorem transCmp_compareOn [TransOrd β] (key : α → β) : TransCmp (compareOn key) where
  eq_swap := (inferInstance : TransOrd β).eq_swap
  isLE_trans := (inferInstance : TransOrd β).isLE_trans

theorem lawfulEqCmp_compareOn [LawfulEqOrd β] (key : α → β) (inj : ∀ a b, key a = key b → a = b) :
    LawfulEqCmp (compareOn key) where
  compare_self := (inferInstance : LawfulEqOrd β).compare_self
  eq_of_compare h := inj _ _ ((inferInstance : LawfulEqOrd β).eq_of_compare h)

end Keys

/-! ## Total orders -/

/-- A comparison is a total order, in which only equal values are neither less nor greater. -/
structure TotalOrder (α : Type u) [Ord α] : Prop where
  eq_iff : ∀ a b : α, compare a b = .eq ↔ a = b
  swap : ∀ a b : α, compare a b = (compare b a).swap
  total : ∀ a b : α, (compare a b).isLE ∨ (compare b a).isLE
  antisymm : ∀ a b : α, (compare a b).isLE → (compare b a).isLE → a = b
  trans : ∀ a b c : α, (compare a b).isLE → (compare b c).isLE → (compare a c).isLE

theorem totalOrder (α : Type u) [Ord α] [TransOrd α] [LawfulEqOrd α] : TotalOrder α where
  eq_iff _ _ := LawfulEqOrd.compare_eq_iff_eq
  swap _ _ := OrientedOrd.eq_swap
  total a b := by
    rw [OrientedOrd.eq_swap (a := b)]
    cases compare a b <;> simp
  antisymm _ _ hab hba := LawfulEqOrd.compare_eq_iff_eq.1 (OrientedCmp.isLE_antisymm hab hba)
  trans _ _ _ hab hbc := TransCmp.isLE_trans hab hbc

/-! ## Lists -/

section Lists

variable {α : Type u} [Ord α] [LawfulEqOrd α]

/-- A list is less than another one if it is so in the lexicographic order. -/
theorem compare_list_eq_lt_iff [LT α] [LE α] [LawfulOrderOrd α] [LawfulOrderLT α] {a b : List α} :
    compare a b = .lt ↔ a < b := by
  induction a generalizing b with
  | nil => cases b <;> simp
  | cons x a ih =>
    cases b with
    | nil => simp
    | cons y b =>
      rw [List.compare_cons_cons, Ordering.then_eq_lt, compare_eq_lt, LawfulEqOrd.compare_eq_iff_eq, ih,
        List.cons_lt_cons_iff]

/-- A common beginning does not matter. -/
theorem compare_append_append (p a b : List α) : compare (p ++ a) (p ++ b) = compare a b := by
  induction p with
  | nil => rfl
  | cons x p ih =>
    rw [List.cons_append, List.cons_append, List.compare_cons_cons, ReflOrd.compare_self, Ordering.eq_then, ih]

variable [TransOrd α]

/-- Lists that are followed by an element below all of theirs are compared before what comes after it. -/
theorem compare_append_cons {z : α} {a b : List α} (ha : ∀ c ∈ a, compare z c = .lt) (hb : ∀ c ∈ b, compare z c = .lt)
    (x y : List α) : compare (a ++ z :: x) (b ++ z :: y) = (compare a b).then (compare x y) := by
  induction a generalizing b with
  | nil =>
    cases b with
    | nil => exact compare_append_append [z] x y
    | cons c b =>
      -- the shorter list goes on with the separating element
      rw [List.nil_append, List.cons_append, List.compare_cons_cons, hb c List.mem_cons_self]
      rfl
  | cons c a ih =>
    cases b with
    | nil =>
      rw [List.nil_append, List.cons_append, List.compare_cons_cons, OrientedCmp.gt_of_lt (ha c List.mem_cons_self)]
      rfl
    | cons d b =>
      rw [List.cons_append, List.cons_append, List.compare_cons_cons, List.compare_cons_cons, Ordering.then_assoc,
        ih (fun e he => ha e (List.mem_cons_of_mem _ he)) fun e he => hb e (List.mem_cons_of_mem _ he)]

/-- A list that does not begin with another one lies below or above all lists that do. -/
theorem forall_lt_or_exists_eq_append_or_forall_gt (p l : List α) :
    (∀ x, compare l (p ++ x) = .lt) ∨ (∃ x, l = p ++ x) ∨ ∀ x, compare (p ++ x) l = .lt := by
  induction p generalizing l with
  | nil => exact .inr (.inl ⟨l, rfl⟩)
  | cons c p ih =>
    cases l with
    | nil => exact .inl fun x => List.compare_nil_cons
    | cons d l =>
      simp only [List.cons_append, List.compare_cons_cons]
      cases hdc : compare d c with
      | lt => exact .inl fun x => rfl
      | gt => exact .inr (.inr fun x => by rw [OrientedCmp.gt_iff_lt.1 hdc]; rfl)
      | eq =>
        obtain rfl := LawfulEqOrd.compare_eq_iff_eq.1 hdc
        rw [ReflOrd.compare_self]
        simpa using ih l

end Lists

end LockReplica
