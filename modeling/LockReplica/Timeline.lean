import LockReplica.Ascending.Lemmas
import LockReplica.Event

/-!
# Timelines

A timeline lists events by strictly ascending sequence (`pairwise_lt`). A sequence cuts it into the events
below and those from there on (`filter_append_filter`, `below_append_from`, `upTo_append_between`); what is
left of it after a first part determines that part (`eq_filter_of_append`). If it leaves no sequence out, it
lists them one by one (`map_toNat_eq_range'`). Its highest sequence, with a given one as floor, is the greatest
of them all (`highest_eq_iff`).
-/

namespace LockReplica

open Std

namespace Timeline

/-- The higher of `n` and the last sequence of a timeline. -/
def highest (n : Sequence) (t : Timeline) : Sequence :=
  match t.last? with
  | some e => max e.sequence n
  | none => n

variable {t : Timeline} {n m : Sequence}

theorem pairwise_lt (t : Timeline) : t.toList.Pairwise fun a b => a.sequence < b.sequence :=
  t.ascending.imp fun h => compare_eq_lt.1 h

theorem le_of_first?_eq_some {d e : Event} (hd : t.first? = some d) (he : e ∈ t) : d.sequence ≤ e.sequence := by
  rcases (Ascending.mem_of_first?_eq_some hd).2 e he with rfl | hlt
  · exact UInt64.le_refl _
  · exact UInt64.le_of_lt (compare_eq_lt.1 hlt)

theorem le_of_last?_eq_some {d e : Event} (hd : t.last? = some d) (he : e ∈ t) : e.sequence ≤ d.sequence := by
  rcases (Ascending.mem_of_last?_eq_some hd).2 e he with rfl | hlt
  · exact UInt64.le_refl _
  · exact UInt64.le_of_lt (compare_eq_lt.1 hlt)

/-! ## Cuts -/

/-- A property that passes on to lower sequences cuts a timeline in two. -/
theorem filter_append_filter (t : Timeline) {p q : Event → Bool}
    (hp : ∀ d e : Event, d.sequence < e.sequence → p e = true → p d = true) (hq : ∀ e, q e = !p e) :
    (t.filter p).toList ++ (t.filter q).toList = t.toList := by
  simp only [Ascending.toList_filter]
  have ht := pairwise_lt t
  generalize t.toList = l at ht
  induction ht with
  | nil => rfl
  | @cons e l he _ ih =>
    cases hpe : p e with
    | true => rw [List.filter_cons_of_pos hpe, List.filter_cons_of_neg (by simp [hq, hpe]), List.cons_append, ih]
    | false =>
      -- above a first event without the property, none has it
      have hl : ∀ d ∈ l, p d = false := fun d hd =>
        Bool.eq_false_iff.2 fun hpd => by simp [hp e d (he d hd) hpd] at hpe
      have hnil : l.filter p = [] := List.filter_eq_nil_iff.2 fun d hd => by simp [hl d hd]
      have hall : l.filter q = l := List.filter_eq_self.2 fun d hd => by simp [hq, hl d hd]
      rw [List.filter_cons_of_neg (by simp [hpe]), List.filter_cons_of_pos (by simp [hq, hpe]), hnil, hall,
        List.nil_append]

/-- The events below a sequence, and then the others. -/
theorem below_append_from (t : Timeline) (n : Sequence) :
    (t.filter fun e => e.sequence < n).toList ++ (t.filter fun e => n ≤ e.sequence).toList = t.toList :=
  filter_append_filter t (fun d e hde he => decide_eq_true (UInt64.lt_trans hde (of_decide_eq_true he)))
    fun e => by grind

/-- The events up to one sequence, and then those up to another. -/
theorem upTo_append_between (t : Timeline) (hnm : n ≤ m) :
    (t.filter fun e => e.sequence ≤ n).toList ++ (t.filter fun e => n < e.sequence && e.sequence ≤ m).toList =
      (t.filter fun e => e.sequence ≤ m).toList := by
  have hcut := filter_append_filter (t.filter fun e => e.sequence ≤ m) (p := fun e => e.sequence ≤ n)
    (q := fun e => n < e.sequence)
    (fun d e hde he => decide_eq_true (UInt64.le_of_lt (UInt64.lt_of_lt_of_le hde (of_decide_eq_true he))))
    fun e => by grind
  have hlow : (t.filter fun e => e.sequence ≤ m).filter (fun e => e.sequence ≤ n) = t.filter fun e => e.sequence ≤ n :=
    Ascending.ext_mem fun e => by simp; grind
  have hhigh : (t.filter fun e => e.sequence ≤ m).filter (fun e => n < e.sequence) =
      t.filter fun e => n < e.sequence && e.sequence ≤ m :=
    Ascending.ext_mem fun e => by simp; grind
  rwa [hlow, hhigh] at hcut

/-- In a listing of two parts, a first part that is exactly the events up to a sequence is cut off by it. -/
theorem eq_filter_of_append {s : Timeline} {l : List Event} (h : l ++ t.toList = s.toList)
    (hl : ∀ e ∈ l, e.sequence ≤ n) (ht : ∀ e ∈ t, n < e.sequence) :
    l = (s.filter fun e => e.sequence ≤ n).toList := by
  have hbelow : l.filter (fun e => e.sequence ≤ n) = l :=
    List.filter_eq_self.2 fun e he => by simpa using hl e he
  have habove : t.toList.filter (fun e => e.sequence ≤ n) = [] :=
    List.filter_eq_nil_iff.2 fun e he => by have := ht e he; grind
  rw [Ascending.toList_filter, ← h, List.filter_append, hbelow, habove, List.append_nil]

/-- A timeline with exactly the sequences after `a` up to `b` lists them one by one. -/
theorem map_toNat_eq_range' {t : Timeline} {a b : Sequence} (hmem : ∀ e ∈ t, a < e.sequence ∧ e.sequence ≤ b)
    (hall : ∀ n, a < n → n ≤ b → ∃ e ∈ t, e.sequence = n) :
    t.toList.map (fun e => e.sequence.toNat) = List.range' (a.toNat + 1) (b.toNat - a.toNat) := by
  have hpair : (t.toList.map fun e => e.sequence.toNat).Pairwise (· < ·) :=
    List.pairwise_map.2 ((pairwise_lt t).imp UInt64.lt_iff_toNat_lt.1)
  have hrange : (List.range' (a.toNat + 1) (b.toNat - a.toNat)).Pairwise (· < ·) :=
    List.pairwise_lt_range' 1 Nat.one_pos
  have hperm : (t.toList.map fun e => e.sequence.toNat).Perm (List.range' (a.toNat + 1) (b.toNat - a.toNat)) := by
    refine (List.perm_ext_iff_of_nodup (hpair.imp Nat.ne_of_lt) (hrange.imp Nat.ne_of_lt)).2 ?_
    intro n
    rw [List.mem_map, List.mem_range'_1]
    constructor
    · rintro ⟨e, he, rfl⟩
      obtain ⟨hlow, hhigh⟩ := hmem e he
      have := UInt64.lt_iff_toNat_lt.1 hlow
      have := UInt64.le_iff_toNat_le.1 hhigh
      omega
    · intro hn
      have hofNat : (UInt64.ofNat n).toNat = n := Sequence.toNat_ofNat_of_le (s := b) (by omega)
      obtain ⟨e, he, hen⟩ :=
        hall (UInt64.ofNat n) (UInt64.lt_iff_toNat_lt.2 (by omega)) (UInt64.le_iff_toNat_le.2 (by omega))
      exact ⟨e, he, by rw [hen, hofNat]⟩
  exact hperm.eq_of_pairwise (fun m n _ _ hmn hnm => absurd hnm (Nat.lt_asymm hmn)) hpair hrange

/-! ## The highest sequence -/

theorem highest_spec (n : Sequence) (t : Timeline) :
    n ≤ highest n t ∧ (∀ e ∈ t, e.sequence ≤ highest n t) ∧
      (highest n t = n ∨ ∃ e ∈ t, e.sequence = highest n t) := by
  unfold highest
  cases h : t.last? with
  | none => exact ⟨UInt64.le_refl n, fun e he => absurd he (Ascending.last?_eq_none_iff.1 h e), .inl rfl⟩
  | some d =>
    have hd := (Ascending.mem_of_last?_eq_some h).1
    have hmax : (max d.sequence n).toNat = max d.sequence.toNat n.toNat := Sequence.toNat_max
    dsimp only
    refine ⟨UInt64.le_iff_toNat_le.2 (by omega), fun e he => ?_, ?_⟩
    · have := UInt64.le_iff_toNat_le.1 (le_of_last?_eq_some h he)
      exact UInt64.le_iff_toNat_le.2 (by omega)
    · rcases UInt64.le_total d.sequence n with hle | hle
      · exact .inl (Sequence.max_eq_right hle)
      · exact .inr ⟨d, hd, (Sequence.max_eq_left hle).symm⟩

/-- The highest sequence is the greatest of `n` and those on the timeline. -/
theorem highest_eq_iff :
    highest n t = m ↔ n ≤ m ∧ (∀ e ∈ t, e.sequence ≤ m) ∧ (m = n ∨ ∃ e ∈ t, e.sequence = m) := by
  obtain ⟨hn, ht, hmem⟩ := highest_spec n t
  refine ⟨fun h => h ▸ ⟨hn, ht, hmem⟩, fun ⟨hn', ht', hmem'⟩ => UInt64.le_antisymm ?_ ?_⟩
  · rcases hmem with h | ⟨e, he, h⟩
    · rwa [h]
    · exact h ▸ ht' e he
  · rcases hmem' with rfl | ⟨e, he, rfl⟩
    · exact hn
    · exact ht e he

/-- New events never move the highest sequence back. -/
theorem le_highest (n : Sequence) (t : Timeline) : n ≤ highest n t := (highest_spec n t).1

theorem le_highest_of_mem {e : Event} (he : e ∈ t) : e.sequence ≤ highest n t := (highest_spec n t).2.1 e he

/-- Events that are not above the floor may be dropped. -/
theorem highest_filter {p : Event → Bool} (h : ∀ e ∈ t, p e = false → e.sequence ≤ n) :
    highest n (t.filter p) = highest n t := by
  obtain ⟨hfloor, hall, hreached⟩ := highest_spec n t
  refine highest_eq_iff.2 ⟨hfloor, fun e he => hall e (Ascending.mem_filter.1 he).1, ?_⟩
  rcases hreached with heq | ⟨e, he, heq⟩
  · exact .inl heq
  · cases hp : p e with
    | true => exact .inr ⟨e, Ascending.mem_filter.2 ⟨he, hp⟩, heq⟩
    | false => exact .inl (UInt64.le_antisymm (heq ▸ h e he hp) hfloor)

end Timeline

end LockReplica
