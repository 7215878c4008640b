import LockReplica.Uuid.Text

/-!
# Positions in the lock log

The lock server numbers its events within one epoch of leadership. A position is an epoch and a
sequence in it. Positions of different epochs carry no order: neither is before the other.
-/

namespace LockReplica

open Std

/-! ## Sequences -/

/-- The number of an event within its epoch. -/
abbrev Sequence := UInt64

namespace Sequence

/-- The greatest sequence. -/
def greatest : Sequence := 0xffffffffffffffff

theorem le_greatest (s : Sequence) : s ≤ greatest := by
  have := s.toNat_lt
  have hg : greatest.toNat = 2 ^ 64 - 1 := rfl
  exact UInt64.le_iff_toNat_le.2 (by omega)

theorem ne_greatest_of_lt {s n : Sequence} (h : s < n) : s ≠ greatest :=
  fun heq => UInt64.not_lt.2 (le_greatest n) (heq ▸ h)

/-- The sequence that follows; the greatest one follows itself. -/
def next (s : Sequence) : Sequence := if s = greatest then greatest else s + 1

/-- The sequence `n` before; there is none below zero, so counting back stops there. -/
def back (s n : Sequence) : Sequence := if n ≤ s then s - n else 0

theorem toNat_next {s : Sequence} (h : s ≠ greatest) : (next s).toNat = s.toNat + 1 := by
  rw [next, if_neg h, UInt64.toNat_add]
  have hs : s.toNat ≠ greatest.toNat := fun e => h (UInt64.toNat_inj.1 e)
  have hlt := s.toNat_lt
  have : greatest.toNat = 2 ^ 64 - 1 := rfl
  simp only [UInt64.toNat_one]
  omega

theorem lt_next {s : Sequence} (h : s ≠ greatest) : s < next s :=
  UInt64.lt_iff_toNat_lt.2 (by rw [toNat_next h]; exact Nat.lt_succ_self _)

/-- What follows a sequence is not after the later ones, and the greatest one follows itself. -/
theorem next_le_iff {s n : Sequence} : next s ≤ n ↔ s < n ∨ s = greatest ∧ n = greatest := by
  by_cases h : s = greatest
  · have hle := le_greatest n
    rw [next, if_pos h, h]
    constructor
    · intro hn
      exact .inr ⟨rfl, UInt64.le_antisymm hle hn⟩
    · rintro (hlt | ⟨-, rfl⟩)
      · exact UInt64.le_of_lt hlt
      · exact UInt64.le_refl _
  · have hnext := toNat_next h
    rw [UInt64.le_iff_toNat_le, UInt64.lt_iff_toNat_lt, hnext]
    exact (or_iff_left fun hg => h hg.1).symm

theorem toNat_back {s n : Sequence} : (back s n).toNat = s.toNat - n.toNat := by
  rw [back]
  split
  · exact UInt64.toNat_sub_of_le _ _ ‹_›
  · have := UInt64.lt_iff_toNat_lt.1 (UInt64.not_le.1 ‹_›)
    simp only [UInt64.toNat_zero]
    omega

theorem back_le {s n : Sequence} : back s n ≤ s := by
  refine UInt64.le_iff_toNat_le.2 ?_
  rw [toNat_back]
  omega

theorem back_le_back {s s' n : Sequence} (h : s ≤ s') : back s n ≤ back s' n := by
  have hle := UInt64.le_iff_toNat_le.1 h
  refine UInt64.le_iff_toNat_le.2 ?_
  rw [toNat_back, toNat_back]
  omega

theorem toNat_max {s n : Sequence} : (max s n).toNat = max s.toNat n.toNat := by
  show (if s ≤ n then n else s).toNat = _
  split
  · have := UInt64.le_iff_toNat_le.1 ‹_›
    omega
  · have := UInt64.lt_iff_toNat_lt.1 (UInt64.not_le.1 ‹_›)
    omega

theorem max_eq_right {s n : Sequence} (h : s ≤ n) : max s n = n := if_pos h

theorem max_eq_left {s n : Sequence} (h : n ≤ s) : max s n = s := by
  have hle := UInt64.le_iff_toNat_le.1 h
  refine UInt64.toNat_inj.1 ?_
  rw [toNat_max]
  omega

theorem max_comm (s n : Sequence) : max s n = max n s :=
  UInt64.toNat_inj.1 (by rw [toNat_max, toNat_max, Nat.max_comm])

/-- A number up to a sequence is a sequence. -/
theorem toNat_ofNat_of_le {n : Nat} {s : Sequence} (h : n ≤ s.toNat) : (UInt64.ofNat n).toNat = n := by
  have hlt := s.toNat_lt
  refine UInt64.toNat_ofNat_of_lt' ?_
  simp only [UInt64.size]
  omega

end Sequence

/-! ## Epochs -/

/-- A period of leadership of the lock server; only equality of epochs means anything. -/
structure Epoch where
  id : Uuid
deriving DecidableEq

namespace Epoch

/-- The written form of an epoch. -/
def text (e : Epoch) : String := e.id.text

/-- Draws a new epoch. -/
def draw {γ : Type} [RandomGen γ] (g : γ) : Epoch × γ :=
  let (id, g) := Uuid.draw g
  (⟨id⟩, g)

end Epoch

/-! ## Positions -/

/-- A point of the lock log: the state after the event of this sequence. -/
structure Position where
  epoch : Epoch
  sequence : Sequence
deriving DecidableEq

namespace Position

/-- Positions of one epoch are ordered by sequence; across epochs there is no order. -/
def compare? (p q : Position) : Option Ordering :=
  if p.epoch = q.epoch then some (compare p.sequence q.sequence) else none

instance : LT Position := ⟨fun p q => p.epoch = q.epoch ∧ p.sequence < q.sequence⟩

instance : LE Position := ⟨fun p q => p.epoch = q.epoch ∧ p.sequence ≤ q.sequence⟩

theorem lt_def {p q : Position} : p < q ↔ p.epoch = q.epoch ∧ p.sequence < q.sequence := Iff.rfl

theorem le_def {p q : Position} : p ≤ q ↔ p.epoch = q.epoch ∧ p.sequence ≤ q.sequence := Iff.rfl

instance (p q : Position) : Decidable (p < q) := inferInstanceAs (Decidable (_ ∧ _))

instance (p q : Position) : Decidable (p ≤ q) := inferInstanceAs (Decidable (_ ∧ _))

theorem le_refl (p : Position) : p ≤ p := ⟨rfl, UInt64.le_refl _⟩

theorem le_trans {p q r : Position} (hpq : p ≤ q) (hqr : q ≤ r) : p ≤ r :=
  ⟨hpq.1.trans hqr.1, UInt64.le_trans hpq.2 hqr.2⟩

theorem le_antisymm {p q : Position} (hpq : p ≤ q) (hqp : q ≤ p) : p = q := by
  cases p
  cases q
  cases hpq.1
  cases UInt64.le_antisymm hpq.2 hqp.2
  rfl

/-- The position `n` sequences before, or the start of the epoch if there are fewer. -/
def back (p : Position) (n : Sequence) : Position := { p with sequence := p.sequence.back n }

/-- The written form: the epoch, an at sign and the sequence. -/
def text (p : Position) : String := p.epoch.text ++ "@" ++ toString p.sequence

theorem compare?_eq_lt_iff {p q : Position} : p.compare? q = some .lt ↔ p < q := by
  simp [compare?, lt_def, compare_eq_lt]

theorem compare?_eq_eq_iff {p q : Position} : p.compare? q = some .eq ↔ p = q := by
  cases p; cases q; simp [compare?]

theorem compare?_eq_none_iff {p q : Position} : p.compare? q = none ↔ p.epoch ≠ q.epoch := by
  simp [compare?]

end Position

end LockReplica
