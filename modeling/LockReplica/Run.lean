/-!
# Runs

A run makes operations one after the other. What holds at its start and is kept by every operation that is
allowed where it is made holds at the end of every run of allowed operations (`Along.foldl`). What some operation
has brought about and no later one has undone is told from the end of the run (`since_concat_iff`). Where any two
operations may change places, only what operations a run makes matters (`foldl_eq_of_perm`).
-/

namespace LockReplica

universe u v

variable {σ : Type u} {ο : Type v}

/-- Every operation of a run is allowed in the state in which it is made. -/
def Along (step : σ → ο → σ) (allowed : σ → ο → Prop) : σ → List ο → Prop
  | _, [] => True
  | s, o :: os => allowed s o ∧ Along step allowed (step s o) os

instance Along.decidable {step : σ → ο → σ} {allowed : σ → ο → Prop} [∀ s o, Decidable (allowed s o)] :
    ∀ (s : σ) (os : List ο), Decidable (Along step allowed s os)
  | _, [] => .isTrue trivial
  | s, o :: os => @instDecidableAnd _ _ inferInstance (Along.decidable (step s o) os)

theorem Along.foldl {step : σ → ο → σ} {allowed : σ → ο → Prop} {inv : σ → Prop}
    (hstep : ∀ s o, inv s → allowed s o → inv (step s o)) {os : List ο} {s : σ}
    (h : Along step allowed s os) (hs : inv s) : inv (os.foldl step s) := by
  induction os generalizing s with
  | nil => exact hs
  | cons o os ih => exact ih h.2 (hstep s o hs h.1)

theorem along_concat_iff {step : σ → ο → σ} {allowed : σ → ο → Prop} {os : List ο} {o : ο} {s : σ} :
    Along step allowed s (os ++ [o]) ↔ Along step allowed s os ∧ allowed (os.foldl step s) o := by
  induction os generalizing s with
  | nil => simp [Along]
  | cons o' os ih => simp [Along, ih, and_assoc]

/-- Some operation of a run has brought something about, and every later one has kept it. -/
def Since (step : σ → ο → σ) (made kept : σ → ο → Prop) (s : σ) (os : List ο) : Prop :=
  ∃ before o after, os = before ++ o :: after ∧ made (before.foldl step s) o ∧
    Along step kept (step (before.foldl step s) o) after

section

variable {step : σ → ο → σ} {made kept : σ → ο → Prop} {s : σ}

theorem not_since_nil : ¬Since step made kept s [] := by
  rintro ⟨before, o, after, hos, -⟩
  exact absurd hos (by simp)

/-- The last operation has brought it about, or an earlier one has and the last one keeps it. -/
theorem since_concat_iff {os : List ο} {o : ο} : Since step made kept s (os ++ [o]) ↔
    made (os.foldl step s) o ∨ Since step made kept s os ∧ kept (os.foldl step s) o := by
  constructor
  · rintro ⟨before, o', after, hos, hmade, hkept⟩
    rcases List.eq_nil_or_concat after with rfl | ⟨after, last, rfl⟩
    · obtain ⟨rfl, ho⟩ := List.append_inj' hos rfl
      cases ho
      exact .inl hmade
    · have hos' : os ++ [o] = (before ++ o' :: after) ++ [last] := by simpa using hos
      obtain ⟨rfl, ho⟩ := List.append_inj' hos' rfl
      cases ho
      rw [List.concat_eq_append, along_concat_iff] at hkept
      exact .inr ⟨⟨before, o', after, rfl, hmade, hkept.1⟩, by rw [List.foldl_append]; exact hkept.2⟩
  · rintro (hmade | ⟨⟨before, o', after, rfl, hmade, hkept⟩, hlast⟩)
    · exact ⟨os, o, [], rfl, hmade, trivial⟩
    · rw [List.foldl_append] at hlast
      exact ⟨before, o', after ++ [o], by simp, hmade, along_concat_iff.2 ⟨hkept, hlast⟩⟩

end

/-- Operations that keep an invariant under which any two of them may change places may be made in any order. -/
theorem foldl_eq_of_perm {step : σ → ο → σ} {inv : σ → Prop} (hstep : ∀ s o, inv s → inv (step s o))
    (hcomm : ∀ s a b, inv s → step (step s a) b = step (step s b) a) {os os' : List ο} (h : os.Perm os')
    {s : σ} (hs : inv s) : os.foldl step s = os'.foldl step s := by
  induction h generalizing s with
  | nil => rfl
  | cons o _ ih => exact ih (hstep s o hs)
  | swap a b os => rw [List.foldl_cons, List.foldl_cons, List.foldl_cons, List.foldl_cons, hcomm s b a hs]
  | trans _ _ ih ih' => exact (ih hs).trans (ih' hs)

end LockReplica
