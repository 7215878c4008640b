import LockReplica.Json.Parser
import LockReplica.Json.Printer

/-!
# Reading undoes writing

A written value is taken off whole by the reader, whatever follows (`value?_chars`; a numeral must not
be continued). Hence **reading the text of a document gives the document** (`ofText?_text`).
-/

namespace LockReplica.Json

/-! ## First characters -/

theorem skipBlanks_cons {c : Char} {cs : List Char} (h : isBlank c = false) : skipBlanks (c :: cs) = c :: cs := by
  simp [skipBlanks, h]

theorem ends_cons {c : Char} {cs : List Char} (h : c.isDigit = false ∧ c ≠ '.' ∧ c ≠ 'e' ∧ c ≠ 'E') :
    Numeral.Ends (c :: cs) := by
  intro d hd; cases hd; exact h

/-- Numerals begin with a digit or a minus sign. -/
theorem chars_numeral (n : Numeral) : ∃ c cs, n.chars = c :: cs ∧ (c = '-' ∨ c.isDigit = true) := by
  rw [Numeral.chars]
  cases n.negative with
  | true => exact ⟨'-', _, rfl, .inl rfl⟩
  | false =>
    obtain ⟨c, ds, h⟩ := List.exists_cons_of_ne_nil (Numeral.toDigits_ne_nil n.whole)
    rw [h]
    exact ⟨c, _, rfl, .inr (Numeral.isDigit_toDigits n.whole c (h ▸ List.mem_cons_self))⟩

/-- Whether a character can begin a value. -/
def begins (c : Char) : Bool :=
  c = 'n' || c = 't' || c = 'f' || c = '"' || c = '[' || c = '\x7b' || c = '-' || c.isDigit

theorem not_of_begins {c d : Char} (h : begins c = true) (hd : begins d = false) : c ≠ d := by
  rintro rfl; rw [h] at hd; cases hd

theorem isBlank_of_begins {c : Char} (h : begins c = true) : isBlank c = false := by
  simp [isBlank, not_of_begins h (d := ' ') rfl, not_of_begins h (d := '\n') rfl,
    not_of_begins h (d := '\r') rfl, not_of_begins h (d := '\t') rfl]

theorem chars_begins (j : Json) : ∃ c cs, j.chars = c :: cs ∧ begins c = true := by
  match j with
  | null => exact ⟨_, _, rfl, rfl⟩
  | bool true => exact ⟨_, _, rfl, rfl⟩
  | bool false => exact ⟨_, _, rfl, rfl⟩
  | string s => exact ⟨_, _, rfl, rfl⟩
  | array [] => exact ⟨_, _, rfl, rfl⟩
  | array (_ :: _) => exact ⟨_, _, rfl, rfl⟩
  | object [] => exact ⟨_, _, rfl, rfl⟩
  | object (_ :: _) => exact ⟨_, _, rfl, rfl⟩
  | number n =>
    obtain ⟨c, cs, h, hc⟩ := chars_numeral n
    refine ⟨c, cs, h, ?_⟩
    rcases hc with rfl | hc
    · rfl
    · simp [begins, hc]

theorem value?_numeral {n : Numeral} {fuel : Nat} {cs : List Char} (hcs : Numeral.Ends cs) :
    value? (fuel + 1) (n.chars ++ cs) = some (number n, cs) := by
  obtain ⟨c, ds, h, hc⟩ := chars_numeral n
  have hr := Numeral.read?_chars (n := n) hcs
  rw [h] at hr ⊢
  have hb : begins c = true := by rcases hc with rfl | hc <;> simp [begins, *]
  have hne : ∀ d : Char, d.isDigit = false → d ≠ '-' → c ≠ d := by
    rintro d hd hm rfl
    rcases hc with rfl | hc
    · exact hm rfl
    · rw [hc] at hd; cases hd
  rw [List.cons_append] at hr ⊢
  rw [value?, skipBlanks_cons (isBlank_of_begins hb)]
  split
  · rename_i h'; exact absurd (List.cons.inj h').1 (hne 'n' rfl (by decide))
  · rename_i h'; exact absurd (List.cons.inj h').1 (hne 't' rfl (by decide))
  · rename_i h'; exact absurd (List.cons.inj h').1 (hne 'f' rfl (by decide))
  · rename_i h'; exact absurd (List.cons.inj h').1 (hne '"' rfl (by decide))
  · rename_i h'; exact absurd (List.cons.inj h').1 (hne '[' rfl (by decide))
  · rename_i h'; exact absurd (List.cons.inj h').1 (hne '\x7b' rfl (by decide))
  · rw [hr]; rfl

theorem value?_array {fuel : Nat} {v : Json} {vs : List Json} {cs : List Char}
    (hv : value? fuel (v.chars ++ (itemsChars vs ++ cs)) = some (v, itemsChars vs ++ cs))
    (hvs : itemsTail? fuel (itemsChars vs ++ cs) = some (vs, cs)) :
    value? (fuel + 1) ((array (v :: vs)).chars ++ cs) = some (array (v :: vs), cs) := by
  obtain ⟨c, ds, h, hb⟩ := chars_begins v
  rw [chars, List.cons_append, List.append_assoc, value?, skipBlanks_cons rfl]
  rw [h, List.cons_append] at hv ⊢
  simp only [skipBlanks_cons (isBlank_of_begins hb)]
  split
  · rename_i h'; cases h'; cases hb
  · rw [hv]; simp [hvs]

theorem field?_chars {fuel : Nat} {k : Option String} {v : Json} {cs : List Char}
    (hv : value? fuel (v.chars ++ cs) = some (v, cs)) :
    field? (fuel + 1) (Text.quote k ++ ':' :: (v.chars ++ cs)) = some ((k, v), cs) := by
  rw [Text.quote, List.cons_append, field?, skipBlanks_cons rfl]
  simp [Text.string?_body, skipBlanks_cons, hv, isBlank]

theorem value?_object {fuel : Nat} {k : Option String} {v : Json} {fs : List (Option String × Json)} {cs : List Char}
    (hf : field? fuel (Text.quote k ++ ':' :: (v.chars ++ (fieldsChars fs ++ cs))) =
      some ((k, v), fieldsChars fs ++ cs))
    (hfs : fieldsTail? fuel (fieldsChars fs ++ cs) = some (fs, cs)) :
    value? (fuel + 1) ((object ((k, v) :: fs)).chars ++ cs) = some (object ((k, v) :: fs), cs) := by
  rw [chars, List.cons_append, List.append_assoc, List.cons_append, List.append_assoc, value?,
    skipBlanks_cons rfl]
  rw [Text.quote, List.cons_append] at hf ⊢
  simp only [skipBlanks_cons (show isBlank '"' = false from rfl)]
  split
  · rename_i h'; exact absurd (List.cons.inj h').1 (by decide)
  · rw [hf]; simp [hfs]

theorem ends_itemsChars (vs : List Json) (cs : List Char) : Numeral.Ends (itemsChars vs ++ cs) := by
  cases vs <;> exact ends_cons (by decide)

theorem ends_fieldsChars (fs : List (Option String × Json)) (cs : List Char) :
    Numeral.Ends (fieldsChars fs ++ cs) := by
  cases fs <;> exact ends_cons (by decide)

mutual

theorem value?_chars (fuel : Nat) (cs : List Char) (hcs : Numeral.Ends cs) :
    (j : Json) → (j.chars ++ cs).length ≤ fuel → value? (fuel + 1) (j.chars ++ cs) = some (j, cs)
  | null, _ => rfl
  | bool true, _ => rfl
  | bool false, _ => rfl
  | number _, _ => value?_numeral hcs
  | string s, _ => by
    rw [chars, Text.quote, List.cons_append, value?, skipBlanks_cons rfl]
    simp [Text.string?_body]
  | array [], _ => rfl
  | array (v :: vs), h => by
    obtain ⟨fuel, rfl⟩ : ∃ n, fuel = n + 1 := ⟨fuel - 1, by simp [chars] at h; omega⟩
    simp only [chars, List.cons_append, List.append_assoc, List.length_cons] at h
    refine value?_array (value?_chars fuel _ (ends_itemsChars vs cs) v (by omega))
      (itemsTail?_itemsChars fuel cs vs (by simp only [List.length_append] at h ⊢; omega))
  | object [], _ => rfl
  | object ((k, v) :: fs), h => by
    obtain ⟨fuel, rfl⟩ : ∃ n, fuel = n + 2 := ⟨fuel - 2, by simp [chars, Text.quote] at h; omega⟩
    simp only [chars, Text.quote, List.cons_append, List.append_assoc, List.length_cons,
      List.length_append] at h
    refine value?_object (field?_chars
      (value?_chars fuel _ (ends_fieldsChars fs cs) v (by simp only [List.length_append]; omega)))
      (fieldsTail?_fieldsChars (fuel + 1) cs fs (by simp only [List.length_append]; omega))

theorem itemsTail?_itemsChars (fuel : Nat) (cs : List Char) :
    (vs : List Json) → (itemsChars vs ++ cs).length ≤ fuel →
      itemsTail? (fuel + 1) (itemsChars vs ++ cs) = some (vs, cs)
  | [], _ => rfl
  | v :: vs, h => by
    obtain ⟨fuel, rfl⟩ : ∃ n, fuel = n + 1 := ⟨fuel - 1, by simp [itemsChars] at h; omega⟩
    simp only [itemsChars, List.cons_append, List.append_assoc, List.length_cons,
      List.length_append] at h
    have hv := value?_chars fuel _ (ends_itemsChars vs cs) v (by simp only [List.length_append]; omega)
    have hvs := itemsTail?_itemsChars fuel cs vs (by simp only [List.length_append]; omega)
    rw [itemsChars, List.cons_append, List.append_assoc, itemsTail?, skipBlanks_cons rfl]
    simp [hv, hvs]

theorem fieldsTail?_fieldsChars (fuel : Nat) (cs : List Char) :
    (fs : List (Option String × Json)) → (fieldsChars fs ++ cs).length ≤ fuel →
      fieldsTail? (fuel + 1) (fieldsChars fs ++ cs) = some (fs, cs)
  | [], _ => rfl
  | (k, v) :: fs, h => by
    obtain ⟨fuel, rfl⟩ : ∃ n, fuel = n + 2 := ⟨fuel - 2, by simp [fieldsChars, Text.quote] at h; omega⟩
    simp only [fieldsChars, Text.quote, List.cons_append, List.append_assoc, List.length_cons,
      List.length_append] at h
    have hf := field?_chars (k := k)
      (value?_chars fuel _ (ends_fieldsChars fs cs) v (by simp only [List.length_append]; omega))
    have hfs := fieldsTail?_fieldsChars (fuel + 1) cs fs (by simp only [List.length_append]; omega)
    rw [fieldsChars, List.cons_append, List.append_assoc, List.cons_append, List.append_assoc, fieldsTail?,
      skipBlanks_cons rfl]
    simp [hf, hfs]

end

/-! ## Documents -/

/-- Reading the text of a document gives the document. -/
theorem ofText?_text (j : Json) : ofText? j.text = some j := by
  have h := value?_chars j.chars.length [] (by intro c hc; cases hc) j (by simp)
  rw [List.append_nil] at h
  rw [ofText?, text, String.toList_ofList, ofChars?, h]
  rfl

end LockReplica.Json

