import LockReplica.Hex
import LockReplica.Uuid.Basic

/-!
# Texts of identifiers

An identifier is written as 32 lower-case digits in groups of 8, 4, 4, 4 and 12 with hyphens between
them. Four forms are read: that one, the digits alone, the hyphenated form in braces, and the hyphenated form
behind `urn:uuid:`. The digits may be in either case, and so may the letters of `urn:uuid:`. Reading undoes
writing (`ofText?_text`).
-/

namespace LockReplica.Uuid

/-! ## Groups -/

/-- Cuts a text into groups of the given lengths with hyphens between; the last group takes the rest. -/
def hyphenate : List Nat → List Char → List Char
  | n :: m :: ns, cs => cs.take n ++ '-' :: hyphenate (m :: ns) (cs.drop n)
  | _, cs => cs

/-- Removes the hyphens between groups of the given lengths; each must be where its group ends. -/
def unhyphenate? : List Nat → List Char → Option (List Char)
  | n :: m :: ns, cs =>
    if cs[n]? = some '-' then (unhyphenate? (m :: ns) (cs.drop (n + 1))).map (cs.take n ++ ·) else none
  | _, cs => some cs

/-- Removing the hyphens undoes their insertion, group by group. -/
theorem unhyphenate?_hyphenate_cons {n m : Nat} {ns : List Nat} {cs : List Char} (hn : n ≤ cs.length)
    (h : unhyphenate? (m :: ns) (hyphenate (m :: ns) (cs.drop n)) = some (cs.drop n)) :
    unhyphenate? (n :: m :: ns) (hyphenate (n :: m :: ns) cs) = some cs := by
  have hl : (cs.take n).length = n := by simp [hn]
  have hd : (cs.take n ++ '-' :: hyphenate (m :: ns) (cs.drop n)).drop (n + 1) =
      hyphenate (m :: ns) (cs.drop n) := by
    rw [List.drop_append, hl, List.drop_of_length_le (by omega), Nat.add_sub_cancel_left]; rfl
  rw [hyphenate, unhyphenate?, hd, h, List.getElem?_append_right (by omega),
    List.take_append_of_le_length (by omega)]
  simp [hl, List.take_take]

/-! ## Writing -/

/-- The lengths of the groups. -/
def groups : List Nat := [8, 4, 4, 4, 12]

/-- The written form, as characters. -/
def chars (u : Uuid) : List Char := hyphenate groups (Hex.ofBytes u.bytes)

/-- The written form. -/
def text (u : Uuid) : String := String.ofList u.chars

/-! ## Reading -/

/-- Reads the digits alone. -/
def ofDigits? (cs : List Char) : Option Uuid := Hex.bytes? cs >>= ofBytes?

/-- Reads the hyphenated form. -/
def ofHyphenated? (cs : List Char) : Option Uuid := unhyphenate? groups cs >>= ofDigits?

/-- Reads the hyphenated form in braces. -/
def ofBraced? : List Char → Option Uuid
  | [] => none
  | c :: cs => if c = '\x7b' ∧ cs.getLast? = some '\x7d' then ofHyphenated? cs.dropLast else none

/-- The scheme and namespace of the resource name of an identifier. -/
def resourceScheme : List Char := "urn:uuid:".toList

/-- Reads the hyphenated form as a resource name, whose scheme and namespace may be in either case. -/
def ofResourceName? (cs : List Char) : Option Uuid :=
  if (cs.take 9).map Char.toLower = resourceScheme then ofHyphenated? (cs.drop 9) else none

/-- Reads any of the four forms. -/
def ofText? (s : String) : Option Uuid :=
  let cs := s.toList
  ofDigits? cs <|> ofHyphenated? cs <|> ofBraced? cs <|> ofResourceName? cs

/-! ## Reading undoes writing -/

theorem ofDigits?_ofBytes (u : Uuid) : ofDigits? (Hex.ofBytes u.bytes) = some u := by
  simp [ofDigits?, Hex.bytes?_ofBytes]

theorem unhyphenate?_chars (u : Uuid) : unhyphenate? groups u.chars = some (Hex.ofBytes u.bytes) := by
  have hl : (Hex.ofBytes u.bytes).length = 32 := by simp [u.length_bytes]
  have hd (n : Nat) : ((Hex.ofBytes u.bytes).drop n).length = 32 - n := by simp [hl]
  exact unhyphenate?_hyphenate_cons (by omega) <|
    unhyphenate?_hyphenate_cons (by rw [hd]; decide) <|
    unhyphenate?_hyphenate_cons (by rw [List.drop_drop, hd]; decide) <|
    unhyphenate?_hyphenate_cons (by rw [List.drop_drop, List.drop_drop, hd]; decide) rfl

theorem ofHyphenated?_chars (u : Uuid) : ofHyphenated? u.chars = some u := by
  rw [ofHyphenated?, unhyphenate?_chars]
  exact ofDigits?_ofBytes u

/-- A hyphen is no digit. -/
theorem bytes?_eq_none_of_hyphen {cs : List Char} (h : '-' ∈ cs) : Hex.bytes? cs = none := by
  fun_induction Hex.bytes? cs with
  | case1 => simp at h
  | case2 => rfl
  | case3 hi lo cs ih =>
    have none_of : Hex.value? '-' = none := by decide
    simp only [List.mem_cons] at h
    rcases h with rfl | rfl | h
    · simp [Hex.byte?, none_of]
    · cases hv : Hex.value? hi <;> simp [Hex.byte?, none_of, hv]
    · simp [ih h]

theorem ofText?_text (u : Uuid) : ofText? u.text = some u := by
  have hm : '-' ∈ u.chars := by simp [chars, groups, hyphenate]
  simp only [ofText?, text, String.toList_ofList]
  rw [show ofDigits? u.chars = none by simp [ofDigits?, bytes?_eq_none_of_hyphen hm], ofHyphenated?_chars]
  rfl

end LockReplica.Uuid
