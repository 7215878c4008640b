/-!
# Numerals

Numbers as they are written: with their sign, the digits of their fraction and their exponent, so that
a whole number is told apart from one that was written with a fraction or an exponent. Reading undoes
writing (`Numeral.read?_chars`), if nothing follows that would continue the numeral.
-/

namespace LockReplica

/-- A number as it is written. -/
structure Numeral where
  negative : Bool := false
  whole : Nat
  /-- The digits after the point; there is no point if there are none. -/
  fraction : List (Fin 10) := []
  /-- The power of ten, if one is written. -/
  exponent : Option Int := none
deriving DecidableEq, Inhabited

namespace Numeral

/-! ## Writing -/

/-- The characters of a numeral. -/
def chars (n : Numeral) : List Char :=
  (if n.negative then ['-'] else []) ++ Nat.toDigits 10 n.whole ++ fractionChars n.fraction ++
    exponentChars n.exponent
where
  fractionChars : List (Fin 10) → List Char
    | [] => []
    | ds => '.' :: ds.map fun (d : Fin 10) => Nat.digitChar d
  exponentChars : Option Int → List Char
    | none => []
    | some (.ofNat e) => 'e' :: Nat.toDigits 10 e
    | some (.negSucc e) => 'e' :: '-' :: Nat.toDigits 10 (e + 1)

/-! ## Reading -/

/-- The value of a decimal digit. -/
def digit (c : Char) : Fin 10 := Fin.ofNat 10 (c.toNat - '0'.toNat)

/-- Takes off the digits in front, of which there must be one. -/
def digits? (cs : List Char) : Option (List Char × List Char) :=
  match cs.takeWhile Char.isDigit with
  | [] => none
  | ds => some (ds, cs.dropWhile Char.isDigit)

/-- The number with the given digits. -/
def natOfDigits (ds : List Char) : Nat := Nat.ofDigitChars 10 ds 0

/-- Takes off a whole number, which begins with a zero only if it is zero. -/
def whole? (cs : List Char) : Option (Nat × List Char) :=
  match digits? cs with
  | none => none
  | some (ds, cs) => if ds.head? = some '0' ∧ ds ≠ ['0'] then none else some (natOfDigits ds, cs)

/-- Takes off a point and the digits after it, if there is a point. -/
def fraction? : List Char → Option (List (Fin 10) × List Char)
  | '.' :: cs => (digits? cs).map fun (ds, cs) => (ds.map digit, cs)
  | cs => some ([], cs)

/-- Takes off an exponent with its sign. -/
def signed? : List Char → Option (Int × List Char)
  | '-' :: cs => (digits? cs).map fun (ds, cs) => (-(natOfDigits ds : Int), cs)
  | '+' :: cs => (digits? cs).map fun (ds, cs) => ((natOfDigits ds : Int), cs)
  | cs => (digits? cs).map fun (ds, cs) => ((natOfDigits ds : Int), cs)

/-- Takes off an exponent with its mark, if there is one. -/
def exponent? : List Char → Option (Option Int × List Char)
  | 'e' :: cs => (signed? cs).map fun (e, cs) => (some e, cs)
  | 'E' :: cs => (signed? cs).map fun (e, cs) => (some e, cs)
  | cs => some (none, cs)

/-- Takes off a minus sign, if there is one. -/
def sign : List Char → Bool × List Char
  | '-' :: cs => (true, cs)
  | cs => (false, cs)

/-- Takes a numeral off the front. -/
def read? (cs : List Char) : Option (Numeral × List Char) := do
  let (negative, cs) := sign cs
  let (whole, cs) ← whole? cs
  let (fraction, cs) ← fraction? cs
  let (exponent, cs) ← exponent? cs
  return ({ negative, whole, fraction, exponent }, cs)

/-! ## Reading undoes writing -/

/-- What may follow a numeral: nothing that would continue it. -/
def Ends (cs : List Char) : Prop := ∀ c ∈ cs.head?, c.isDigit = false ∧ c ≠ '.' ∧ c ≠ 'e' ∧ c ≠ 'E'

theorem digits?_append {ds cs : List Char} (hne : ds ≠ []) (hds : ∀ d ∈ ds, d.isDigit = true)
    (hcs : ∀ c ∈ cs.head?, c.isDigit = false) : digits? (ds ++ cs) = some (ds, cs) := by
  have ht : cs.takeWhile Char.isDigit = [] := by cases cs <;> simp_all
  have hd : cs.dropWhile Char.isDigit = cs := by cases cs <;> simp_all
  rw [digits?, List.takeWhile_append_of_pos hds, List.dropWhile_append_of_pos hds, ht, hd, List.append_nil]
  cases ds with
  | nil => exact absurd rfl hne
  | cons d ds => rfl

/-- The digits of a number are digits. -/
theorem isDigit_toDigits (n : Nat) : ∀ d ∈ Nat.toDigits 10 n, d.isDigit = true := fun _ hd =>
  Nat.isDigit_of_mem_toDigits (by decide) (by decide) hd

/-- The digits of a number begin with a zero only if it is zero. -/
theorem head?_toDigits (n : Nat) : ∃ d, (Nat.toDigits 10 n).head? = some (Nat.digitChar d) ∧ (d = 0 → n = 0) := by
  induction n using Nat.strongRecOn with
  | ind n ih =>
    by_cases hn : n < 10
    · exact ⟨n, by rw [Nat.toDigits_of_lt_base hn]; rfl, id⟩
    · obtain ⟨d, hd, h0⟩ := ih (n / 10) (by omega)
      refine ⟨d, ?_, fun h => by have := h0 h; omega⟩
      have h := Nat.toDigits_append_toDigits (b := 10) (n := n / 10) (d := n % 10) (by decide) (by omega) (by omega)
      rw [Nat.div_add_mod] at h
      rw [← h, List.head?_append, hd]
      rfl

theorem toDigits_ne_nil (n : Nat) : Nat.toDigits 10 n ≠ [] := by
  obtain ⟨d, hd, _⟩ := head?_toDigits n
  intro h
  simp [h] at hd

theorem natOfDigits_toDigits (n : Nat) : natOfDigits (Nat.toDigits 10 n) = n := Nat.ofDigitChars_ten_toDigits

theorem whole?_toDigits {n : Nat} {cs : List Char} (hcs : ∀ c ∈ cs.head?, c.isDigit = false) :
    whole? (Nat.toDigits 10 n ++ cs) = some (n, cs) := by
  rw [whole?, digits?_append (toDigits_ne_nil n) (isDigit_toDigits n) hcs]
  have : ¬((Nat.toDigits 10 n).head? = some '0' ∧ Nat.toDigits 10 n ≠ ['0']) := by
    rintro ⟨h, h'⟩
    obtain ⟨d, hd, h0⟩ := head?_toDigits n
    rw [hd, Option.some.injEq, Nat.digitChar_eq_zero] at h
    rw [h0 h] at h'
    exact h' rfl
  simp only [if_neg this, natOfDigits_toDigits]

theorem digit_digitChar (d : Fin 10) : digit (Nat.digitChar d) = d := by
  revert d; decide

theorem fraction?_fractionChars {ds : List (Fin 10)} {cs : List Char}
    (hcs : ∀ c ∈ cs.head?, c.isDigit = false ∧ c ≠ '.') :
    fraction? (chars.fractionChars ds ++ cs) = some (ds, cs) := by
  cases ds with
  | nil =>
    cases cs with
    | nil => rfl
    | cons c cs =>
      have : c ≠ '.' := (hcs c rfl).2
      show fraction? (c :: cs) = _
      unfold fraction?
      split
      · simp_all
      · rfl
  | cons d ds =>
    show (digits? ((d :: ds).map (fun d : Fin 10 => Nat.digitChar d) ++ cs)).map _ = _
    rw [digits?_append (by simp) _ fun c hc => (hcs c hc).1]
    · simp [digit_digitChar, Function.comp_def]
    · intro c hc
      obtain ⟨d, _, rfl⟩ := List.mem_map.1 hc
      simp [Nat.isDigit_digitChar]

theorem signed?_toDigits {n : Nat} {cs : List Char} (hcs : ∀ c ∈ cs.head?, c.isDigit = false) :
    signed? (Nat.toDigits 10 n ++ cs) = some ((n : Int), cs) := by
  have hd := digits?_append (toDigits_ne_nil n) (isDigit_toDigits n) hcs
  have hne : ∀ c ∈ (Nat.toDigits 10 n ++ cs).head?, c.isDigit = true := by
    intro c hc
    obtain ⟨d, hd, _⟩ := head?_toDigits n
    rw [List.head?_append, hd, Option.some_or, ← hd] at hc
    exact isDigit_toDigits n c (List.mem_of_mem_head? hc)
  unfold signed?
  split
  · rename_i h; rw [h] at hne; exact absurd (hne _ rfl) (by decide)
  · rename_i h; rw [h] at hne; exact absurd (hne _ rfl) (by decide)
  · rw [hd]; simp [natOfDigits_toDigits]

theorem exponent?_exponentChars {e : Option Int} {cs : List Char}
    (hcs : ∀ c ∈ cs.head?, c.isDigit = false ∧ c ≠ 'e' ∧ c ≠ 'E') :
    exponent? (chars.exponentChars e ++ cs) = some (e, cs) := by
  have hd : ∀ c ∈ cs.head?, c.isDigit = false := fun c hc => (hcs c hc).1
  match e with
  | none =>
    show exponent? cs = _
    unfold exponent?
    split
    · exact absurd rfl (hcs _ rfl).2.1
    · exact absurd rfl (hcs _ rfl).2.2
    · rfl
  | some (.ofNat e) =>
    show (signed? (Nat.toDigits 10 e ++ cs)).map _ = _
    rw [signed?_toDigits hd]
    rfl
  | some (.negSucc e) =>
    show ((digits? (Nat.toDigits 10 (e + 1) ++ cs)).map _).map _ = _
    rw [digits?_append (toDigits_ne_nil _) (isDigit_toDigits _) hd]
    simp [natOfDigits_toDigits, Int.negSucc_eq]

/-- An exponent continues no digits and no fraction. -/
theorem isDigit_head?_suffix {n : Numeral} {cs : List Char} (h : Ends cs) :
    ∀ c ∈ (chars.exponentChars n.exponent ++ cs).head?, c.isDigit = false ∧ c ≠ '.' := by
  intro c hc
  match he : n.exponent with
  | none => rw [he] at hc; exact ⟨(h c hc).1, (h c hc).2.1⟩
  | some (.ofNat _) => rw [he] at hc; cases hc; decide
  | some (.negSucc _) => rw [he] at hc; cases hc; decide

/-- A written numeral is read up to its end. -/
theorem read?_chars {n : Numeral} {cs : List Char} (h : Ends cs) : read? (n.chars ++ cs) = some (n, cs) := by
  have he : exponent? (chars.exponentChars n.exponent ++ cs) = some (n.exponent, cs) :=
    exponent?_exponentChars fun c hc => ⟨(h c hc).1, (h c hc).2.2⟩
  have hf : fraction? (chars.fractionChars n.fraction ++ (chars.exponentChars n.exponent ++ cs)) =
      some (n.fraction, chars.exponentChars n.exponent ++ cs) :=
    fraction?_fractionChars (isDigit_head?_suffix h)
  have hw : ∀ c ∈ (chars.fractionChars n.fraction ++ (chars.exponentChars n.exponent ++ cs)).head?,
      c.isDigit = false := by
    intro c hc
    match hn : n.fraction with
    | [] => rw [hn] at hc; exact (isDigit_head?_suffix h c hc).1
    | d :: ds => rw [hn] at hc; cases hc; decide
  have hs : sign (n.chars ++ cs) = (n.negative, Nat.toDigits 10 n.whole ++
      (chars.fractionChars n.fraction ++ (chars.exponentChars n.exponent ++ cs))) := by
    rw [chars]
    cases n.negative with
    | true => simp [sign]
    | false =>
      obtain ⟨c, ds, ht⟩ := List.exists_cons_of_ne_nil (toDigits_ne_nil n.whole)
      have hc : c.isDigit = true := isDigit_toDigits n.whole c (by rw [ht]; exact List.mem_cons_self)
      rw [ht]
      simp only [Bool.false_eq_true, if_false, List.nil_append, List.cons_append, List.append_assoc]
      unfold sign
      split
      · rename_i h'; cases h'; exact absurd hc (by decide)
      · rfl
  rw [read?, hs]
  simp [whole?_toDigits hw, hf, he]

end Numeral

end LockReplica
