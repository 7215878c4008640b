import LockReplica.Hex

/-!
# Strings in quotes

In a quoted string a quote, a backslash and the control characters are escaped, with one letter where
there is one and else by number; all other characters stand for themselves. Reading takes any
character escaped and refuses bare control characters. It first takes off the pieces of a string (`tail?`)
and then joins the halves of characters beyond the basic plane (`join?`); a string with a half that
stands alone is no text. Reading undoes writing (`string?_body`).
-/

namespace LockReplica.Json.Text

/-! ## Writing -/

/-- A character within a text. -/
def escape (c : Char) : List Char :=
  match c with
  | '"' => ['\\', '"']
  | '\\' => ['\\', '\\']
  | '\n' => ['\\', 'n']
  | '\r' => ['\\', 'r']
  | '\t' => ['\\', 't']
  | '\x08' => ['\\', 'b']
  | '\x0c' => ['\\', 'f']
  | c => if c.toNat < 0x20 then '\\' :: 'u' :: '0' :: '0' :: Hex.ofByte (UInt8.ofNat c.toNat) else [c]

/-- A string behind its opening quote; one that is no text is written as half of a character. -/
def body : Option String → List Char
  | some s => s.toList.flatMap escape ++ ['"']
  | none => ['\\', 'u', 'd', '8', '0', '0', '"']

/-- A string in quotes. -/
def quote (s : Option String) : List Char := '"' :: body s

/-! ## Reading -/

/-- The character for which a letter stands behind a backslash. -/
def escaped? : Char → Option Char
  | '"' => some '"'
  | '\\' => some '\\'
  | '/' => some '/'
  | 'b' => some '\x08'
  | 'f' => some '\x0c'
  | 'n' => some '\n'
  | 'r' => some '\r'
  | 't' => some '\t'
  | _ => none

/-- The sixteen bits written as four digits. -/
def unit? (a b c d : Char) : Option Nat := do
  return (← Hex.byte? a b).toNat * 256 + (← Hex.byte? c d).toNat

/-- Whether sixteen bits are the first half of a pair. -/
def isHighSurrogate (n : Nat) : Bool := 0xd800 ≤ n && n < 0xdc00

/-- Whether sixteen bits are the second half of a pair. -/
def isLowSurrogate (n : Nat) : Bool := 0xdc00 ≤ n && n < 0xe000

/-- The character of a pair of halves. -/
def pairChar (high low : Nat) : Char := Char.ofNat (0x10000 + (high - 0xd800) * 0x400 + (low - 0xdc00))

/-- What one place in a string stands for. -/
inductive Piece where
  | char (c : Char)
  /-- One half of a pair. -/
  | half (n : Nat)

/-- The piece written as sixteen bits. -/
def Piece.ofUnit (n : Nat) : Piece :=
  if isHighSurrogate n || isLowSurrogate n then half n else char (Char.ofNat n)

/-- Takes off the pieces of a string behind its opening quote, up to and including the closing one. -/
def tail? : List Char → Option (List Piece × List Char)
  | [] => none
  | '"' :: cs => some ([], cs)
  | '\\' :: 'u' :: a :: b :: c :: d :: cs => do
    let n ← unit? a b c d
    (tail? cs).map fun (ps, cs) => (.ofUnit n :: ps, cs)
  | '\\' :: c :: cs => do
    let c ← escaped? c
    (tail? cs).map fun (ps, cs) => (.char c :: ps, cs)
  | c :: cs => if c.toNat < 0x20 then none else (tail? cs).map fun (ps, cs) => (.char c :: ps, cs)

/-- The text of the pieces, if every first half is followed by a second one and no half is left. -/
def join? : List Piece → Option (List Char)
  | [] => some []
  | .char c :: ps => (join? ps).map (c :: ·)
  | .half n :: .half m :: ps =>
    if isHighSurrogate n && isLowSurrogate m then (join? ps).map (pairChar n m :: ·) else none
  | .half _ :: _ => none

/-- Takes off a string behind its opening quote. -/
def string? (cs : List Char) : Option (Option String × List Char) :=
  (tail? cs).map fun (ps, cs) => ((join? ps).map String.ofList, cs)

/-! ## Reading undoes writing -/

theorem unit?_ofByte : ∀ n < 0x20, unit? '0' '0' (Nat.digitChar (n / 16)) (Nat.digitChar (n % 16)) = some n := by
  decide

/-- A written character is read as itself. -/
theorem tail?_escape (c : Char) (cs : List Char) :
    tail? (escape c ++ cs) = (tail? cs).map fun (ps, cs) => (.char c :: ps, cs) := by
  unfold escape
  split
  · rfl
  · rfl
  · rfl
  · rfl
  · rfl
  · rfl
  · rfl
  · split
    · rename_i h
      have hb : (UInt8.ofNat c.toNat).toNat = c.toNat := by
        rw [UInt8.toNat_ofNat']; omega
      simp only [Hex.ofByte, hb, List.cons_append, List.nil_append]
      rw [tail?, unit?_ofByte _ h]
      have h1 : isHighSurrogate c.toNat = false := by simp [isHighSurrogate]; omega
      have h2 : isLowSurrogate c.toNat = false := by simp [isLowSurrogate]; omega
      simp [Piece.ofUnit, h1, h2]
    · rename_i h1 h2 _ _ _ _ _ h
      rw [List.singleton_append]
      rw [tail?]
      · simp [h]
      all_goals simp_all

/-- The pieces of a written text are its characters. -/
theorem tail?_flatMap_escape (s cs : List Char) :
    tail? (s.flatMap escape ++ '"' :: cs) = some (s.map .char, cs) := by
  induction s with
  | nil => rfl
  | cons c s ih => simp [List.flatMap_cons, List.append_assoc, tail?_escape, ih]

theorem join?_map_char (s : List Char) : join? (s.map .char) = some s := by
  induction s with
  | nil => rfl
  | cons c s ih => simp [join?, ih]

/-- A written string is read up to its closing quote. -/
theorem string?_body (s : Option String) (cs : List Char) : string? (body s ++ cs) = some (s, cs) := by
  cases s with
  | none =>
    have hu : unit? 'd' '8' '0' '0' = some 0xd800 := by decide
    show string? ('\\' :: 'u' :: 'd' :: '8' :: '0' :: '0' :: '"' :: cs) = _
    simp [string?, tail?, hu, Piece.ofUnit, isHighSurrogate, join?]
  | some s =>
    rw [body, List.append_assoc, List.singleton_append, string?, tail?_flatMap_escape]
    simp [join?_map_char]

end LockReplica.Json.Text
