/-!
# Hexadecimal digits

Bytes as pairs of lower-case digits (`ofBytes`) and digits of either case back to bytes (`bytes?`);
reading undoes writing (`bytes?_ofBytes`).
-/

namespace LockReplica.Hex

/-- The value of a digit of either case. -/
def value? (c : Char) : Option Nat :=
  if '0' ≤ c ∧ c ≤ '9' then some (c.toNat - 48)
  else if 'a' ≤ c ∧ c ≤ 'f' then some (c.toNat - 87)
  else if 'A' ≤ c ∧ c ≤ 'F' then some (c.toNat - 55)
  else none

/-- The two lower-case digits of a byte. -/
def ofByte (b : UInt8) : List Char := [Nat.digitChar (b.toNat / 16), Nat.digitChar (b.toNat % 16)]

/-- Bytes as digits, two for each. -/
def ofBytes (bytes : List UInt8) : List Char := bytes.flatMap ofByte

/-- The byte with the given two digits. -/
def byte? (hi lo : Char) : Option UInt8 := do
  return UInt8.ofNat (16 * (← value? hi) + (← value? lo))

/-- Bytes from their digits; an odd number of digits is refused. -/
def bytes? : List Char → Option (List UInt8)
  | [] => some []
  | [_] => none
  | hi :: lo :: cs => do
    let b ← byte? hi lo
    let bs ← bytes? cs
    return b :: bs

/-! ## Reading undoes writing -/

theorem value?_digitChar : ∀ n < 16, value? (Nat.digitChar n) = some n := by decide

theorem byte?_ofByte (b : UInt8) :
    byte? (Nat.digitChar (b.toNat / 16)) (Nat.digitChar (b.toNat % 16)) = some b := by
  have hb := b.toNat_lt
  rw [byte?, value?_digitChar _ (by omega), value?_digitChar _ (by omega)]
  show some (UInt8.ofNat (16 * (b.toNat / 16) + b.toNat % 16)) = some b
  rw [Nat.div_add_mod, UInt8.ofNat_toNat]

theorem bytes?_ofBytes (bytes : List UInt8) : bytes? (ofBytes bytes) = some bytes := by
  induction bytes with
  | nil => rfl
  | cons b bs ih =>
    show bytes? (_ :: _ :: ofBytes bs) = _
    rw [bytes?, byte?_ofByte, ih]
    rfl

@[simp] theorem length_ofBytes (bytes : List UInt8) : (ofBytes bytes).length = 2 * bytes.length := by
  induction bytes with
  | nil => rfl
  | cons b bs ih =>
    show (_ :: _ :: ofBytes bs).length = _
    simp [ih]; omega

end LockReplica.Hex
